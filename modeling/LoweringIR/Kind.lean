import LoweringIR.Family

/-!
# Kinds of nodes

A kind has a name, a family, and a schema: its fields in order, each with a shape. The schema is all
that building, encoding and decoding a node look at; only the text of a node and the few conditions
that tie a field to particular kinds are stated kind by kind.

Two decisions shape the list. The kinds that both dialects of the expression language have are one
constructor with the dialect as an argument, so what the dialects share is shared here and not said
twice. And whether a list of names is a set or a sequence is part of the shape: a `nameSet` has no
order of its own, a `names` keeps the one it was given.
-/

namespace LoweringIR

/-- What a field holds. -/
inductive Shape where
  /-- A name. -/
  | name
  /-- A truth value. -/
  | flag
  /-- A signed 64-bit integer. -/
  | int64
  /-- A node of the same family. -/
  | node
  /-- A sequence of nodes. -/
  | nodes
  /-- A sequence of names. -/
  | names
  /-- A set of names. -/
  | nameSet
  /-- Names with nodes bound to them. -/
  | bindings
  /-- Names with the locations they are kept in. -/
  | locations
  /-- Names with the set of names each of them conflicts with. -/
  | graph
  /-- A set of frames, each a sequence of names. -/
  | frames
  /-- A sequence of closure records. -/
  | records
deriving DecidableEq, Inhabited

/-- The fields of a kind in order. -/
abbrev Schema := List (String × Shape)

/-! ### The kinds of each family -/

/-- The kinds that both dialects have. -/
inductive CommonKind where
  | locals
  | block
  | assign
  | prim1
  | prim2
  | ifElse
  | alloc
  | mref
  | mset
  | funcall
  | symbol
  | int64
  | bool
  | nop
deriving DecidableEq, Inhabited

/-- The kinds of the high-level form alone. -/
inductive SchemeKind where
  | letrec
  | assigned
  | lambda
  | free
  | bindFree
  | closures
  | letIn
  | prim3
  | quote
  | literalList
  | literalVector
  | emptyList
  | void
deriving DecidableEq, Inhabited

/-- The kinds of the register-allocation form alone. -/
inductive RegallocKind where
  | letrec
  | ulocals
  | spills
  | locate
  | lambda
  | registerConflict
  | frameConflict
  | newFrames
  | callLive
  | returnPoint
  | ifThen
deriving DecidableEq, Inhabited

/-- The kinds of assembly. -/
inductive AsmKind where
  | reg
  | imm
  | label
  | deref
  | derefLabel
  | derefRegister
  | op2
  | retq
  | cfg
  | jmp
  | jmpIf
  | prog
  | push
  | pop
  | code
deriving DecidableEq, Inhabited

/-- A kind of node. -/
inductive Kind where
  | common (dialect : Dialect) (kind : CommonKind)
  | scheme (kind : SchemeKind)
  | regalloc (kind : RegallocKind)
  | asm (kind : AsmKind)
deriving DecidableEq, Inhabited

/-! ### Names -/

/-- The name of a kind. -/
def CommonKind.name : CommonKind → String
  | .locals => "Locals"
  | .block => "Begin"
  | .assign => "Set"
  | .prim1 => "Prim1"
  | .prim2 => "Prim2"
  | .ifElse => "If"
  | .alloc => "Alloc"
  | .mref => "Mref"
  | .mset => "Mset"
  | .funcall => "Funcall"
  | .symbol => "Symbol"
  | .int64 => "Int64"
  | .bool => "Bool"
  | .nop => "Nop"

/-- The name of a kind. -/
def SchemeKind.name : SchemeKind → String
  | .letrec => "Letrec"
  | .assigned => "Assigned"
  | .lambda => "Lambda"
  | .free => "Free"
  | .bindFree => "Bindfree"
  | .closures => "Closures"
  | .letIn => "Let"
  | .prim3 => "Prim3"
  | .quote => "Quote"
  | .literalList => "LiteralList"
  | .literalVector => "LiteralVector"
  | .emptyList => "EmptyList"
  | .void => "Void"

/-- The name of a kind. -/
def RegallocKind.name : RegallocKind → String
  | .letrec => "Letrec"
  | .ulocals => "Ulocals"
  | .spills => "Spills"
  | .locate => "Locate"
  | .lambda => "Lambda"
  | .registerConflict => "RegisterConflict"
  | .frameConflict => "FrameConflict"
  | .newFrames => "NewFrames"
  | .callLive => "CallLive"
  | .returnPoint => "ReturnPoint"
  | .ifThen => "If1"

/-- The name of a kind. -/
def AsmKind.name : AsmKind → String
  | .reg => "Reg"
  | .imm => "Imm"
  | .label => "Label"
  | .deref => "Deref"
  | .derefLabel => "DerefLabel"
  | .derefRegister => "DerefRegister"
  | .op2 => "Op2"
  | .retq => "Retq"
  | .cfg => "Cfg"
  | .jmp => "Jmp"
  | .jmpIf => "Jmpif"
  | .prog => "Prog"
  | .push => "Push"
  | .pop => "Pop"
  | .code => "Code"

/-! ### Schemas -/

/-- The fields of a kind. -/
def CommonKind.schema : CommonKind → Schema
  | .locals => [("names", .nameSet), ("tail", .node)]
  | .block => [("exprs", .nodes)]
  | .assign => [("target", .node), ("value", .node)]
  | .prim1 => [("op", .name), ("operand", .node)]
  | .prim2 => [("op", .name), ("left", .node), ("right", .node)]
  | .ifElse => [("cond", .node), ("conseq", .node), ("alt", .node)]
  | .alloc => [("size", .node)]
  | .mref => [("base", .node), ("offset", .node)]
  | .mset => [("base", .node), ("offset", .node), ("value", .node)]
  | .funcall => [("func", .node), ("args", .nodes)]
  | .symbol => [("name", .name)]
  | .int64 => [("value", .int64)]
  | .bool => [("value", .flag)]
  | .nop => []

/-- The fields of a kind. -/
def SchemeKind.schema : SchemeKind → Schema
  | .letrec => [("bindings", .bindings), ("body", .node)]
  | .assigned => [("names", .nameSet), ("tail", .node)]
  | .lambda => [("args", .names), ("body", .node)]
  | .free => [("names", .names), ("tail", .node)]
  | .bindFree => [("names", .names), ("tail", .node)]
  | .closures => [("records", .records), ("tail", .node)]
  | .letIn => [("bindings", .bindings), ("tail", .node)]
  | .prim3 => [("op", .name), ("first", .node), ("second", .node), ("third", .node)]
  | .quote => [("datum", .node)]
  | .literalList => [("items", .nodes)]
  | .literalVector => [("items", .nodes)]
  | .emptyList => []
  | .void => []

/-- The fields of a kind. -/
def RegallocKind.schema : RegallocKind → Schema
  | .letrec => [("lambdas", .nodes), ("body", .node)]
  | .ulocals => [("names", .nameSet), ("tail", .node)]
  | .spills => [("names", .nameSet), ("tail", .node)]
  | .locate => [("bindings", .locations), ("tail", .node)]
  | .lambda => [("label", .name), ("args", .names), ("body", .node)]
  | .registerConflict => [("graph", .graph), ("tail", .node)]
  | .frameConflict => [("graph", .graph), ("tail", .node)]
  | .newFrames => [("frames", .frames), ("tail", .node)]
  | .callLive => [("names", .nameSet), ("tail", .node)]
  | .returnPoint => [("label", .name), ("expr", .node)]
  | .ifThen => [("cond", .node), ("conseq", .node)]

/-- The fields of a kind. -/
def AsmKind.schema : AsmKind → Schema
  | .reg => [("name", .name)]
  | .imm => [("value", .int64)]
  | .label => [("name", .name)]
  | .deref => [("reg", .node), ("offset", .int64)]
  | .derefLabel => [("reg", .node), ("label", .node)]
  | .derefRegister => [("base", .node), ("index", .node)]
  | .op2 => [("mnemonic", .name), ("src", .node), ("dst", .node)]
  | .retq => []
  | .cfg => [("label", .name), ("instrs", .nodes)]
  | .jmp => [("target", .node)]
  | .jmpIf => [("cc", .name), ("target", .node)]
  | .prog => [("blocks", .nodes)]
  | .push => [("operand", .node)]
  | .pop => [("operand", .node)]
  | .code => [("instrs", .nodes)]

namespace Kind

/-- The name of a kind. It is unique within a family. -/
def name : Kind → String
  | common _ k => k.name
  | scheme k => k.name
  | regalloc k => k.name
  | asm k => k.name

/-- The family of a kind. -/
def family : Kind → Family
  | common d _ => d.family
  | scheme _ => .scheme
  | regalloc _ => .regalloc
  | asm _ => .asm

/-- The fields of a kind. -/
def schema : Kind → Schema
  | common _ k => k.schema
  | scheme k => k.schema
  | regalloc k => k.schema
  | asm k => k.schema

end Kind

/-! ### Vocabularies

Documents name what they hold, and besides the kinds of its family a document of the high-level form
may name a closure record. -/

/-- What an object in a document can describe: a node of some kind, or a closure record. -/
inductive Head where
  | node (kind : Kind)
  | closure
deriving DecidableEq, Inhabited

namespace Head

/-- The name by which a document refers to it. -/
def name : Head → String
  | node k => k.name
  | closure => "Closure"

/-- The names of its fields in order. -/
def fieldNames : Head → List String
  | node k => k.schema.map Prod.fst
  | closure => ["name", "label", "free"]

end Head

/-- What documents of a family can describe. -/
def Family.vocabulary : Family → List Head
  | .scheme =>
    [.node (.scheme .letrec), .node (.common .scheme .locals), .node (.scheme .assigned),
     .node (.scheme .lambda), .node (.scheme .free), .node (.scheme .bindFree),
     .node (.scheme .closures), .closure, .node (.scheme .letIn), .node (.common .scheme .block),
     .node (.common .scheme .assign), .node (.common .scheme .prim1),
     .node (.common .scheme .prim2), .node (.scheme .prim3), .node (.common .scheme .ifElse),
     .node (.common .scheme .alloc), .node (.common .scheme .mref), .node (.common .scheme .mset),
     .node (.common .scheme .funcall), .node (.common .scheme .symbol),
     .node (.common .scheme .int64), .node (.common .scheme .bool), .node (.scheme .quote),
     .node (.scheme .literalList), .node (.scheme .literalVector), .node (.scheme .emptyList),
     .node (.scheme .void), .node (.common .scheme .nop)]
  | .regalloc =>
    [.node (.regalloc .letrec), .node (.common .regalloc .locals), .node (.regalloc .ulocals),
     .node (.regalloc .spills), .node (.regalloc .locate), .node (.regalloc .lambda),
     .node (.regalloc .registerConflict), .node (.regalloc .frameConflict),
     .node (.regalloc .newFrames), .node (.regalloc .callLive), .node (.regalloc .returnPoint),
     .node (.common .regalloc .block), .node (.common .regalloc .prim1),
     .node (.common .regalloc .prim2), .node (.common .regalloc .ifElse),
     .node (.regalloc .ifThen), .node (.common .regalloc .assign),
     .node (.common .regalloc .alloc), .node (.common .regalloc .mref),
     .node (.common .regalloc .mset), .node (.common .regalloc .symbol),
     .node (.common .regalloc .funcall), .node (.common .regalloc .int64),
     .node (.common .regalloc .bool), .node (.common .regalloc .nop)]
  | .asm =>
    [.node (.asm .reg), .node (.asm .imm), .node (.asm .label), .node (.asm .deref),
     .node (.asm .derefLabel), .node (.asm .derefRegister), .node (.asm .op2), .node (.asm .retq),
     .node (.asm .cfg), .node (.asm .jmp), .node (.asm .jmpIf), .node (.asm .prog),
     .node (.asm .push), .node (.asm .pop), .node (.asm .code)]

/-- The member of the vocabulary with that name. -/
def Family.head? (f : Family) (name : String) : Option Head :=
  f.vocabulary.find? fun h => h.name == name

/-- Looking a kind up by its name in its family finds that kind. -/
@[simp] theorem Family.head?_name (k : Kind) : k.family.head? k.name = some (.node k) := by
  rcases k with ⟨d, k⟩ | k | k | k
  · cases d <;> cases k <;> decide
  all_goals cases k <;> decide

end LoweringIR
