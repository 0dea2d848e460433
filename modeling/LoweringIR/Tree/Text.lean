import LoweringIR.Form
import LoweringIR.Label.Mangle
import LoweringIR.Tree.Basic

/-!
# The text of a node

Writing a node is separated into two steps that do not know of each other. `Field.arrange` puts the
unordered collections of its fields into an arrangement, whatever the kind; `Kind.write` writes the
fields as they stand, whatever the arrangement. In both, the places of children hold *parts*: what a
parent may know of a child, which is its role and its text. The name of a binding and the text of
the value bound to it are one entry, so arranging the entries cannot separate them.

`Tree.text` puts the two steps together over a whole tree. A blank has no text, and a tree that
holds one has none either.
-/

namespace LoweringIR

/-! ### Arranging fields -/

/-- Lays out the unordered collection of a field. -/
def Field.arrange {α : Type} (a : Arrangement) : Field α → Field α
  | .nameSet ns => .nameSet (a.names ns)
  | .bindings es => .bindings (a.entries es)
  | .locations es => .locations (a.entries es)
  | .graph es => .graph (a.graph es)
  | .frames fs => .frames (a.frames fs)
  | x => x

/-! ### Writing fields -/

/-- What the text of a parent depends on: the role of a child and its text. -/
abbrev Part := Tree.Role × String

/-- The texts of all children of a node. -/
def childTexts (fs : List (Field Part)) : List String :=
  (fs.flatMap Field.children).map Prod.snd

/-- A word and its operands in parentheses. Without operands the blank after the word stays. -/
def phrase (word : String) (operands : List String) : String :=
  "(" ++ word ++ " " ++ Form.join operands " " ++ ")"

/-- Names in an annotation around a tail. -/
def writeNames (word : String) : List (Field Part) → String
  | [.nameSet ns, .node tail] => Form.wrap word ns " " tail.2
  | [.names ns, .node tail] => Form.wrap word ns " " tail.2
  | _ => ""

/-- An operator applied to operands. -/
def writeOperation : List (Field Part) → String
  | .name op :: operands => phrase op (childTexts operands)
  | _ => ""

/-- The text of a node of a common kind. -/
def CommonKind.write (k : CommonKind) (fs : List (Field Part)) : String :=
  match k with
  | .locals => writeNames "locals" fs
  | .block => "(begin \n" ++ Form.join ((childTexts fs).map fun t => "  " ++ t) "\n" ++ ")"
  | .assign => phrase "set!" (childTexts fs)
  | .prim1 => writeOperation fs
  | .prim2 => writeOperation fs
  | .ifElse => phrase "if" (childTexts fs)
  | .alloc => phrase "alloc" (childTexts fs)
  | .mref => phrase "mref" (childTexts fs)
  | .mset => phrase "mset!" (childTexts fs)
  | .funcall => match childTexts fs with
    | func :: args => phrase func args
    | [] => ""
  | .symbol => match fs with
    | [.name s] => s
    | _ => ""
  | .int64 => match fs with
    | [.int64 n] => toString n.toInt
    | _ => ""
  | .bool => match fs with
    | [.flag b] => if b then "(true)" else "(false)"
    | _ => ""
  | .nop => "(nop)"

/-- A closure record. Without free variables the blank after the label stays. -/
def Closure.text (c : Closure) : String :=
  "[" ++ c.name ++ " " ++ c.label ++ " " ++ Form.join c.free " " ++ "]"

/-- The entries of a binding list. -/
def bindingTexts (es : List (String × Part)) : List String :=
  es.map fun e => "[" ++ e.1 ++ " " ++ e.2.2 ++ "]"

/-- The text of a node of the high-level form. -/
def SchemeKind.write (k : SchemeKind) (fs : List (Field Part)) : String :=
  match k with
  | .letrec => match fs with
    | [.bindings es, .node body] =>
      "(letrec (" ++ Form.join (bindingTexts es) "\n" ++ ")\n " ++ body.2 ++ ")"
    | _ => ""
  | .assigned => writeNames "assigned" fs
  | .lambda => match fs with
    | [.names args, .node body] => "(lambda (" ++ Form.join args " " ++ ") " ++ body.2 ++ ")"
    | _ => ""
  | .free => writeNames "free" fs
  | .bindFree => writeNames "bind-free" fs
  | .closures => match fs with
    | [.records rs, .node tail] =>
      "(closures (" ++ Form.join (rs.map Closure.text) " " ++ ")\n" ++ tail.2 ++ ")"
    | _ => ""
  | .letIn => match fs with
    | [.bindings es, .node tail] =>
      "(let (" ++ Form.join (bindingTexts es) " " ++ ")\n " ++ tail.2 ++ ")"
    | _ => ""
  | .prim3 => writeOperation fs
  | .quote => match fs with
    | [.node (.truth b, _)] => if b then "'#t" else "'#f"
    | [.node datum] => "'" ++ datum.2
    | _ => ""
  | .literalList => "(" ++ Form.join (childTexts fs) " " ++ ")"
  | .literalVector => "#(" ++ Form.join (childTexts fs) " " ++ ")"
  | .emptyList => "()"
  | .void => "(void)"

/-- The text of a node of the register-allocation form. -/
def RegallocKind.write (k : RegallocKind) (fs : List (Field Part)) : String :=
  match k with
  | .letrec => match fs with
    | [.nodes lambdas, .node body] => Form.wrap "letrec" (lambdas.map Prod.snd) "\n" body.2
    | _ => ""
  | .ulocals => writeNames "ulocals" fs
  | .spills => writeNames "spills" fs
  | .locate => match fs with
    | [.locations es, .node tail] =>
      "(locate (" ++ Form.join (es.map fun e => "(" ++ e.1 ++ " " ++ e.2 ++ ")") " " ++ ")\n " ++
        tail.2 ++ ")"
    | _ => ""
  | .lambda => match fs with
    | [.name label, .names args, .node body] =>
      "(" ++ label ++ " (lambda (" ++ Form.join args " " ++ ") " ++ body.2 ++ "))"
    | _ => ""
  | .registerConflict => match fs with
    | [.graph g, .node tail] => Form.conflictGraph "register-conflict" g tail.2 .insertion
    | _ => ""
  | .frameConflict => match fs with
    | [.graph g, .node tail] => Form.conflictGraph "frame-conflict" g tail.2 .insertion
    | _ => ""
  | .newFrames => match fs with
    | [.frames frames, .node tail] =>
      "(new-frames (" ++ Form.join (frames.map fun ns => "(" ++ Form.join ns " " ++ ")") " " ++
        ") " ++ tail.2 ++ ")"
    | _ => ""
  | .callLive => writeNames "call-live" fs
  | .returnPoint => match fs with
    | [.name label, .node expr] => phrase "return-point" [label, expr.2]
    | _ => ""
  | .ifThen => phrase "if" (childTexts fs)

/-- The operand of a jump: a label is jumped to directly, anything else through its value. -/
def jumpOperand (target : Part) : String :=
  match target.1 with
  | .label => target.2
  | _ => "*" ++ target.2

/-- The text of an assembly node. An instruction is a line of its own that begins with a tab. -/
def AsmKind.write (k : AsmKind) (fs : List (Field Part)) : String :=
  match k with
  | .reg => match fs with
    | [.name n] => "%" ++ n
    | _ => ""
  | .imm => match fs with
    | [.int64 n] => "$" ++ toString n.toInt
    | _ => ""
  | .label => match fs with
    | [.name n] => Label.mangle n
    | _ => ""
  | .deref => match fs with
    | [.node base, .int64 offset] => toString offset.toInt ++ "(" ++ base.2 ++ ")"
    | _ => ""
  | .derefLabel => match fs with
    | [.node base, .node offset] => offset.2 ++ "(" ++ base.2 ++ ")"
    | _ => ""
  | .derefRegister => match fs with
    | [.node base, .node index] => "(" ++ base.2 ++ "," ++ index.2 ++ ")"
    | _ => ""
  | .op2 => match fs with
    | [.name mnemonic, .node src, .node dst] =>
      "\t" ++ mnemonic ++ " " ++ src.2 ++ ", " ++ dst.2 ++ "\n"
    | _ => ""
  | .retq => "\tretq\n"
  | .cfg => match fs with
    | [.name heading, .nodes instrs] =>
      Label.mangle heading ++ ":\n" ++ Form.join (instrs.map Prod.snd) ""
    | _ => ""
  | .jmp => match fs with
    | [.node target] => "\tjmp " ++ jumpOperand target ++ "\n"
    | _ => ""
  | .jmpIf => match fs with
    | [.name cc, .node target] => "\tj" ++ cc ++ " " ++ jumpOperand target ++ "\n"
    | _ => ""
  | .prog => Form.join ((childTexts fs).map fun t => t ++ "\n") ""
  | .push => match fs with
    | [.node operand] => "\tpushq " ++ operand.2 ++ "\n"
    | _ => ""
  | .pop => match fs with
    | [.node operand] => "\tpopq " ++ operand.2 ++ "\n"
    | _ => ""
  | .code => Form.join (childTexts fs) ""

/-- The text of a node whose fields are laid out. Fields that do not fit the kind have no text. -/
def Kind.write : Kind → List (Field Part) → String
  | .common _ k => k.write
  | .scheme k => k.write
  | .regalloc k => k.write
  | .asm k => k.write

end LoweringIR
