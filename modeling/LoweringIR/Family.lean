/-!
# Tree families

A program passes through three forms on its way down: the high-level form after closure conversion,
the form that registers are allocated in, and assembly. Trees of different forms never mix, so every
kind of node belongs to exactly one family.

The first two are dialects of one expression language and share many kinds; assembly stands apart.
-/

namespace LoweringIR

/-- A form of the program. -/
inductive Family where
  | scheme
  | regalloc
  | asm
deriving DecidableEq, Inhabited

namespace Family

/-- The families in the order of lowering. -/
def all : List Family := [.scheme, .regalloc, .asm]

/-- The name of a family. -/
def name : Family → String
  | .scheme => "scheme"
  | .regalloc => "regalloc"
  | .asm => "asm"

/-- The family of that name. -/
def ofName? (s : String) : Option Family := all.find? fun f => f.name == s

/-- What a node of the family is called in messages. -/
def nodeName : Family → String
  | .scheme => "SchemeNode"
  | .regalloc => "ExprNode"
  | .asm => "AsmNode"

@[simp] theorem ofName?_name (f : Family) : ofName? f.name = some f := by
  cases f <;> decide

end Family

/-- A dialect of the expression language. -/
inductive Dialect where
  | scheme
  | regalloc
deriving DecidableEq, Inhabited

/-- The family of a dialect. -/
def Dialect.family : Dialect → Family
  | .scheme => .scheme
  | .regalloc => .regalloc

end LoweringIR
