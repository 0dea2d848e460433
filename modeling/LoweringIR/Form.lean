import LoweringIR.Arrangement

/-!
# Text forms

Two shapes make up every text: a run of items with a separator between them, and an annotation
around the text of a tail. A conflict graph is an annotation whose items are its entries.
-/

namespace LoweringIR.Form

/-- Items with a separator between them. -/
def join (items : List String) (separator : String) : String := separator.intercalate items

/-- An annotation: `(name (items)`, a new line, two blanks, and the tail. -/
def wrap (name : String) (items : List String) (separator tail : String) : String :=
  "(" ++ name ++ " (" ++ join items separator ++ ")\n  " ++ tail ++ ")"

/-- An entry of a conflict graph: a variable and the names it conflicts with. -/
def conflictEntry (variableName : String) (conflicts : List String) : String :=
  "(" ++ variableName ++ " \x7b" ++ join conflicts " " ++ "\x7d)"

/-- A conflict graph around a tail. -/
def conflictGraph (name : String) (graph : List (String × List String)) (tail : String)
    (arrangement : Arrangement) : String :=
  wrap name ((arrangement.graph graph).map fun e => conflictEntry e.1 e.2) " " tail

@[simp] theorem join_nil (separator : String) : join [] separator = "" := by
  simp [join]

@[simp] theorem join_singleton (item separator : String) : join [item] separator = item := by
  simp [join]

end LoweringIR.Form
