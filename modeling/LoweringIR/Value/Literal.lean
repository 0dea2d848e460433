import LoweringIR.Form
import LoweringIR.Number.Shortest
import LoweringIR.Text.Quoted
import LoweringIR.Value.Basic

/-!
# Literals

A message that says what it got shows the value as a literal. Literals tell apart what texts do not:
a text from a number, a list from a tuple, a node from the text it is written as. A node shows its
kind and every field by name, whatever the fields hold, so a literal exists for trees that have no
text.
-/

namespace LoweringIR

/-- Texts in brackets, with commas. -/
def listLiteral (items : List String) : String := "[" ++ Form.join items ", " ++ "]"

/-- Texts in parentheses, with commas. A single one is followed by a comma too. -/
def tupleLiteral : List String → String
  | [item] => "(" ++ item ++ ",)"
  | items => "(" ++ Form.join items ", " ++ ")"

/-- The literal of a truth value. -/
def boolLiteral (b : Bool) : String := if b then "True" else "False"

/-- A tuple of names. -/
def namesLiteral (ns : List String) : String := tupleLiteral (ns.map Text.quoted)

/-- A name with arguments by name. -/
def callLiteral (name : String) (arguments : List (String × String)) : String :=
  name ++ "(" ++ Form.join (arguments.map fun a => a.1 ++ "=" ++ a.2) ", " ++ ")"

/-- The literal of a closure record. -/
def Closure.literal (c : Closure) : String :=
  callLiteral "Closure" [("name", Text.quoted c.name), ("label", Text.quoted c.label),
    ("free", namesLiteral c.free)]

/-- The literal of a field, from the literals of its children. -/
def Field.literal : Field String → String
  | .name s => Text.quoted s
  | .flag b => boolLiteral b
  | .int64 n => toString n.toInt
  | .node t => t
  | .nodes ts => tupleLiteral ts
  | .names ns => namesLiteral ns
  | .nameSet ns => namesLiteral ns
  | .bindings es => tupleLiteral (es.map fun e => tupleLiteral [Text.quoted e.1, e.2])
  | .locations es =>
    tupleLiteral (es.map fun e => tupleLiteral [Text.quoted e.1, Text.quoted e.2])
  | .graph es =>
    tupleLiteral (es.map fun e => tupleLiteral [Text.quoted e.1, namesLiteral e.2])
  | .frames fs => tupleLiteral (fs.map namesLiteral)
  | .records rs => tupleLiteral (rs.map Closure.literal)

/-- The literal of a tree. -/
def Tree.literal : Tree → String :=
  fold (fun f _ => blankName f ++ "()") fun k fs =>
    callLiteral k.name ((k.schema.map Prod.fst).zip (fs.map Field.literal))

namespace Value

mutual

/-- The literal of a value. -/
def literal : Value → String
  | null => "None"
  | bool b => boolLiteral b
  | int n => toString n
  | float x => x.text
  | str s => Text.quoted s
  | bytes bs => Text.quotedBytes bs
  | list vs => listLiteral (literals vs)
  | tuple vs => tupleLiteral (literals vs)
  | stream _ vs => "<" ++ Form.join (literals vs) ", " ++ ">"
  | dict es => "\x7b" ++ Form.join (entryLiterals es) ", " ++ "\x7d"
  | node t => t.literal
  | record c => c.literal

/-- The literals of values. -/
def literals : List Value → List String
  | [] => []
  | v :: vs => literal v :: literals vs

/-- The literals of entries: a key, a colon, and a value. -/
def entryLiterals : List (Value × Value) → List String
  | [] => []
  | e :: es => (literal e.1 ++ ": " ++ literal e.2) :: entryLiterals es

end

/-- The name of the type of a value. -/
def typeName : Value → String
  | null => "NoneType"
  | bool _ => "bool"
  | int _ => "int"
  | float _ => "float"
  | str _ => "str"
  | bytes _ => "bytes"
  | list _ => "list"
  | tuple _ => "tuple"
  | stream _ _ => "list_iterator"
  | dict _ => "dict"
  | node t => t.headName
  | record _ => "Closure"

end Value

end LoweringIR
