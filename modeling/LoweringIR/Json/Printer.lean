import LoweringIR.Json.Basic
import LoweringIR.Number.Shortest
import LoweringIR.Text.Quoted

/-!
# Writing a document

A document is written in visible ASCII, two blanks deeper for every container, one item or member a
line. An empty container stays on its line. Any other character in a string is escaped: by a letter
if it has one, and else by its sixteen-bit units, of which a character beyond the sixteen-bit range
has two.
-/

namespace LoweringIR.Json

/-- The escape of one sixteen-bit unit. -/
def escapeUnit (u : Nat) : List Char := '\\' :: 'u' :: Text.hexDigits 4 u

/-- A character inside a string. -/
def escapeChar (c : Char) : List Char :=
  let n := c.toNat
  if c = '\x22' then ['\\', c]
  else if c = '\\' then ['\\', c]
  else if c = '\n' then ['\\', 'n']
  else if c = '\r' then ['\\', 'r']
  else if c = '\t' then ['\\', 't']
  else if n = 0x08 then ['\\', 'b']
  else if n = 0x0C then ['\\', 'f']
  else if 0x20 ≤ n ∧ n < 0x7F then [c]
  else if n < 0x10000 then escapeUnit n
  else escapeUnit (0xD800 + (n - 0x10000) / 0x400) ++ escapeUnit (0xDC00 + (n - 0x10000) % 0x400)

/-- A string in its marks. -/
def stringText (s : String) : String :=
  String.ofList ('\x22' :: s.toList.flatMap escapeChar ++ ['\x22'])

/-- A double. The words for the values that are no numbers are those that reading takes. -/
def floatText : Binary64 → String
  | .nan => "NaN"
  | .infinite s => if s then "-Infinity" else "Infinity"
  | x => x.text

/-- The start of a line at a depth. -/
def lineStart (level : Nat) : String := String.ofList ('\n' :: List.replicate (2 * level) ' ')

/-- A container of lines, each at `level + 1`. -/
def enclose (opening closing : String) (level : Nat) : List String → String
  | [] => opening ++ closing
  | lines =>
    let start := lineStart (level + 1)
    opening ++ start ++ ("," ++ start).intercalate lines ++ lineStart level ++ closing

mutual

/-- The text of a value that stands at a depth. -/
def textAt (level : Nat) : Json → String
  | .null => "null"
  | .bool b => if b then "true" else "false"
  | .int n => toString n
  | .float x => floatText x
  | .str s => stringText s
  | .arr items => enclose "[" "]" level (itemTexts (level + 1) items)
  | .obj members => enclose "\x7b" "\x7d" level (memberTexts (level + 1) members)

/-- The texts of items. -/
def itemTexts (level : Nat) : List Json → List String
  | [] => []
  | j :: js => textAt level j :: itemTexts level js

/-- The texts of members. -/
def memberTexts (level : Nat) : List (String × Json) → List String
  | [] => []
  | m :: ms => (stringText m.1 ++ ": " ++ textAt level m.2) :: memberTexts level ms

end

/-- The text of a document. -/
def text (j : Json) : String := textAt 0 j

end LoweringIR.Json
