import LoweringIR.Text.Quoted

/-!
# Log records

What happens beside an answer is a list of records, in the order in which it happened. A function
that logs returns its records next to its result; nothing reads them back, so a record cannot
influence a result.
-/

namespace LoweringIR.Log

/-- How serious a record is. -/
inductive Level where
  | debug
  | info
  | warning
  | error
  | critical
deriving DecidableEq, Inhabited

namespace Level

/-- Every level, in ascending order. -/
def all : List Level := [.debug, .info, .warning, .error, .critical]

/-- The name of a level. -/
def name : Level → String
  | .debug => "DEBUG"
  | .info => "INFO"
  | .warning => "WARNING"
  | .error => "ERROR"
  | .critical => "CRITICAL"

/-- The rank by which a level is compared with a threshold. -/
def rank : Level → Nat
  | .debug => 10
  | .info => 20
  | .warning => 30
  | .error => 40
  | .critical => 50

end Level

/-- A record: its level, the part of the library that it comes from, and its text. -/
structure Record where
  level : Level
  logger : String
  message : String
deriving DecidableEq, Inhabited

/-- The capital letters of a character. Four characters beyond ASCII have capitals that can occur in
the names below. -/
def capitals (c : Char) : List Char :=
  if c = Char.ofNat 0x131 then ['I']
  else if c = Char.ofNat 0x17F then ['S']
  else if c = Char.ofNat 0xFB05 ∨ c = Char.ofNat 0xFB06 then ['S', 'T']
  else [c.toUpper]

/-- The thresholds that have a name. Two levels have a second one, and one threshold lets everything
through. -/
def thresholds : List (String × Nat) :=
  Level.all.map (fun l => (l.name, l.rank)) ++
    [("WARN", Level.warning.rank), ("FATAL", Level.critical.rank), ("NOTSET", 0)]

/-! ### Names that are no levels -/

/-- What goes by a name among the levels and is none. -/
inductive Unranked where
  /-- The format of a record. -/
  | format
  /-- The styles of formats. -/
  | styles
deriving DecidableEq, Inhabited

namespace Unranked

/-- Everything of that kind. -/
def all : List Unranked := [.format, .styles]

/-- The name it goes by. -/
def name : Unranked → String
  | .format => "BASIC_FORMAT"
  | .styles => "_STYLES"

/-- A mark for each style, the style, and the format of a record in it. -/
def styleTable : List (String × String × String) :=
  [("%", "logging.PercentStyle", "%(levelname)s:%(name)s:%(message)s"),
   ("\x7b", "logging.StrFormatStyle", "\x7blevelname\x7d:\x7bname\x7d:\x7bmessage\x7d"),
   ("$", "logging.StringTemplateStyle",
    "$\x7blevelname\x7d:$\x7bname\x7d:$\x7bmessage\x7d")]

/-- The wording of the fault of taking it for a level. A text is taken for the name of a level, and
anything else for a rank. -/
def message : Unranked → String
  | .format => "Unknown level: " ++ Text.quoted "%(levelname)s:%(name)s:%(message)s"
  | .styles =>
    let entries := styleTable.map fun (mark, style, layout) =>
      Text.quoted mark ++ ": (<class " ++ Text.quoted style ++ ">, " ++ Text.quoted layout ++ ")"
    "Level not an integer or a valid string: \x7b" ++ ", ".intercalate entries ++ "\x7d"

end Unranked

/-- The threshold that a text asks for, in capital or small letters. A text that names nothing asks
for warnings; one that names what is no level asks for something that cannot be had. -/
def threshold (s : String) : Except Unranked Nat :=
  let wanted := String.ofList (s.toList.flatMap capitals)
  match Unranked.all.find? fun u => u.name == wanted with
  | some u => .error u
  | none => .ok (((thresholds.find? fun t => t.1 == wanted).map Prod.snd).getD Level.warning.rank)

/-- The record is shown at this threshold. -/
def Record.isShown (threshold : Nat) (r : Record) : Bool := threshold ≤ r.level.rank

/-- A result, and the records on the way to it. -/
structure Logged (ε α : Type) where
  records : List Record
  result : Except ε α

namespace Logged

variable {ε ε' α β : Type}

/-- A result that nothing was logged on the way to. -/
def quiet (result : Except ε α) : Logged ε α := ⟨[], result⟩

/-- The same with another account of what went wrong. -/
def mapError (f : ε → ε') (l : Logged ε α) : Logged ε' α := ⟨l.records, l.result.mapError f⟩

/-- One thing after another. What follows a failure does not happen, and logs nothing. -/
def andThen (l : Logged ε α) (f : α → Logged ε β) : Logged ε β :=
  match l.result with
  | .error e => ⟨l.records, .error e⟩
  | .ok a => ⟨l.records ++ (f a).records, (f a).result⟩

end Logged

end LoweringIR.Log
