import LoweringIR.Text.Digit

/-!
# The roles of arguments

Before any argument takes effect, each gets its role: it is an option, or a value, or the mark after
which all others are values. The role depends on the text of the argument and on the mark alone, so
a text that looks like an option is one even where a value is due.

A long option may be cut short as long as one option alone begins so, and may have its value behind
an equals sign. A short one may have its value right behind it, with an equals sign or without. What
looks like an option and is none is left over, unless it is a negative number or has a blank in it;
then it is a value.
-/

namespace LoweringIR.Command

/-! ### Options -/

/-- The options that stand alone. -/
inductive Switch where
  | help
  | checkLabels
deriving DecidableEq, Inhabited

/-- The options that take a value. -/
inductive Setting where
  | output
  | ordering
  | logLevel
deriving DecidableEq, Inhabited

/-- The options. -/
inductive Flag where
  | switch (s : Switch)
  | setting (s : Setting)
deriving DecidableEq, Inhabited

namespace Flag

/-- The options, in the order in which they are offered. -/
def all : List Flag :=
  [.switch .help, .setting .output, .setting .ordering, .switch .checkLabels, .setting .logLevel]

/-- The letter of an option that has a short spelling. -/
def letter? : Flag → Option Char
  | .switch .help => some 'h'
  | .setting .output => some 'o'
  | _ => none

/-- The long spelling of an option. -/
def long : Flag → String
  | .switch .help => "--help"
  | .setting .output => "--output"
  | .setting .ordering => "--ordering"
  | .switch .checkLabels => "--check-labels"
  | .setting .logLevel => "--log-level"

/-- What messages call an option. -/
def name (f : Flag) : String :=
  match f.letter? with
  | some c => String.ofList ['-', c, '/'] ++ f.long
  | none => f.long

/-- The option with that letter. -/
def ofLetter? (c : Char) : Option Flag := all.find? fun f => f.letter? == some c

/-- The options whose long spelling begins so. -/
def beginningWith (cs : List Char) : List Flag := all.filter fun f => cs.isPrefixOf f.long.toList

end Flag

/-! ### Roles -/

/-- An argument in its role. -/
inductive Word where
  /-- An argument that is no option. -/
  | value (text : String)
  /-- The mark after which there are no options. -/
  | mark
  /-- An option, and the value that is attached to it. Behind a short spelling, more options can
  stand where a value would. -/
  | option (flag : Flag) (short : Bool) (attached : Option (List Char))
  /-- An argument that looks like an option and is none. -/
  | unknown (text : String)
deriving DecidableEq, Inhabited

namespace Word

/-- The spelling of the mark. -/
def markText : String := "--"

/-- What is in front of the first equals sign, and what is behind it if there is one. -/
def splitEquals (cs : List Char) : List Char × Option (List Char) :=
  match cs.dropWhile fun c => c ≠ '=' with
  | [] => (cs, none)
  | _ :: attached => (cs.takeWhile fun c => c ≠ '=', some attached)

/-- One digit or more. A line end behind them does not count. -/
def isNumeral (cs : List Char) : Bool :=
  let rest := cs.dropWhile Text.isDigit
  rest.length < cs.length && (rest.isEmpty || rest == ['\n'])

/-- A negative number: whole, or with a point, in front of which there need not be a digit. -/
def isNegativeNumber : List Char → Bool
  | '-' :: cs =>
    isNumeral cs || match cs.dropWhile Text.isDigit with
      | '.' :: fraction => isNumeral fraction
      | _ => false
  | _ => false

/-- What an argument is that looks like an option and is none. -/
def ofStray (s : String) : Word :=
  if isNegativeNumber s.toList || s.toList.contains ' ' then .value s else .unknown s

/-- What is attached to the letter of a short option. -/
def attachedToLetter : List Char → Option (List Char)
  | [] => none
  | '=' :: cs => some cs
  | cs => some cs

/-- An argument that could be cut short from several options. -/
structure Ambiguity where
  argument : String
  candidates : List Flag
deriving DecidableEq, Inhabited

/-- The role of an argument in front of the mark. -/
def ofText (s : String) : Except Ambiguity Word :=
  if s = markText then .ok .mark
  else match s.toList with
    | '-' :: '-' :: _ =>
      let (spelling, attached) := splitEquals s.toList
      match Flag.beginningWith spelling with
      | [] => .ok (ofStray s)
      | [f] => .ok (.option f false attached)
      | fs => .error ⟨s, fs⟩
    | '-' :: c :: rest =>
      match Flag.ofLetter? c with
      | some f => .ok (.option f true (attachedToLetter rest))
      | none => .ok (ofStray s)
    | _ => .ok (.value s)

/-- The roles of the arguments. -/
def ofTexts : List String → Except Ambiguity (List Word)
  | [] => .ok []
  | s :: ss => do
    match ← ofText s with
    | .mark => pure (.mark :: ss.map .value)
    | w => pure (w :: (← ofTexts ss))

end Word

end LoweringIR.Command
