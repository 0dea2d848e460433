import LoweringIR.Arrangement
import LoweringIR.Command.Word
import LoweringIR.Disk.Path
import LoweringIR.Text.Quoted

/-!
# Reading the arguments

Once every argument has its role, the arguments take effect from the left. An option takes the value
that is attached to it or else the one right behind it, the first value between options is the
input, and every other argument is left over. An option that comes again has the last word.

The mark is never a value. An option that it is attached to is used, but has no value then, and that
is no fault before the value is needed.

Asking for help ends the reading at once, and so does a fault of an option. Only at the end is it a
fault that there is no input, or that something is left over.
-/

namespace LoweringIR.Command

/-- What an option that takes a value asks for. -/
inductive Choice (α : Type) where
  /-- The option is not used. -/
  | unused
  /-- The option is used without a value. -/
  | noValue
  /-- The option is used with this value. -/
  | given (value : α)
deriving DecidableEq, Inhabited

/-- What an option is used with. -/
def Choice.ofValue? {α : Type} : Option α → Choice α
  | none => .noValue
  | some value => .given value

/-- What the options ask for. -/
structure Choices where
  output : Choice Path := .unused
  ordering : Choice Arrangement := .unused
  checkLabels : Bool := false
  logLevel : Choice String := .unused
deriving DecidableEq, Inhabited

/-- What the arguments ask for: an input, and what to do with it. -/
structure Options extends Choices where
  input : Path
deriving DecidableEq, Inhabited

/-- What the command is asked for. -/
inductive Request where
  | help
  | render (options : Options)
deriving DecidableEq, Inhabited

/-- Why arguments ask for nothing that could be done. -/
inductive UsageFault where
  /-- An option is cut so short that it could be several. -/
  | ambiguous (fault : Word.Ambiguity)
  /-- An option has no value. -/
  | missingValue (setting : Setting)
  /-- An option has a value although it takes none. -/
  | unusedValue (switch : Switch) (value : String)
  /-- The value of the ordering is none of its choices. -/
  | invalidOrdering (value : String)
  /-- There is no input. -/
  | missingInput
  /-- There are arguments that nothing takes. -/
  | leftOver (arguments : List String)
deriving DecidableEq, Inhabited

/-- The wording of a fault. -/
def UsageFault.message : UsageFault → String
  | .ambiguous f =>
    "ambiguous option: " ++ f.argument ++ " could match " ++
      ", ".intercalate (f.candidates.map Flag.long)
  | .missingValue s => "argument " ++ (Flag.setting s).name ++ ": expected one argument"
  | .unusedValue s value =>
    "argument " ++ (Flag.switch s).name ++ ": ignored explicit argument " ++ Text.quoted value
  | .invalidOrdering value =>
    "argument " ++ (Flag.setting .ordering).name ++ ": invalid choice: " ++ Text.quoted value ++
      " (choose from " ++ ", ".intercalate (Arrangement.all.map fun a => Text.quoted a.name) ++ ")"
  | .missingInput => "the following arguments are required: input"
  | .leftOver arguments => "unrecognized arguments: " ++ " ".intercalate arguments

/-! ### Uses of options -/

/-- An option with the value that it is used with, if it has one. -/
inductive Use where
  | on (s : Switch)
  | set (s : Setting) (value? : Option String)
deriving DecidableEq, Inhabited

/-- An option with a text attached to it. -/
def Use.attached (s : Setting) (text : List Char) : Use :=
  let value := String.ofList text
  .set s (if value = Word.markText then none else some value)

/-- What one argument uses: options that are complete, and one whose value is still due. -/
structure Uses where
  complete : List Use
  due : Option Setting
deriving DecidableEq, Inhabited

namespace Uses

/-- The uses of letters that stand behind a switch. The letter of a switch can be followed by more
letters, the letter of a setting by its value. -/
def ofLetters (s : Switch) : List Char → Except UsageFault Uses
  | [] => .ok ⟨[.on s], none⟩
  | c :: cs =>
    match Flag.ofLetter? c with
    | none => .error (.unusedValue s (String.ofList (c :: cs)))
    | some (.switch next) => do
      let us ← ofLetters next cs
      pure { us with complete := .on s :: us.complete }
    | some (.setting t) =>
      if cs = [] then .ok ⟨[.on s], some t⟩
      else .ok ⟨[.on s, .attached t cs], none⟩

/-- The uses of an option and of what is attached to it. -/
def ofFlag : Flag → Bool → Option (List Char) → Except UsageFault Uses
  | .setting s, _, none => .ok ⟨[], some s⟩
  | .setting s, _, some cs => .ok ⟨[.attached s cs], none⟩
  | .switch s, _, none => .ok ⟨[.on s], none⟩
  | .switch s, short, some cs =>
    if short && !cs.isEmpty then ofLetters s cs
    else .error (.unusedValue s (String.ofList cs))

end Uses

/-! ### Reading -/

/-- How far the arguments have been read. -/
structure Reading extends Choices where
  input? : Option Path := none
  extras : List String := []
deriving DecidableEq, Inhabited

/-- What ends the reading early. -/
inductive Stop where
  | help
  | fault (fault : UsageFault)
deriving DecidableEq, Inhabited

namespace Reading

/-- An option takes effect. -/
def use (r : Reading) : Use → Except Stop Reading
  | .on .help => .error .help
  | .on .checkLabels => .ok { r with checkLabels := true }
  | .set .output value? => .ok { r with output := .ofValue? (value?.map Path.ofText) }
  | .set .ordering none => .ok { r with ordering := .noValue }
  | .set .ordering (some value) =>
    match Arrangement.ofName? value with
    | some a => .ok { r with ordering := .given a }
    | none => .error (.fault (.invalidOrdering value))
  | .set .logLevel value? => .ok { r with logLevel := .ofValue? value? }

/-- Options take effect one after another. -/
def useAll (r : Reading) (us : List Use) : Except Stop Reading := us.foldlM use r

/-- An argument is left over. -/
def leave (r : Reading) (text : String) : Reading := { r with extras := r.extras ++ [text] }

/-- The first value is the input, others are left over. -/
def take (r : Reading) (text : String) : Reading :=
  match r.input? with
  | none => { r with input? := some (Path.ofText text) }
  | some _ => r.leave text

/-- The arguments take effect. The mark is left over where the input has been read before what is
right in front of it. -/
def run (r : Reading) : List Word → Except Stop Reading
  | [] => .ok r
  | .unknown s :: ws => run (r.leave s) ws
  | .value s :: .mark :: ws =>
    match r.input? with
    | none => run (r.take s) ws
    | some _ => run ((r.leave s).leave Word.markText) ws
  | .value s :: ws => run (r.take s) ws
  | .mark :: ws =>
    match r.input? with
    | none => run r ws
    | some _ => run (r.leave Word.markText) ws
  | .option f short attached :: ws =>
    match Uses.ofFlag f short attached with
    | .error e => .error (.fault e)
    | .ok ⟨us, none⟩ =>
      match r.useAll us with
      | .error stop => .error stop
      | .ok r => run r ws
    | .ok ⟨us, some s⟩ =>
      match ws with
      | .value value :: ws =>
        match r.useAll (us ++ [.set s (some value)]) with
        | .error stop => .error stop
        | .ok r => run r ws
      | _ => .error (.fault (.missingValue s))

/-- What has been read, once nothing is left. -/
def finish (r : Reading) : Except UsageFault Options :=
  match r.input?, r.extras with
  | none, _ => .error .missingInput
  | some input, [] => .ok { r.toChoices with input }
  | some _, extras => .error (.leftOver extras)

end Reading

/-- What the arguments ask for. -/
def Request.ofArguments (arguments : List String) : Except UsageFault Request :=
  match Word.ofTexts arguments with
  | .error e => .error (.ambiguous e)
  | .ok ws =>
    match Reading.run {} ws with
    | .error .help => .ok .help
    | .error (.fault e) => .error e
    | .ok r => r.finish.map .render

end LoweringIR.Command
