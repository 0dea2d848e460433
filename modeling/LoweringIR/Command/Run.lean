import LoweringIR.Command.Help
import LoweringIR.Command.Options
import LoweringIR.Disk.Basic
import LoweringIR.Document
import LoweringIR.Label.Check
import LoweringIR.Value.Form

/-!
# A run of the command

A run reads one document, renders its tree, and prints the text or writes it to a file. The whole
text is there before anything is printed or written, and writing is the last thing that can fail, so
a run that fails has printed nothing and changed no file.

Rendering is a function of the options and of what reading gave: it has no access to the disk. What
was logged is kept apart from what came out, and the level that was asked for decides at the very
end which records are shown; nothing else depends on it, as long as there is such a level.
-/

namespace LoweringIR.Command

/-! ### Rendering -/

/-- Why a run has no text. -/
inductive Fault where
  /-- A file cannot be opened. -/
  | file (path : Path) (fault : FileFault)
  /-- The input is no document of a tree. -/
  | document (fault : Document.LoadFault)
  /-- Labels are to be checked, and the tree is no program. -/
  | notAssembly
  /-- The ordering is none that texts can have. -/
  | ordering (fault : ArrangementFault)
  /-- The tree has no text. -/
  | emission (fault : Label.EmitFault)
  /-- The value of an option is needed, and it has none. -/
  | noValue (setting : Setting)
  /-- The level of the log is none. -/
  | level (got : Log.Unranked)
deriving Inhabited

/-- The wording of a fault. -/
def Fault.message : Fault → String
  | .file path fault => fault.message path
  | .document fault => fault.message
  | .notAssembly => "--check-labels only applies to asm trees"
  | .ordering fault => fault.message
  | .emission fault => fault.message
  | .noValue setting => (UsageFault.missingValue setting).message
  | .level got => got.message

/-- The arrangement that is asked for. An ordering without a value asks for the empty list. -/
def Choices.arrangement (o : Choices) : Except ArrangementFault Arrangement :=
  match o.ordering with
  | .unused => .ok .sorted
  | .noValue => Arrangement.ofValue (.list [])
  | .given a => .ok a

/-- The text of a tree. Only programs can be checked, and a checked one is emitted for the
assembler, whatever arrangement is asked for. -/
def text (o : Choices) (t : Tree) : Log.Logged Fault String :=
  if o.checkLabels then
    if t.family? = some .asm then (Label.emit true t).mapError .emission
    else .quiet (.error .notAssembly)
  else .quiet do
    let a ← o.arrangement.mapError .ordering
    (t.render a).mapError fun e => .emission (.blank e)

/-- The text that a run is to deliver, from what reading its input gave. -/
def rendering (o : Options) (input : Except FileFault (List UInt8)) : Log.Logged Fault String :=
  match input with
  | .error e => .quiet (.error (.file o.input e))
  | .ok bytes =>
    ((Document.load o.input.text bytes).mapError .document).andThen (text o.toChoices)

/-! ### Outcomes -/

/-- What the error stream shows. -/
inductive Notice where
  /-- A record of the log. -/
  | record (r : Log.Record)
  /-- What a run failed for. -/
  | fault (fault : Fault)
  /-- Why the arguments were of no use. -/
  | usage (fault : UsageFault)
deriving Inhabited

namespace Notice

/-- The notice is shown where the log has this threshold. Only records can be held back. -/
def isShown (threshold : Nat) : Notice → Bool
  | .record r => r.isShown threshold
  | _ => true

/-- The line of a notice. `stamp` says when a record was made. -/
def line (stamp : String) : Notice → String
  | .record r => stamp ++ " " ++ r.level.name ++ " " ++ r.logger ++ ": " ++ r.message
  | .fault .notAssembly => Fault.notAssembly.message
  | .fault f => name ++ ": " ++ f.message
  | .usage f => name ++ ": error: " ++ f.message

end Notice

/-- How a run ends: its exit code, what it printed, and what the error stream shows. -/
structure Outcome where
  exit : Nat
  printed : String
  notices : List Notice
deriving Inhabited

namespace Outcome

/-- Where the records of this module come from. -/
def logger : String := "schemec.cli"

/-- A run that failed. A tree of the wrong family, an option without a value and a level that is
none are mistakes of the caller and go unrecorded. -/
def failed (records : List Log.Record) (f : Fault) : Outcome :=
  let failure : List Log.Record := match f with
    | .notAssembly => []
    | .noValue _ => []
    | .level _ => []
    | _ => [⟨.debug, logger, "render failed"⟩]
  ⟨1, "", (records ++ failure).map .record ++ [.fault f]⟩

/-- A text as it is printed: its last line is ended. -/
def ended (s : String) : String :=
  if s.toList.getLast? = some '\n' then s else s ++ "\n"

/-- A run that printed its text. -/
def printing (records : List Log.Record) (s : String) : Outcome :=
  ⟨0, ended s, records.map .record⟩

/-- A run that wrote its text to a file. -/
def writing (records : List Log.Record) (p : Path) (s : String) : Outcome :=
  let done : Log.Record :=
    ⟨.info, logger, "wrote " ++ p.text ++ " (" ++ toString s.length ++ " bytes)"⟩
  ⟨0, "Wrote " ++ p.text ++ "\n", (records ++ [done]).map .record⟩

/-- A run that was asked for nothing it could do. -/
def misused (f : UsageFault) : Outcome := ⟨2, "", [.usage f]⟩

/-- A run that was asked for help. -/
def helping : Outcome := ⟨0, help, []⟩

/-- What is left of an outcome where the log has this threshold. -/
def showing (threshold : Nat) (o : Outcome) : Outcome :=
  { o with notices := o.notices.filter (Notice.isShown threshold) }

end Outcome

/-! ### Running -/

section

variable {m : Type → Type} [Monad m]

/-- Delivers a rendering: writes it to the file that was asked for, or prints it. -/
def deliver (disk : Disk m) (output : Choice Path) (r : Log.Logged Fault String) : m Outcome :=
  match r.result, output with
  | .error f, _ => pure (.failed r.records f)
  | .ok s, .unused => pure (.printing r.records s)
  | .ok _, .noValue => pure (.failed r.records (.noValue .output))
  | .ok s, .given p => do
    match ← disk.write p (Text.Utf8.encode s) with
    | .error e => pure (.failed r.records (.file p e))
    | .ok () => pure (.writing r.records p s)

/-- A run with every record. -/
def perform (disk : Disk m) (o : Options) : m Outcome := do
  let input ← disk.read o.input
  deliver disk o.output (rendering o input)

/-- The level that is asked for where neither an option nor the environment names one. -/
def defaultLevel : String := "WARNING"

/-- The level of the log that is asked for, an option coming before the environment. -/
def Choices.level (o : Choices) (level? : Option String) : Except Fault String :=
  match o.logLevel with
  | .unused => .ok (level?.getD defaultLevel)
  | .noValue => .error (.noValue .logLevel)
  | .given level => .ok level

/-- The threshold of the log that is asked for. -/
def Choices.threshold (o : Choices) (level? : Option String) : Except Fault Nat := do
  let level ← o.level level?
  (Log.threshold level).mapError .level

/-- A run of the command on its arguments. `level?` is the level that the environment asks for. -/
def run (disk : Disk m) (level? : Option String) (arguments : List String) : m Outcome :=
  match Request.ofArguments arguments with
  | .error f => pure (.misused f)
  | .ok .help => pure .helping
  | .ok (.render o) =>
    match o.threshold level? with
    | .error f => pure (.failed [] f)
    | .ok threshold => do
      let outcome ← perform disk o
      pure (outcome.showing threshold)

end

end LoweringIR.Command
