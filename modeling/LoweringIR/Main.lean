import LoweringIR.Command.Run

/-!
# The command

Connects the command to the world: its disk, its two output streams, its environment and its exit
code.
-/

namespace LoweringIR.Main

/-- The fault behind an error of the system. A path goes wrong at a file where a directory is due,
or the other way round, and the system's code tells which. So it does where a name is too long. -/
def osFault : IO.Error → FileFault
  | .noFileOrDirectory .. => .missing
  | .inappropriateType _ code _ => if code = 20 then .notDirectory else .isDirectory
  | e@(.invalidArgument _ code _) => if code = 36 then .nameTooLong else .other (toString e)
  | e => .other (toString e)

/-- Runs an action on files. -/
def attempt {α : Type} (action : IO α) : IO (Except FileFault α) := do
  match ← action.toBaseIO with
  | .ok a => pure (.ok a)
  | .error e => pure (.error (osFault e))

/-- The disk. -/
def disk : Disk IO where
  read p := attempt do pure (← (← IO.FS.Handle.mk p.text .read).readBinToEnd).toList
  write p bytes := attempt (IO.FS.writeBinFile p.text bytes.toByteArray)

/-- When a record was made, in milliseconds. -/
def stamp : IO String := do pure (toString (← IO.monoMsNow))

end LoweringIR.Main

open LoweringIR in
/-- Runs the command on the arguments of the program. -/
def main (arguments : List String) : IO UInt32 := do
  let level? ← IO.getEnv "SCHEMEC_LOG"
  let outcome ← Command.run Main.disk level? arguments
  let stamp ← Main.stamp
  let stderr ← IO.getStderr
  for notice in outcome.notices do
    match notice with
    | .usage _ => stderr.putStr Command.usage
    | _ => pure ()
    stderr.putStrLn (notice.line stamp)
  (← IO.getStdout).putStr outcome.printed
  pure (UInt32.ofNat outcome.exit)
