import LoweringIR.Disk.Path
import LoweringIR.Text.Quoted

/-!
# Disks

Documents are read from files and written to files, and so is text. That is all that is needed of
the world, and `Disk` is that much of it, in whatever monad the world lives in.
-/

namespace LoweringIR

/-- Why a file cannot be opened. -/
inductive FileFault where
  /-- A part of the path does not exist. -/
  | missing
  /-- A part of the path that others follow is a file. -/
  | notDirectory
  /-- The path leads to a directory. -/
  | isDirectory
  /-- The path holds a character that no path can hold. -/
  | nullByte
  /-- The path or a part of it is longer than any can be. -/
  | nameTooLong
  /-- The system has another reason, in its own words. -/
  | other (reason : String)
deriving DecidableEq, Inhabited

/-- The wording of a fault at a path. -/
def FileFault.message (p : Path) : FileFault → String
  | missing => "[Errno 2] No such file or directory: " ++ Text.quoted p.text
  | notDirectory => "[Errno 20] Not a directory: " ++ Text.quoted p.text
  | isDirectory => "[Errno 21] Is a directory: " ++ Text.quoted p.text
  | nullByte => "embedded null byte"
  | nameTooLong => "[Errno 36] File name too long: " ++ Text.quoted p.text
  | other reason => reason

/-- A disk: how to read a file, and how to create or replace one. -/
structure Disk (m : Type → Type) where
  read : Path → m (Except FileFault (List UInt8))
  write : Path → List UInt8 → m (Except FileFault Unit)

end LoweringIR
