import LoweringIR.Disk.Basic

/-!
# File systems

A world of values, in which what is done to files can be compared: finitely many files and
directories below a starting place, and nothing else but the directories above it.

A path is walked part by part. Each part is looked up in a directory, so what goes wrong is decided
by the first part that is missing, is too long, or is followed by another although it is a file.
Only a path that is too long as a whole is refused before it is walked.
-/

namespace LoweringIR

/-- A place: so many directories above the starting place, or below the root, and then down. -/
structure Location where
  rooted : Bool
  above : Nat
  names : List String
deriving DecidableEq, Inhabited

namespace Location

/-- The starting place. -/
def start : Location := ⟨false, 0, []⟩

/-- The place one up. The root is above itself. -/
def parent (l : Location) : Location :=
  match l.names with
  | [] => if l.rooted then l else { l with above := l.above + 1 }
  | names => { l with names := names.dropLast }

/-- The place of that name below. -/
def child (l : Location) (name : String) : Location := { l with names := l.names ++ [name] }

end Location

/-- What is at a place. -/
inductive FileSystem.Entry where
  | file (bytes : List UInt8)
  | directory
deriving DecidableEq, Inhabited

/-- The files and directories that exist, by place. The starting place and all that is above a
place are directories without being listed. -/
structure FileSystem where
  entries : List (Location × FileSystem.Entry)
deriving DecidableEq, Inhabited

namespace FileSystem

/-- What is at a place. -/
def get? (fs : FileSystem) (l : Location) : Option Entry :=
  if l.names = [] then some .directory
  else (fs.entries.find? fun e => e.1 == l).map Prod.snd

/-- Puts a file at a place, in the stead of what is there. -/
def put (fs : FileSystem) (l : Location) (bytes : List UInt8) : FileSystem :=
  if fs.entries.any fun e => e.1 == l then
    ⟨fs.entries.map fun e => if e.1 == l then (l, .file bytes) else e⟩
  else ⟨fs.entries ++ [(l, .file bytes)]⟩

/-- Walks parts from a place. The last part need not exist. -/
def walk (fs : FileSystem) (l : Location) : List String → Except FileFault Location
  | [] => .ok l
  | part :: rest =>
    match fs.get? l with
    | none => .error .missing
    | some (.file _) => .error .notDirectory
    | some .directory =>
      if Path.partByteLimit < part.utf8ByteSize then .error .nameTooLong
      else walk fs (if part = Path.up then l.parent else l.child part) rest

/-- The place that a path leads to. -/
def locate (fs : FileSystem) (p : Path) : Except FileFault Location :=
  if p.text.toList.contains '\x00' then .error .nullByte
  else if Path.byteLimit < p.text.utf8ByteSize then .error .nameTooLong
  else fs.walk (if p.root = "" then .start else ⟨true, 0, []⟩) p.parts

/-- The bytes of the file that a path leads to. -/
def read (fs : FileSystem) (p : Path) : Except FileFault (List UInt8) := do
  match fs.get? (← fs.locate p) with
  | none => .error .missing
  | some .directory => .error .isDirectory
  | some (.file bytes) => .ok bytes

/-- The world after a file has been replaced or created. -/
def write (fs : FileSystem) (p : Path) (bytes : List UInt8) : Except FileFault FileSystem := do
  let l ← fs.locate p
  match fs.get? l with
  | some .directory => .error .isDirectory
  | _ => .ok (fs.put l bytes)

/-- The world as a disk. -/
def disk : Disk (StateM FileSystem) where
  read p := do pure ((← get).read p)
  write p bytes := do
    match (← get).write p bytes with
    | .error e => pure (.error e)
    | .ok fs => do
      set fs
      pure (.ok ())

end FileSystem

end LoweringIR
