/-!
# Paths

A path is read once and kept in its parts, so that messages show one spelling of it: repeated and
trailing slashes vanish, and so do parts that stand still. A part that goes up stays, since what it
goes up from may not be there. The empty path is the place where it starts.
-/

namespace LoweringIR

/-- A path: its root, which is empty for a relative one, and the parts below it. -/
structure Path where
  root : String
  parts : List String
deriving DecidableEq, Inhabited

namespace Path

/-- The part that stands still. -/
def here : String := "."

/-- The part that goes up. -/
def up : String := ".."

/-- The root of a path with that many slashes in front. Exactly two are a root of their own. -/
def rootOf (slashes : Nat) : String :=
  if slashes = 0 then "" else if slashes = 2 then "//" else "/"

/-- The path that a text spells. -/
def ofText (s : String) : Path :=
  let cs := s.toList
  let parts := (cs.splitOn '/').map String.ofList
  ⟨rootOf (cs.takeWhile fun c => c = '/').length, parts.filter fun p => p ≠ "" ∧ p ≠ here⟩

/-- The spelling of a path. -/
def text (p : Path) : String :=
  if p.root = "" ∧ p.parts = [] then here else p.root ++ "/".intercalate p.parts

/-- How many bytes a path has at most. -/
def byteLimit : Nat := 4095

/-- How many bytes a part of a path has at most. -/
def partByteLimit : Nat := 255

end Path

end LoweringIR
