import LoweringIR.Label.Mangle
import LoweringIR.Log
import LoweringIR.Tree.Preorder
import LoweringIR.Tree.Render

/-!
# Checked emission

The assembler binds a jump to the block whose label has the same text. Since different names can be
mangled to one text, and a name can head two blocks, a program is checked before it is emitted: no
name heads two blocks, and no two of the names in it share a mangled form. Names are taken in
pre-order, so a rejected program is reported at its first fault; two blocks with one name come
before any shared form.

The check only reads the program. The text that is emitted is the rendering of the tree, whether it
is checked or not.
-/

namespace LoweringIR.Label

/-! ### Names in a program -/

/-- The name that heads a block. -/
def heading? : Tree → Option String
  | .node (.asm .cfg) (.name n :: _) => some n
  | _ => none

/-- The name that a node defines or refers to. -/
def named? : Tree → Option String
  | .node (.asm .cfg) (.name n :: _) => some n
  | .node (.asm .label) [.name n] => some n
  | _ => none

/-- Names without repetitions, each where it is seen first, after those seen before. -/
def firstSeen (seen : List String) : List String → List String
  | [] => seen.reverse
  | n :: ns => if seen.contains n then firstSeen seen ns else firstSeen (n :: seen) ns

/-- The names that head blocks, in pre-order. -/
def headings (t : Tree) : List String := t.preorder.filterMap heading?

/-- Every name that is defined or referred to, in the order in which it is seen first. -/
def collect (t : Tree) : List String := firstSeen [] (t.preorder.filterMap named?)

/-! ### The check -/

/-- Why a program cannot be emitted unambiguously. -/
inductive Fault where
  /-- A name heads two blocks. -/
  | duplicate (name : String)
  /-- Two names share a mangled form. -/
  | collision (first second mangled : String)
deriving DecidableEq, Inhabited

/-- The wording of a fault. -/
def Fault.message : Fault → String
  | .duplicate name => "Duplicate label: " ++ name
  | .collision first second mangled =>
    "Labels '" ++ first ++ "' and '" ++ second ++ "' both emit as '" ++ mangled ++ "'"

/-- Where the records of this module come from. -/
def logger : String := "schemec.asm"

/-- The warning that comes with a fault. -/
def Fault.record : Fault → Log.Record
  | .duplicate name => ⟨.warning, logger, "duplicate block label " ++ name⟩
  | .collision first second mangled =>
    ⟨.warning, logger, "labels " ++ first ++ " and " ++ second ++ " both mangle to " ++ mangled⟩

/-- The first name that has been seen before. -/
def firstRepeat? (seen : List String) : List String → Option String
  | [] => none
  | n :: ns => if seen.contains n then some n else firstRepeat? (n :: seen) ns

/-- Gives every name its mangled form. `owned` holds the names so far with theirs, latest first; a
form that one of them has already is a collision. -/
def assign (owned : List (String × String)) : List String → Except Fault (List (String × String))
  | [] => .ok owned.reverse
  | n :: ns =>
    match owned.find? fun o => o.2 == mangle n with
    | some o => .error (.collision o.1 n o.2)
    | none => assign ((n, mangle n) :: owned) ns

/-- The mangled form of every name, or the first fault. -/
def mapping (t : Tree) : Except Fault (List (String × String)) :=
  match firstRepeat? [] (headings t) with
  | some n => .error (.duplicate n)
  | none => assign [] (collect t)

/-- The check, with the warning that a fault gives rise to. -/
def check (t : Tree) : Log.Logged Fault (List (String × String)) :=
  match mapping t with
  | .error e => ⟨[e.record], .error e⟩
  | .ok m => ⟨[], .ok m⟩

/-! ### Emission -/

/-- Why no text is emitted. -/
inductive EmitFault where
  | label (fault : Fault)
  | blank (fault : BlankFault)
deriving DecidableEq, Inhabited

/-- The wording of an emission fault. -/
def EmitFault.message : EmitFault → String
  | .label f => f.message
  | .blank f => f.message

/-- The text of a tree for the assembler, checked or not. -/
def emit (checked : Bool) (t : Tree) : Log.Logged EmitFault String :=
  let text := (t.render .sorted).mapError EmitFault.blank
  if checked then
    match check t with
    | ⟨records, .error e⟩ => ⟨records, .error (.label e)⟩
    | ⟨records, .ok m⟩ =>
      let emitting : Log.Record :=
        ⟨.debug, logger, "emitting program with " ++ toString m.length ++ " labels"⟩
      ⟨records ++ [emitting], text⟩
  else ⟨[], text⟩

end LoweringIR.Label
