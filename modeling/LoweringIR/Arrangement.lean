import LoweringIR.Instances

/-!
# The order of unordered collections

Name sets, bindings, conflict graphs and frame sets have no order of their own, but a text has one.
An `Arrangement` says which: ascending, so that a text depends on what a collection holds and not on
how it was built, or the order in which the collection was given.

Ascending is by code point for names and element by element for lists of names, a proper prefix
first. Sorting is stable, so entries with equal keys keep their given order and nothing else about
an entry can influence where it goes.
-/

namespace LoweringIR

/-- How unordered collections are laid out. -/
inductive Arrangement where
  | sorted
  | insertion
deriving DecidableEq, Inhabited

namespace Arrangement

/-- The arrangements, in the order in which they are offered. -/
def all : List Arrangement := [.sorted, .insertion]

/-- The name of an arrangement. -/
def name : Arrangement → String
  | .sorted => "sorted"
  | .insertion => "insertion"

/-- The arrangement of that name. -/
def ofName? (s : String) : Option Arrangement := all.find? fun a => a.name == s

@[simp] theorem ofName?_name (a : Arrangement) : ofName? a.name = some a := by
  cases a <;> decide

/-- Lays `items` out by their keys. -/
def arrangeOn {α β : Type} (le : β → β → Bool) (key : α → β) (a : Arrangement) (items : List α) :
    List α :=
  match a with
  | .sorted => items.mergeSort fun x y => le (key x) (key y)
  | .insertion => items

/-- Names in ascending order of code points. -/
def nameLE (x y : String) : Bool := decide (x ≤ y)

/-- Lists of names in lexicographic order. -/
def namesLE (x y : List String) : Bool := decide (x ≤ y)

/-- Lays out a set of names. -/
def names (a : Arrangement) (ns : List String) : List String :=
  arrangeOn nameLE id a ns

/-- Lays out entries by their names. -/
def entries {α : Type} (a : Arrangement) (es : List (String × α)) : List (String × α) :=
  arrangeOn nameLE Prod.fst a es

/-- Lays out a conflict graph: each set of conflicts, and the entries by variable. -/
def graph (a : Arrangement) (g : List (String × List String)) : List (String × List String) :=
  (a.entries g).map fun e => (e.1, a.names e.2)

/-- Lays out a set of frames. The names inside a frame keep their order. -/
def frames (a : Arrangement) (fs : List (List String)) : List (List String) :=
  arrangeOn namesLE id a fs

section

variable {α β : Type}

@[simp] theorem arrangeOn_insertion (le : β → β → Bool) (key : α → β) (items : List α) :
    arrangeOn le key .insertion items = items := rfl

theorem arrangeOn_perm (le : β → β → Bool) (key : α → β) (a : Arrangement) (items : List α) :
    (arrangeOn le key a items).Perm items := by
  cases a with
  | sorted => exact List.mergeSort_perm ..
  | insertion => exact List.Perm.refl _

@[simp] theorem length_arrangeOn (le : β → β → Bool) (key : α → β) (a : Arrangement)
    (items : List α) : (arrangeOn le key a items).length = items.length :=
  (arrangeOn_perm le key a items).length_eq

end

end Arrangement

end LoweringIR
