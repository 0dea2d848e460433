import LoweringIR.Sorting.Search

/-!
# Merging two runs

Two neighbouring runs become one. The items that are in place already, at the front of the left run
and at the back of the right one, are found by galloping and stay out of it; what is left is merged
from the end at which the shorter of the two runs lies.

A merge starts by comparing the two items at hand and taking one of them. When one run has won often
enough in a row, whole stretches are taken instead, whose lengths are found by galloping, for as
long as a stretch is long enough to be worth it. How often is enough is the `patience`. It falls
while galloping pays and rises when it does not, and it is handed on from merge to merge.

An item of the right run goes before one of the left run only if it is smaller, so equal items keep
their order.
-/

namespace LoweringIR.Sorting

variable {α ε : Type}

/-- The length from which a stretch is worth galloping for. -/
def worthwhile : Nat := 7

/-- The end of two neighbouring runs at which they are merged. -/
inductive End where
  | front
  | back
deriving DecidableEq

namespace End

/-- The item of a run at this end. -/
def head? (e : End) (run : Subarray α) : Option α :=
  let i := match e with
    | front => 0
    | back => run.size - 1
  if h : i < run.size then some run[i] else none

/-- Takes items off a run at this end and puts them onto others. -/
def move (e : End) (count : Nat) (run : Subarray α) (onto : List α) : Subarray α × List α :=
  match e with
  | front => (run.drop count, (run.take count).foldl (fun xs x => x :: xs) onto)
  | back => (run.take (run.size - count), (run.drop (run.size - count)).foldr List.cons onto)

end End

/-- The test of a place in a run. It holds behind the run. -/
def testIn (test : α → Except ε Bool) (run : Subarray α) (i : Nat) : Except ε Bool :=
  if h : i < run.size then test run[i] else .ok true

/-- How many items at an end of a run do not pass the test on their side of it: those before the
first that passes, or those from it on. -/
def End.stretch (e : End) (test : α → Except ε Bool) (run : Subarray α) : Except ε Nat :=
  match e with
  | front => gallop (testIn test run) run.size 0
  | back => do pure (run.size - (← gallop (testIn test run) run.size (run.size - 1)))

/-- How a merge goes on. -/
inductive Pace where
  /-- Item by item. So many came from each run since the other one won. -/
  | single (fromLeft fromRight : Nat)
  /-- By stretches. -/
  | galloping
deriving DecidableEq

/-- A merge in progress. What has been merged is kept with the latest item first. -/
structure Merge (α : Type) where
  left : Subarray α
  right : Subarray α
  merged : List α
  pace : Pace
  patience : Nat

namespace Merge

/-- Takes items off the left run. -/
def takeLeft (e : End) (count : Nat) (m : Merge α) : Merge α :=
  let (run, merged) := e.move count m.left m.merged
  { m with left := run, merged := merged }

/-- Takes items off the right run. -/
def takeRight (e : End) (count : Nat) (m : Merge α) : Merge α :=
  let (run, merged) := e.move count m.right m.merged
  { m with right := run, merged := merged }

/-- Nothing is left to compare: one run is used up, or of the run that has the last word one item is
left. -/
def done (e : End) (m : Merge α) : Bool :=
  match e with
  | .front => m.left.size ≤ 1 || m.right.size == 0
  | .back => m.right.size ≤ 1 || m.left.size == 0

/-- All items. Those that have not been merged go behind the merged ones, or before them. -/
def items (e : End) (m : Merge α) : Array α :=
  match e with
  | .front => m.merged.reverse.toArray ++ m.right.toArray ++ m.left.toArray
  | .back => m.right.toArray ++ m.left.toArray ++ m.merged.toArray

/-- How many items of the left run come before the item at hand of the right one. -/
def leftStretch (less : α → α → Except ε Bool) (e : End) (m : Merge α) : Except ε Nat :=
  match e.head? m.right with
  | none => .ok 0
  | some r => e.stretch (fun l => less r l) m.left

/-- How many items of the right run come before the item at hand of the left one. -/
def rightStretch (less : α → α → Except ε Bool) (e : End) (m : Merge α) : Except ε Nat :=
  match e.head? m.left with
  | none => .ok 0
  | some l => e.stretch (fun r => not <$> less r l) m.right

/-- Compares the items at hand and takes one. From the front it is the smaller one, from the back
the greater one. -/
def single (less : α → α → Except ε Bool) (e : End) (fromLeft fromRight : Nat) (m : Merge α) :
    Except ε (Merge α) :=
  match e.head? m.left, e.head? m.right with
  | some l, some r => do
    let smaller ← less r l
    if smaller = decide (e = .front) then
      let pace := if m.patience ≤ fromRight + 1 then .galloping else .single 0 (fromRight + 1)
      pure { m.takeRight e 1 with pace := pace }
    else
      let pace := if m.patience ≤ fromLeft + 1 then .galloping else .single (fromLeft + 1) 0
      pure { m.takeLeft e 1 with pace := pace }
  | _, _ => .ok m

/-- Takes a stretch of the left run and the item of the right run that ended it, then a stretch of
the right run and the item of the left run that ended it. -/
def round (less : α → α → Except ε Bool) (e : End) (m : Merge α) : Except ε (Merge α) := do
  let k ← m.leftStretch less e
  let m := m.takeLeft e k
  if m.done e then return m
  let m := m.takeRight e 1
  if m.done e then return m
  let n ← m.rightStretch less e
  let m := m.takeRight e n
  if m.done e then return m
  let m := m.takeLeft e 1
  if m.done e then return m
  if worthwhile ≤ k ∨ worthwhile ≤ n then
    return { m with patience := max 1 (m.patience - 1) }
  else
    return { m with pace := .single 0 0, patience := m.patience + 1 }

/-- Goes on until nothing is left to compare. Every turn takes an item, so there is need of no more
turns than there are items. -/
def run (less : α → α → Except ε Bool) (e : End) : Nat → Merge α → Except ε (Merge α)
  | 0, m => .ok m
  | turns + 1, m =>
    if m.done e then .ok m
    else do
      let m ← match m.pace with
        | .single fromLeft fromRight => m.single less e fromLeft fromRight
        | .galloping => m.round less e
      run less e turns m

/-- Merges from an end. One item is known to come first there: the first of the right run, or the
last of the left one. -/
def start (less : α → α → Except ε Bool) (e : End) (patience : Nat) (left right : Subarray α) :
    Except ε (Array α × Nat) := do
  let m : Merge α := ⟨left, right, [], .single 0 0, patience⟩
  let m := match e with
    | .front => m.takeRight e 1
    | .back => m.takeLeft e 1
  let m ← m.run less e (left.size + right.size)
  pure (m.items e, m.patience)

end Merge

/-- Merges two neighbouring runs. The answer comes with the patience that is left. -/
def merge (less : α → α → Except ε Bool) (patience : Nat) (left right : Array α) :
    Except ε (Array α × Nat) := do
  match left.back?, right[0]? with
  | some last, some first =>
    let k ← gallop (testIn (fun l => less first l) left.toSubarray) left.size 0
    if k = left.size then return (left ++ right, patience)
    let n ← gallop (testIn (fun r => not <$> less r last) right.toSubarray) right.size
      (right.size - 1)
    if n = 0 then return (left ++ right, patience)
    let rest := left.toSubarray k left.size
    let front := right.toSubarray 0 n
    let e : End := if rest.size ≤ front.size then .front else .back
    let (items, patience) ← Merge.start less e patience rest front
    return (left.extract 0 k ++ items ++ right.extract n right.size, patience)
  | _, _ => return (left ++ right, patience)

end LoweringIR.Sorting
