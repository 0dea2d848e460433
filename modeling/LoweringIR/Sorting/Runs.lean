import LoweringIR.Sorting.Merge

/-!
# Sorting by runs

A sequence is sorted by cutting it into runs and merging neighbours. A run is as long as the items
ascend, or strictly descend; a short one is filled up with the items behind it, each inserted by
bisection, until it has the least length.

Which neighbours are merged, and when, follows from the place of the boundary between them. If the
sequence is halved again and again, a boundary has as its *power* the number of halvings after which
the middles of the two runs first lie in different parts. Runs wait on a stack, and a new run makes
those merge whose boundaries have a greater power than its own, so that merges are balanced in
length. What still waits in the end is merged from the top.

What can be observed of a sort whose comparisons may fail is which one fails first. `sort` makes its
comparisons in this order, and the later item is always the one asked to be the smaller.
-/

namespace LoweringIR.Sorting

variable {α ε : Type}

/-! ### Runs -/

/-- The length below which a sequence is sorted by insertion alone. -/
def shortest : Nat := 64

/-- The least length of a run in a sequence: its length is halved until it is below the shortest,
and one is added if a halving lost an item. -/
def leastRun (length lost : Nat) : Nat :=
  if length < shortest then length + lost
  else leastRun (length / 2) (max lost (length % 2))
termination_by length
decreasing_by
  simp only [shortest] at *
  omega

/-- How many items continue a run of `count` items that ends with `last`. -/
def runLength (less : α → α → Except ε Bool) (descending : Bool) (last : α) (count : Nat) :
    List α → Except ε Nat
  | [] => .ok count
  | x :: xs =>
    match less x last with
    | .error e => .error e
    | .ok smaller =>
      if smaller = descending then runLength less descending x (count + 1) xs else .ok count

/-- Inserts an item into a run, behind all that are not greater. -/
def insert (less : α → α → Except ε Bool) (run : Array α) (x : α) : Except ε (Array α) := do
  let i ← bisect (testIn (fun y => less x y) run.toSubarray) 0 run.size
  pure (run.insertIdxIfInBounds i x)

/-- The run at the front, filled up to the least length, and the items behind it. -/
def nextRun (less : α → α → Except ε Bool) (least : Nat) :
    List α → Except ε (Array α × List α)
  | x :: y :: rest => do
    let descending ← less y x
    let n ← runLength less descending y 0 rest
    let run := x :: y :: rest.take n
    let run := (if descending then run.reverse else run).toArray
    let rest := rest.drop n
    let missing := least - run.size
    pure ((← (rest.take missing).foldlM (insert less) run), rest.drop missing)
  | xs => .ok (xs.toArray, [])

/-! ### Powers -/

/-- The number of halvings of a sequence of `length` items after which two points are in different
parts. The points are given in half items and the sequence as twice its length, with a bound on the
number of halvings. -/
def halvings (length : Nat) : Nat → Nat → Nat → Nat
  | 0, _, _ => 0
  | bound + 1, left, right =>
    if length ≤ left then halvings length bound (2 * (left - length)) (2 * (right - length)) + 1
    else if length ≤ right then 1
    else halvings length bound (2 * left) (2 * right) + 1

/-- The power of the boundary between two neighbouring runs, the first of which is at `start`. -/
def boundaryPower (length start left right : Nat) : Nat :=
  let middle := 2 * start + left
  halvings length (length + 1) middle (middle + left + right)

/-! ### The stack -/

/-- A run on the stack: where it starts, its items, and the power of the boundary behind it. -/
structure Run (α : Type) where
  start : Nat
  items : Array α
  power : Nat

/-- The runs that wait, the latest first, and the patience of the next merge. -/
structure Stack (α : Type) where
  runs : List (Run α)
  patience : Nat

/-- Merges the latest runs as long as the boundary between them has a greater power. -/
def settle (less : α → α → Except ε Bool) (power patience : Nat) :
    List (Run α) → Except ε (Stack α)
  | top :: next :: rest =>
    if power < next.power then
      match merge less patience next.items top.items with
      | .error e => .error e
      | .ok (items, patience) => settle less power patience (⟨next.start, items, 0⟩ :: rest)
    else .ok ⟨top :: next :: rest, patience⟩
  | runs => .ok ⟨runs, patience⟩
termination_by runs => runs.length

/-- Puts a run onto the stack. The power of the boundary before it is known from now on. -/
def Stack.push (less : α → α → Except ε Bool) (length : Nat) (s : Stack α) (run : Array α) :
    Except ε (Stack α) :=
  match s.runs with
  | [] => .ok ⟨[⟨0, run, 0⟩], s.patience⟩
  | top :: rest => do
    let power := boundaryPower length top.start top.items.size run.size
    let settled ← settle less power s.patience (top :: rest)
    match settled.runs with
    | [] => pure settled
    | top :: rest =>
      pure ⟨⟨top.start + top.items.size, run, 0⟩ :: { top with power := power } :: rest,
        settled.patience⟩

/-- Merges all runs, the latest two first, unless the run below them is shorter than the latest. -/
def collapse (less : α → α → Except ε Bool) (patience : Nat) :
    List (Run α) → Except ε (Array α)
  | top :: next :: third :: rest =>
    if third.items.size < top.items.size then
      match merge less patience third.items next.items with
      | .error e => .error e
      | .ok (items, patience) => collapse less patience (top :: ⟨third.start, items, 0⟩ :: rest)
    else
      match merge less patience next.items top.items with
      | .error e => .error e
      | .ok (items, patience) => collapse less patience (⟨next.start, items, 0⟩ :: third :: rest)
  | [top, next] => do
    let (items, _) ← merge less patience next.items top.items
    pure items
  | [top] => .ok top.items
  | [] => .ok #[]
termination_by runs => runs.length

/-! ### Sorting -/

/-- Cuts a sequence into runs and puts them onto the stack. Every run has an item, so there are no
more runs than items. -/
def gather (less : α → α → Except ε Bool) (length : Nat) :
    Nat → List α → Stack α → Except ε (Stack α)
  | 0, _, s => .ok s
  | bound + 1, xs, s => do
    if xs.isEmpty then return s
    let (run, rest) ← nextRun less (leastRun length 0) xs
    gather less length bound rest (← s.push less length run)

/-- Sorts a sequence. Equal items keep their order. -/
def sort (less : α → α → Except ε Bool) (xs : List α) : Except ε (List α) := do
  let s ← gather less xs.length xs.length xs ⟨[], worthwhile⟩
  pure (← collapse less s.patience s.runs).toList

end LoweringIR.Sorting
