/-!
# Searching with a test that may fail

Items in order are searched for the first place at which a test holds. A test may fail, and then the
search fails with it, so the places that are tested and the order in which they are tested are part
of what a search does.

`bisect` halves the places that are left. `gallop` starts from a hint: it moves away from it in the
direction in which the place must be, twice as far each time, until the test changes its answer, and
halves what lies between the last two places.
-/

namespace LoweringIR.Sorting

variable {ε : Type}

/-- The first place from `low` on at which the test holds, or `high` if there is none before it. -/
def bisect (test : Nat → Except ε Bool) (low high : Nat) : Except ε Nat :=
  if low < high then
    let middle := low + (high - low) / 2
    match test middle with
    | .error e => .error e
    | .ok true => bisect test low middle
    | .ok false => bisect test (middle + 1) high
  else .ok low
termination_by high - low

/-- Tests one distance after the other, each about twice the one before, while the test holds: the
last distance at which it held, and the first at which it did not or the limit. -/
def leap (test : Nat → Except ε Bool) (limit last distance : Nat) : Except ε (Nat × Nat) :=
  if distance < limit then
    match test distance with
    | .error e => .error e
    | .ok true => leap test limit distance (2 * distance + 1)
    | .ok false => .ok (last, distance)
  else .ok (last, limit)
termination_by limit - distance

/-- The first of `count` places at which the test holds, looked for around a hint. -/
def gallop (test : Nat → Except ε Bool) (count hint : Nat) : Except ε Nat := do
  if ← test hint then
    let (near, far) ← leap (fun d => test (hint - d)) (hint + 1) 0 1
    bisect test (hint + 1 - far) (hint - near)
  else
    let (near, far) ← leap (fun d => not <$> test (hint + d)) (count - hint) 0 1
    bisect test (hint + near + 1) (hint + far)

/-- A search does not leave the places it is given. -/
theorem bisect_le {test : Nat → Except ε Bool} {low high n : Nat} (hle : low ≤ high)
    (h : bisect test low high = .ok n) : low ≤ n ∧ n ≤ high := by
  fun_induction bisect test low high with
  | case1 => cases h
  | case2 low high _ middle _ ih =>
    have := ih (by omega) h
    omega
  | case3 low high _ middle _ ih =>
    have := ih (by omega) h
    omega
  | case4 => cases h; omega

end LoweringIR.Sorting
