import LoweringIR.Proofs.Outcome
import LoweringIR.Sorting.Merge

/-!
# Searching finds the first place

A search relies on its test to change its answer once: there is a place before which the test does
not hold and from which on it does. Where that is so, and no test fails, the search finds that
place, whatever it takes for a hint.

Both searches keep the place between two others, below which the test has not held and from which
on it has. Galloping gets such a pair by leaping, and bisecting draws the two together.

The items of a run in order are such places if what the test says of an item it says of all that
are not before it.

## Main definitions

* `Splits` — the test changes its answer at one place

## Main results

* `Splits.bisect_eq`, `Splits.gallop_eq` — both searches find the place
* `exists_splits` — a test on the items of a run in order changes its answer at one place
-/

namespace LoweringIR.Sorting

variable {α ε : Type}

/-- Of `count` places the test holds at those from `n` on and at no other. -/
structure Splits (test : Nat → Except ε Bool) (count n : Nat) : Prop where
  le : n ≤ count
  eq_ok : ∀ i < count, test i = .ok (decide (n ≤ i))

section

variable {test : Nat → Except ε Bool} {count n low high hint limit last distance : Nat}

/-- **Bisecting** finds the place between any two that it lies between. -/
theorem Splits.bisect_eq (h : Splits test count n) (hlow : low ≤ n) (hhigh : n ≤ high)
    (hcount : high ≤ count) : bisect test low high = .ok n := by
  fun_induction bisect test low high with
  | case1 low high hlt middle e he =>
    rw [h.eq_ok middle (by omega)] at he
    cases he
  | case2 low high hlt middle he ih =>
    have hmiddle : n ≤ middle := by
      rw [h.eq_ok middle (by omega)] at he
      simpa using he
    exact ih hlow hmiddle (by omega)
  | case3 low high hlt middle he ih =>
    have hmiddle : ¬ n ≤ middle := by
      rw [h.eq_ok middle (by omega)] at he
      simpa using he
    exact ih (by omega) hhigh hcount
  | case4 low high hle => exact congrArg _ (by omega)

/-- Leaping ends with two distances, the first of which passes while the second does not or is the
limit. -/
theorem exists_leap {p : Nat → Bool} (last distance : Nat) (htest : ∀ d < limit, test d = .ok (p d)) (hp : p last = true)
    (hlast : last < distance) (hlimit : last < limit) :
    ∃ near far, leap test limit last distance = .ok (near, far) ∧ near < far ∧ far ≤ limit ∧
      p near = true ∧ (far < limit → p far = false) := by
  fun_induction leap test limit last distance with
  | case1 last distance hlt e he =>
    rw [htest distance hlt] at he
    cases he
  | case2 last distance hlt he ih =>
    rw [htest distance hlt] at he
    exact ih (Except.ok.inj he) (by omega) hlt
  | case3 last distance hlt he =>
    rw [htest distance hlt] at he
    exact ⟨last, distance, rfl, hlast, by omega, hp, fun _ => Except.ok.inj he⟩
  | case4 last distance hle => exact ⟨last, limit, rfl, hlimit, Nat.le_refl _, hp, by omega⟩

/-- **Galloping** finds the place from any hint. -/
theorem Splits.gallop_eq (h : Splits test count n) (hhint : hint < count) :
    gallop test count hint = .ok n := by
  rw [gallop, h.eq_ok hint hhint, ok_bind]
  by_cases hn : n ≤ hint
  · have htest : ∀ d < hint + 1, test (hint - d) = .ok (decide (n ≤ hint - d)) :=
      fun d _ => h.eq_ok _ (by omega)
    obtain ⟨near, far, hleap, hlt, hle, hnear, hfar⟩ :=
      exists_leap 0 1 htest (by simpa using hn) (by omega) (by omega)
    simp only [decide_eq_true_eq, decide_eq_false_iff_not] at hnear hfar
    rw [if_pos (by simpa using hn), hleap, ok_bind]
    exact h.bisect_eq (by omega) hnear (by omega)
  · have htest : ∀ d < count - hint, (not <$> test (hint + d)) = .ok (!decide (n ≤ hint + d)) := by
      intro d hd
      rw [h.eq_ok _ (by omega)]
      rfl
    obtain ⟨near, far, hleap, hlt, hle, hnear, hfar⟩ :=
      exists_leap 0 1 htest (by simpa using hn) (by omega) (by omega)
    simp only [Bool.not_eq_true', Bool.not_eq_false', decide_eq_true_eq,
      decide_eq_false_iff_not] at hnear hfar
    have hplace := h.le
    rw [if_neg (by simpa using hn), hleap, ok_bind]
    exact h.bisect_eq (by omega) (by omega) (by omega)

end

/-! ### Searching in a run -/

section

variable {test : α → Except ε Bool} {p : α → Bool} {run : Subarray α} {n : Nat}

/-- Where what is said of an item is said of all items behind it, it is said from some place on. -/
theorem exists_place {xs : List α} (h : xs.Pairwise fun x y => p x = true → p y = true) :
    ∃ n ≤ xs.length, ∀ i (hi : i < xs.length), p xs[i] = decide (n ≤ i) := by
  induction xs with
  | nil => exact ⟨0, Nat.le_refl _, fun i hi => absurd hi (Nat.not_lt_zero i)⟩
  | cons x xs ih =>
    obtain ⟨hx, hxs⟩ := List.pairwise_cons.mp h
    cases hpx : p x with
    | true =>
      refine ⟨0, Nat.zero_le _, fun i hi => ?_⟩
      rcases List.mem_cons.mp (List.getElem_mem hi) with hi | hi
      · simpa [hi] using hpx
      · simpa using hx _ hi hpx
    | false =>
      obtain ⟨n, hn, hplace⟩ := ih hxs
      refine ⟨n + 1, by simpa using hn, fun i hi => ?_⟩
      cases i with
      | zero => simpa using hpx
      | succ i => simpa using hplace i (by simpa using hi)

/-- **The items of a run in order** are places at one of which a test changes its answer. -/
theorem exists_splits (htest : ∀ x ∈ run.toList, test x = .ok (p x))
    (h : run.toList.Pairwise fun x y => p x = true → p y = true) :
    ∃ n, Splits (testIn test run) run.size n ∧
      (∀ x ∈ run.toList.take n, p x = false) ∧ ∀ x ∈ run.toList.drop n, p x = true := by
  obtain ⟨n, hn, hplace⟩ := exists_place h
  refine ⟨n, ⟨by simpa using hn, fun i hi => ?_⟩, fun x hx => ?_, fun x hx => ?_⟩
  · have hi' : i < run.toList.length := by simpa using hi
    rw [testIn, dif_pos hi, Subarray.getElem_eq_getElem_toList, htest _ (List.getElem_mem hi'),
      hplace i hi']
  · obtain ⟨i, hi, rfl⟩ := List.mem_take_iff_getElem.mp hx
    rw [hplace i (by omega)]
    exact decide_eq_false (by omega)
  · obtain ⟨i, hi, rfl⟩ := List.mem_drop_iff_getElem.mp hx
    rw [hplace (n + i) (by omega)]
    exact decide_eq_true (by omega)

end

end LoweringIR.Sorting
