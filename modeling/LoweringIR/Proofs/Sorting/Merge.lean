import LoweringIR.Proofs.Arrangement
import LoweringIR.Proofs.Sorting.Search
import Mathlib.Data.List.TakeDrop

/-!
# Merging is merging

Two neighbouring runs are merged from either end, item by item or by stretches, after what is in
place already has been left out. All this is done to save comparisons. What comes out is what the
plain merge gives, which takes the smaller of the two first items, and the left one of two equals.

The two ends are treated alike. Of two items, one of each run, one *comes out first* at an end: at
the front the left one if it is not greater, at the back the left one if it is greater. An item may
be taken off a run at an end if it comes out before all items of the other run there, and so may a
stretch of such items. What has been merged, together with the plain merge of what is left, then
stays what it was. This is the invariant of a merge in progress.

A merge stops early, with one item left of the run that has the last word. It is known to come
after all that is left of the other run, since the items that do not were left out to begin with.

## Main definitions

* `Compares` — comparisons that do not fail and follow the order of keys
* `End.outer`, `End.inner`, `End.join` — lists seen from an end
* `Merge.Proper` — the invariant of a merge in progress

## Main results

* `merge_append` — plain merges of lists in two parts
* `Merge.Proper.takeLeft`, `Merge.Proper.takeRight` — what taking items preserves
* `Merge.Proper.single`, `Merge.Proper.round` — what one turn preserves
* `Merge.Proper.run` — what all turns preserve, and that they come to an end
* `Compares.merge_eq` — merging gives the plain merge
-/

namespace LoweringIR.Sorting

open Arrangement (IsOrder)

variable {α β ε : Type}

/-- Comparisons of the items in `P`. None of them fails, and they follow the order of the keys. -/
structure Compares (less : α → α → Except ε Bool) (le : β → β → Bool) (key : α → β)
    (P : α → Prop) : Prop where
  order : IsOrder le
  less_eq : ∀ {x y}, P x → P y → less x y = .ok (!le (key y) (key x))

/-- Items in `P` that are in order. -/
structure IsRun (le : β → β → Bool) (key : α → β) (P : α → Prop) (xs : List α) : Prop where
  each : ∀ x ∈ xs, P x
  ascending : xs.Pairwise fun x y => le (key x) (key y) = true

/-- The plain merge by keys. -/
def mergeOn (le : β → β → Bool) (key : α → β) (xs ys : List α) : List α :=
  List.merge xs ys fun x y => le (key x) (key y)

variable {less : α → α → Except ε Bool} {le : β → β → Bool} {key : α → β} {P : α → Prop}
  {xs ys as bs : List α} {x y z : α} {e : End} {n : Nat} {m : Merge α}

theorem IsRun.sublist (h : IsRun le key P ys) (hs : xs.Sublist ys) : IsRun le key P xs :=
  ⟨fun x hx => h.each x (hs.subset hx), h.ascending.sublist hs⟩

/-- An item has a place in a run, behind those that are not greater. -/
theorem Compares.exists_after (hc : Compares less le key P) (run : Subarray α)
    (hrun : IsRun le key P run.toList) (hx : P x) :
    ∃ n, Splits (testIn (fun y => less x y) run) run.size n ∧
      (∀ y ∈ run.toList.take n, le (key y) (key x) = true) ∧
      ∀ y ∈ run.toList.drop n, le (key y) (key x) = false := by
  have htest : ∀ y ∈ run.toList, less x y = .ok (!le (key y) (key x)) :=
    fun y hy => hc.less_eq hx (hrun.each y hy)
  have hmono : run.toList.Pairwise fun y z =>
      (!le (key y) (key x)) = true → (!le (key z) (key x)) = true := by
    refine hrun.ascending.imp fun {y z} hyz hy => ?_
    simp only [Bool.not_eq_true', ← Bool.not_eq_true] at hy ⊢
    exact fun hz => hy (hc.order.trans _ _ _ hyz hz)
  simpa using exists_splits htest hmono

/-- An item has a place in a run, before those that are not smaller. -/
theorem Compares.exists_before (hc : Compares less le key P) (run : Subarray α)
    (hrun : IsRun le key P run.toList) (hx : P x) :
    ∃ n, Splits (testIn (fun y => not <$> less y x) run) run.size n ∧
      (∀ y ∈ run.toList.take n, le (key x) (key y) = false) ∧
      ∀ y ∈ run.toList.drop n, le (key x) (key y) = true := by
  have htest : ∀ y ∈ run.toList, (not <$> less y x) = .ok (le (key x) (key y)) := by
    intro y hy
    rw [hc.less_eq (hrun.each y hy) hx]
    exact congrArg _ (Bool.not_not _)
  exact exists_splits htest
    (hrun.ascending.imp fun {y z} hyz hy => hc.order.trans _ _ _ hy hyz)

/-! ### Plain merges -/

/-- **Plain merges of lists in two parts** are merges part by part, if the first part of either list
comes before the second part of the other. -/
theorem merge_append {r : α → α → Bool} (xs as ys bs : List α)
    (h₁ : ∀ x ∈ xs, ∀ y ∈ bs, r x y = true) (h₂ : ∀ x ∈ as, ∀ y ∈ ys, r x y = false) :
    List.merge (xs ++ as) (ys ++ bs) r = List.merge xs ys r ++ List.merge as bs r := by
  induction xs generalizing ys with
  | nil =>
    induction ys with
    | nil => simp
    | cons y ys ih =>
      have hrest := ih fun x hx z hz => h₂ x hx z (List.mem_cons_of_mem _ hz)
      cases as with
      | nil => simp
      | cons a as =>
        have hay : r a y = false := h₂ a (List.mem_cons_self ..) y (List.mem_cons_self ..)
        simpa [hay] using hrest
  | cons x xs ihx =>
    have hxs : ∀ z ∈ xs, ∀ b ∈ bs, r z b = true := fun z hz => h₁ z (List.mem_cons_of_mem _ hz)
    induction ys with
    | nil =>
      have hrest := ihx [] hxs h₂
      cases bs with
      | nil => simp
      | cons b bs =>
        have hxb : r x b = true := h₁ x (List.mem_cons_self ..) b (List.mem_cons_self ..)
        simpa [hxb] using hrest
    | cons y ys ihy =>
      by_cases hxy : r x y = true
      · simpa [hxy] using ihx (y :: ys) hxs h₂
      · simpa [hxy] using ihy fun z hz w hw => h₂ z hz w (List.mem_cons_of_mem _ hw)

/-- Lists that are in the wrong order are exchanged. -/
theorem mergeOn_of_apart (h : ∀ x ∈ xs, ∀ y ∈ ys, le (key x) (key y) = false) :
    mergeOn le key xs ys = ys ++ xs := by
  simpa [mergeOn] using merge_append [] xs ys [] (by simp) h

/-- What is in place already may be cut off before merging. -/
theorem mergeOn_cut {k : Nat} (hxs : ∀ x ∈ xs.take k, ∀ y ∈ ys, le (key x) (key y) = true)
    (hys : ∀ x ∈ xs, ∀ y ∈ ys.drop n, le (key x) (key y) = true) :
    mergeOn le key xs ys =
      xs.take k ++ mergeOn le key (xs.drop k) (ys.take n) ++ ys.drop n := by
  have hfront : mergeOn le key xs ys = xs.take k ++ mergeOn le key (xs.drop k) ys := by
    simpa [mergeOn] using
      merge_append (r := fun x y => le (key x) (key y)) (xs.take k) (xs.drop k) [] ys hxs (by simp)
  have hback : mergeOn le key (xs.drop k) ys =
      mergeOn le key (xs.drop k) (ys.take n) ++ ys.drop n := by
    simpa [mergeOn] using
      merge_append (r := fun x y => le (key x) (key y)) (xs.drop k) [] (ys.take n) (ys.drop n)
        (fun x hx => hys x (List.mem_of_mem_drop hx)) (by simp)
  rw [hfront, hback, List.append_assoc]

/-! ### Lists seen from an end -/

namespace End

/-- The items of a list that are next to this end. -/
def outer (e : End) (n : Nat) (xs : List α) : List α :=
  match e with
  | front => xs.take n
  | back => xs.drop (xs.length - n)

/-- The other items. -/
def inner (e : End) (n : Nat) (xs : List α) : List α :=
  match e with
  | front => xs.drop n
  | back => xs.take (xs.length - n)

/-- The outermost item of a list. -/
def outermost? (e : End) (xs : List α) : Option α :=
  match e with
  | front => xs.head?
  | back => xs.getLast?

/-- Two lists in one. The first one is next to this end. -/
def join (e : End) (xs ys : List α) : List α :=
  match e with
  | front => xs ++ ys
  | back => ys ++ xs

/-- The items that have been merged, in order. -/
def settled (e : End) (merged : List α) : List α :=
  match e with
  | front => merged.reverse
  | back => merged

/-- Of an item of the left run and one of the right run, the left one comes out first at this end. -/
def leftFirst (e : End) (le : β → β → Bool) (key : α → β) (x y : α) : Bool :=
  le (key x) (key y) == decide (e = .front)

/-- The first item is not further from this end than the second, if they are in order. -/
def notAfter (e : End) (le : β → β → Bool) (key : α → β) (x y : α) : Prop :=
  match e with
  | front => le (key x) (key y) = true
  | back => le (key y) (key x) = true

/-- The run that has the last word ends with an item that comes after the other run. At the front
the left run has the last word, and at the back the right one. -/
def LastWord (e : End) (le : β → β → Bool) (key : α → β) (xs ys : List α) : Prop :=
  match e with
  | front => ∀ x ∈ xs.getLast?, ∀ y ∈ ys, le (key x) (key y) = false
  | back => ∀ y ∈ ys.head?, ∀ x ∈ xs, le (key x) (key y) = false

theorem outer_sublist (e : End) (n : Nat) (xs : List α) : (e.outer n xs).Sublist xs := by
  cases e with
  | front => exact List.take_sublist ..
  | back => exact List.drop_sublist ..

theorem inner_sublist (e : End) (n : Nat) (xs : List α) : (e.inner n xs).Sublist xs := by
  cases e with
  | front => exact List.drop_sublist ..
  | back => exact List.take_sublist ..

theorem length_inner (e : End) (n : Nat) (xs : List α) :
    (e.inner n xs).length = xs.length - n := by
  cases e with
  | front => exact List.length_drop
  | back => simp [inner]

theorem join_assoc (e : End) (xs ys zs : List α) :
    e.join (e.join xs ys) zs = e.join xs (e.join ys zs) := by
  cases e <;> simp [join]

/-- Items that are taken off a run at an end leave the inner ones. -/
theorem toList_move (e : End) (n : Nat) (run : Subarray α) (onto : List α) :
    (e.move n run onto).1.toList = e.inner n run.toList := by
  cases e <;> simp [move, inner]

/-- Items that are taken off a run at an end come next to those that have been merged there. -/
theorem settled_move (e : End) (n : Nat) (run : Subarray α) (onto : List α) :
    e.settled (e.move n run onto).2 = e.join (e.settled onto) (e.outer n run.toList) := by
  cases e with
  | front => simp [move, settled, join, outer, ← Subarray.foldl_toList]
  | back =>
    have hfoldr : ∀ s : Subarray α, s.foldr List.cons onto = s.toList ++ onto := by
      intro s
      calc s.foldr List.cons onto
          = s.array.foldr List.cons onto s.stop s.start := rfl
        _ = (s.array.extract s.start s.stop).foldr List.cons onto := Array.foldr_eq_foldr_extract
        _ = s.toList ++ onto := by
          rw [Subarray.toList_eq, ← Array.foldr_toList, List.foldr_cons_eq_append']
    simp [move, settled, join, outer, hfoldr]

theorem head?_eq (e : End) (run : Subarray α) : e.head? run = e.outermost? run.toList := by
  have hitem : ∀ i, (if h : i < run.size then some run[i] else none) = run.toList[i]? := by
    intro i
    split
    · next h =>
      rw [List.getElem?_eq_getElem (by simpa using h), Subarray.getElem_eq_getElem_toList]
    · next h => rw [List.getElem?_eq_none (by simpa using h)]
  cases e with
  | front => rw [outermost?, List.head?_eq_getElem?, ← hitem]; rfl
  | back => rw [outermost?, List.getLast?_eq_getElem?, Subarray.length_toList, ← hitem]; rfl

theorem notAfter_of_outermost? (ho : IsOrder le) (hrun : IsRun le key P xs)
    (h : e.outermost? xs = some x) : x ∈ xs ∧ ∀ z ∈ xs, e.notAfter le key x z := by
  have hascending := hrun.ascending
  cases e with
  | front =>
    obtain ⟨ys, rfl⟩ := List.head?_eq_some_iff.mp h
    refine ⟨List.mem_cons_self .., fun z hz => ?_⟩
    rcases List.mem_cons.mp hz with rfl | hz
    · exact ho.refl _
    · exact List.rel_of_pairwise_cons hascending hz
  | back =>
    obtain ⟨ys, rfl⟩ := List.getLast?_eq_some_iff.mp h
    refine ⟨List.mem_append_right _ (List.mem_singleton.mpr rfl), fun z hz => ?_⟩
    rcases List.mem_append.mp hz with hz | hz
    · exact (List.pairwise_append.mp hascending).2.2 z hz x (List.mem_singleton.mpr rfl)
    · rw [List.mem_singleton.mp hz]
      exact ho.refl _

/-- The item at hand is the outermost one. -/
theorem notAfter_of_head? {run : Subarray α} (ho : IsOrder le) (hrun : IsRun le key P run.toList)
    (h : e.head? run = some x) : x ∈ run.toList ∧ ∀ z ∈ run.toList, e.notAfter le key x z :=
  notAfter_of_outermost? ho hrun (e.head?_eq run ▸ h)

/-- What comes out before an item comes out before all that are further inside. -/
theorem leftFirst_right (ho : IsOrder le) (h : e.leftFirst le key x y = true)
    (hyz : e.notAfter le key y z) : e.leftFirst le key x z = true := by
  cases e with
  | front =>
    simp only [leftFirst, decide_true, beq_true] at h ⊢
    exact ho.trans _ _ _ h hyz
  | back =>
    simp only [leftFirst, reduceCtorEq, decide_false, beq_false, Bool.not_eq_true',
      ← Bool.not_eq_true] at h ⊢
    exact fun hxz => h (ho.trans _ _ _ hxz hyz)

theorem leftFirst_left (ho : IsOrder le) (h : e.leftFirst le key x y = false)
    (hxz : e.notAfter le key x z) : e.leftFirst le key z y = false := by
  cases e with
  | front =>
    simp only [leftFirst, decide_true, beq_true, ← Bool.not_eq_true] at h ⊢
    exact fun hzy => h (ho.trans _ _ _ hxz hzy)
  | back =>
    simp only [leftFirst, reduceCtorEq, decide_false, beq_false, Bool.not_eq_false'] at h ⊢
    exact ho.trans _ _ _ hxz h

/-- Items of the left run that come out before the right run may be put aside before merging. -/
theorem mergeOn_inner_left
    (h : ∀ x ∈ e.outer n xs, ∀ y ∈ ys, e.leftFirst le key x y = true) :
    mergeOn le key xs ys = e.join (e.outer n xs) (mergeOn le key (e.inner n xs) ys) := by
  cases e with
  | front =>
    have hfirst : ∀ x ∈ xs.take n, ∀ y ∈ ys, le (key x) (key y) = true := by
      simpa [outer, leftFirst] using h
    have hmerge := merge_append (xs.take n) (xs.drop n) [] ys hfirst (by simp)
    simpa [mergeOn, join, outer, inner] using hmerge
  | back =>
    have hlast : ∀ x ∈ xs.drop (xs.length - n), ∀ y ∈ ys, le (key x) (key y) = false := by
      simpa [outer, leftFirst] using h
    have hmerge := merge_append (xs.take (xs.length - n)) _ ys [] (by simp) hlast
    simpa [mergeOn, join, outer, inner] using hmerge

/-- Items of the right run that come out before the left run may be put aside before merging. -/
theorem mergeOn_inner_right
    (h : ∀ y ∈ e.outer n ys, ∀ x ∈ xs, e.leftFirst le key x y = false) :
    mergeOn le key xs ys = e.join (e.outer n ys) (mergeOn le key xs (e.inner n ys)) := by
  cases e with
  | front =>
    have hfirst : ∀ x ∈ xs, ∀ y ∈ ys.take n, le (key x) (key y) = false := by
      simpa [outer, leftFirst] using fun x hx y hy => h y hy x hx
    have hmerge := merge_append [] xs (ys.take n) (ys.drop n) (by simp) hfirst
    simpa [mergeOn, join, outer, inner] using hmerge
  | back =>
    have hlast : ∀ x ∈ xs, ∀ y ∈ ys.drop (ys.length - n), le (key x) (key y) = true := by
      simpa [outer, leftFirst] using fun x hx y hy => h y hy x hx
    have hmerge := merge_append xs [] (ys.take (ys.length - n)) _ hlast (by simp)
    simpa [mergeOn, join, outer, inner] using hmerge

theorem LastWord.inner_left (h : e.LastWord le key xs ys) (n : Nat) :
    e.LastWord le key (e.inner n xs) ys := by
  cases e with
  | front =>
    intro x hx
    rw [inner, List.getLast?_drop] at hx
    split at hx
    · cases hx
    · exact h x hx
  | back => exact fun y hy x hx => h y hy x (List.mem_of_mem_take hx)

theorem LastWord.inner_right (h : e.LastWord le key xs ys) (n : Nat) :
    e.LastWord le key xs (e.inner n ys) := by
  cases e with
  | front => exact fun x hx y hy => h x hx y (List.mem_of_mem_drop hy)
  | back =>
    intro y hy
    rw [inner, List.head?_take] at hy
    split at hy
    · cases hy
    · exact h y hy

theorem exists_head? (e : End) {run : Subarray α} (h : 0 < run.size) :
    ∃ x, e.head? run = some x ∧ e.outer 1 run.toList = [x] := by
  have hne : run.toList ≠ [] := List.ne_nil_of_length_pos (by simpa using h)
  cases e with
  | front =>
    obtain ⟨x, xs, hxs⟩ := List.exists_cons_of_ne_nil hne
    exact ⟨x, by simp [head?_eq, outermost?, hxs], by simp [outer, hxs]⟩
  | back =>
    exact ⟨run.toList.getLast hne, by rw [head?_eq, outermost?, List.getLast?_eq_some_getLast hne], by
      rw [outer, List.drop_length_sub_one hne]⟩

/-- **A stretch** at an end consists of the items on its side of the place that is looked for. -/
theorem exists_stretch {test : α → Except ε Bool} {run : Subarray α} {p : α → Bool} {b : Bool}
    (h : Splits (testIn test run) run.size n) (hbefore : ∀ x ∈ run.toList.take n, p x = b)
    (hsince : ∀ x ∈ run.toList.drop n, p x = !b) (hne : 0 < run.size) (e : End) :
    ∃ k, e.stretch test run = .ok k ∧
      (∀ x ∈ e.outer k run.toList, (p x == decide (e = .front)) = b) ∧
      ∀ x ∈ e.inner k run.toList, (p x == decide (e = .front)) = !b := by
  cases e with
  | front =>
    refine ⟨n, h.gallop_eq hne, fun x hx => ?_, fun x hx => ?_⟩
    · simpa using hbefore x hx
    · simpa using hsince x hx
  | back =>
    have hgallop := h.gallop_eq (show run.size - 1 < run.size by omega)
    have hlength : run.toList.length - (run.size - n) = n := by
      have hn := h.le
      rw [Subarray.length_toList]
      omega
    refine ⟨run.size - n, ?_, fun x hx => ?_, fun x hx => ?_⟩
    · rw [stretch, hgallop]
      rfl
    · rw [outer, hlength] at hx
      simpa using hsince x hx
    · rw [inner, hlength] at hx
      simpa using hbefore x hx

end End

/-! ### A merge in progress -/

namespace Merge

open End (leftFirst LastWord)

/-- The number of items that have not been merged. -/
def size (m : Merge α) : Nat := m.left.size + m.right.size

/-- The state of a merge in progress. What has been merged, with the plain merge of what is left, is
`target`. -/
structure Proper (le : β → β → Bool) (key : α → β) (P : α → Prop) (e : End) (target : List α)
    (m : Merge α) : Prop where
  left : IsRun le key P m.left.toList
  right : IsRun le key P m.right.toList
  lastWord : e.LastWord le key m.left.toList m.right.toList
  whole : e.join (e.settled m.merged) (mergeOn le key m.left.toList m.right.toList) = target

/-- A turn comes to a state in which nothing is left to compare, or fewer than `bound` items. -/
def Advances (le : β → β → Bool) (key : α → β) (P : α → Prop) (e : End) (target : List α)
    (bound : Nat) (turn : Except ε (Merge α)) : Prop :=
  ∃ m, turn = .ok m ∧ Proper le key P e target m ∧ (m.done e = true ∨ m.size < bound)

variable {target : List α}

theorem left_takeLeft (e : End) (n : Nat) (m : Merge α) :
    (m.takeLeft e n).left.toList = e.inner n m.left.toList := e.toList_move ..

theorem right_takeRight (e : End) (n : Nat) (m : Merge α) :
    (m.takeRight e n).right.toList = e.inner n m.right.toList := e.toList_move ..

theorem size_takeLeft (e : End) (n : Nat) (m : Merge α) :
    (m.takeLeft e n).size = m.left.size - n + m.right.size := by
  have hleft := congrArg List.length (m.left_takeLeft e n)
  rw [End.length_inner, Subarray.length_toList, Subarray.length_toList] at hleft
  rw [size, hleft]
  rfl

theorem size_takeRight (e : End) (n : Nat) (m : Merge α) :
    (m.takeRight e n).size = m.left.size + (m.right.size - n) := by
  have hright := congrArg List.length (m.right_takeRight e n)
  rw [End.length_inner, Subarray.length_toList, Subarray.length_toList] at hright
  rw [size, hright]
  rfl

/-- **Items of the left run may be taken** if they come out before the right run. -/
theorem Proper.takeLeft (h : Proper le key P e target m)
    (hfirst : ∀ x ∈ e.outer n m.left.toList, ∀ y ∈ m.right.toList,
      e.leftFirst le key x y = true) : Proper le key P e target (m.takeLeft e n) where
  left := by
    rw [left_takeLeft]
    exact h.left.sublist (e.inner_sublist ..)
  right := h.right
  lastWord := by
    rw [left_takeLeft]
    exact h.lastWord.inner_left n
  whole := by
    have hsettled : e.settled (m.takeLeft e n).merged =
        e.join (e.settled m.merged) (e.outer n m.left.toList) := e.settled_move ..
    rw [left_takeLeft, hsettled, End.join_assoc, show (m.takeLeft e n).right = m.right from rfl,
      ← End.mergeOn_inner_left hfirst, h.whole]

/-- **Items of the right run may be taken** if they come out before the left run. -/
theorem Proper.takeRight (h : Proper le key P e target m)
    (hfirst : ∀ y ∈ e.outer n m.right.toList, ∀ x ∈ m.left.toList,
      e.leftFirst le key x y = false) : Proper le key P e target (m.takeRight e n) where
  left := h.left
  right := by
    rw [right_takeRight]
    exact h.right.sublist (e.inner_sublist ..)
  lastWord := by
    rw [right_takeRight]
    exact h.lastWord.inner_right n
  whole := by
    have hsettled : e.settled (m.takeRight e n).merged =
        e.join (e.settled m.merged) (e.outer n m.right.toList) := e.settled_move ..
    rw [right_takeRight, hsettled, End.join_assoc, show (m.takeRight e n).left = m.left from rfl,
      ← End.mergeOn_inner_right hfirst, h.whole]

/-- How a merge goes on has no part in what it has come to. -/
theorem Proper.paced (h : Proper le key P e target m) (pace : Pace) (patience : Nat) :
    Proper le key P e target { m with pace := pace, patience := patience } :=
  ⟨h.left, h.right, h.lastWord, h.whole⟩

/-- While something is left to compare, both runs have items. -/
theorem pos_of_not_done (h : m.done e = false) : 0 < m.left.size ∧ 0 < m.right.size := by
  cases e with
  | front =>
    simp only [done, Bool.or_eq_false_iff, decide_eq_false_iff_not, beq_eq_false_iff_ne] at h
    omega
  | back =>
    simp only [done, Bool.or_eq_false_iff, decide_eq_false_iff_not, beq_eq_false_iff_ne] at h
    omega

section

variable (hc : Compares less le key P) (h : Proper le key P e target m) {l r : α}
include hc h

theorem Proper.less_eq (hl : e.head? m.left = some l) (hr : e.head? m.right = some r) :
    less r l = .ok (!le (key l) (key r)) :=
  hc.less_eq (h.right.each r (End.notAfter_of_head? hc.order h.right hr).1)
    (h.left.each l (End.notAfter_of_head? hc.order h.left hl).1)

/-- Items of the left run that come out before the item at hand of the right one may be taken. -/
theorem Proper.takeLeft_of_head? (hr : e.head? m.right = some r)
    (hfirst : ∀ x ∈ e.outer n m.left.toList, e.leftFirst le key x r = true) :
    Proper le key P e target (m.takeLeft e n) := by
  have hnext := (End.notAfter_of_head? hc.order h.right hr).2
  exact h.takeLeft fun x hx y hy => End.leftFirst_right hc.order (hfirst x hx) (hnext y hy)

/-- Items of the right run that come out before the item at hand of the left one may be taken. -/
theorem Proper.takeRight_of_head? (hl : e.head? m.left = some l)
    (hfirst : ∀ y ∈ e.outer n m.right.toList, e.leftFirst le key l y = false) :
    Proper le key P e target (m.takeRight e n) := by
  have hnext := (End.notAfter_of_head? hc.order h.left hl).2
  exact h.takeRight fun y hy x hx => End.leftFirst_left hc.order (hfirst y hy) (hnext x hx)

omit hc h in
theorem run_of_done (hdone : m.done e = true) (turns : Nat) : m.run less e turns = .ok m := by
  cases turns with
  | zero => rfl
  | succ turns => rw [Merge.run, if_pos hdone]

/-- **Comparing the items at hand** takes the one that comes out first. -/
theorem Proper.single (hdone : m.done e = false) (fromLeft fromRight : Nat) :
    Advances le key P e target m.size (m.single less e fromLeft fromRight) := by
  obtain ⟨hleft, hright⟩ := pos_of_not_done hdone
  obtain ⟨l, hl, hl₁⟩ := e.exists_head? hleft
  obtain ⟨r, hr, hr₁⟩ := e.exists_head? hright
  have hfirst : (!le (key l) (key r)) = decide (e = .front) ↔
      e.leftFirst le key l r = false := by
    cases e <;> simp [leftFirst]
  rw [Merge.single, hl, hr]
  dsimp only
  rw [h.less_eq hc hl hr, ok_bind]
  split
  · next hsmaller =>
    have htaken := h.takeRight_of_head? hc (n := 1) hl (by simpa [hr₁] using hfirst.mp hsmaller)
    have hsize := m.size_takeRight e 1
    refine ⟨_, rfl, htaken.paced _ _, .inr ?_⟩
    simp only [size] at hsize ⊢
    omega
  · next hsmaller =>
    have htaken := h.takeLeft_of_head? hc (n := 1) hr (by simpa [hl₁] using mt hfirst.mpr hsmaller)
    have hsize := m.size_takeLeft e 1
    refine ⟨_, rfl, htaken.paced _ _, .inr ?_⟩
    simp only [size] at hsize ⊢
    omega

theorem Proper.exists_leftStretch (hne : 0 < m.left.size) (hr : e.head? m.right = some r) :
    ∃ n, m.leftStretch less e = .ok n ∧
      (∀ x ∈ e.outer n m.left.toList, e.leftFirst le key x r = true) ∧
      ∀ x ∈ e.inner n m.left.toList, e.leftFirst le key x r = false := by
  have hr' := h.right.each r (End.notAfter_of_head? hc.order h.right hr).1
  obtain ⟨n, hn, hbefore, hsince⟩ := hc.exists_after _ h.left hr'
  rw [leftStretch, hr]
  exact End.exists_stretch hn hbefore hsince hne e

theorem Proper.exists_rightStretch (hne : 0 < m.right.size) (hl : e.head? m.left = some l) :
    ∃ n, m.rightStretch less e = .ok n ∧
      (∀ y ∈ e.outer n m.right.toList, e.leftFirst le key l y = false) ∧
      ∀ y ∈ e.inner n m.right.toList, e.leftFirst le key l y = true := by
  have hl' := h.left.each l (End.notAfter_of_head? hc.order h.left hl).1
  obtain ⟨n, hn, hbefore, hsince⟩ := hc.exists_before _ h.right hl'
  rw [rightStretch, hl]
  exact End.exists_stretch hn hbefore hsince hne e

/-- A stretch of the left run may be taken, and then the item of the right run that ended it. -/
theorem Proper.exists_takeLeft (hdone : m.done e = false) :
    ∃ n, m.leftStretch less e = .ok n ∧ Proper le key P e target (m.takeLeft e n) ∧
      (m.takeLeft e n).size ≤ m.size ∧ ((m.takeLeft e n).done e = false →
        Proper le key P e target ((m.takeLeft e n).takeRight e 1) ∧
          ((m.takeLeft e n).takeRight e 1).size < (m.takeLeft e n).size) := by
  obtain ⟨hleft, hright⟩ := pos_of_not_done hdone
  obtain ⟨r, hr, hr₁⟩ := e.exists_head? hright
  obtain ⟨n, hn, houter, hinner⟩ := h.exists_leftStretch hc hleft hr
  have htaken := h.takeLeft_of_head? hc hr houter
  refine ⟨n, hn, htaken, ?_, fun hdone' => ⟨?_, ?_⟩⟩
  · rw [size_takeLeft, size]
    omega
  · -- The item behind the stretch does not come before the one that ended it.
    obtain ⟨l, hl, -⟩ := e.exists_head? (pos_of_not_done hdone').1
    have hl' := (End.notAfter_of_head? hc.order htaken.left hl).1
    rw [left_takeLeft] at hl'
    refine htaken.takeRight_of_head? hc hl fun y hy => ?_
    have hy : y ∈ e.outer 1 m.right.toList := hy
    rw [hr₁, List.mem_singleton] at hy
    exact hy ▸ hinner l hl'
  · rw [size_takeRight, size]
    have hright' := (pos_of_not_done hdone').2
    omega

/-- A stretch of the right run may be taken, and then the item of the left run that ended it. -/
theorem Proper.exists_takeRight (hdone : m.done e = false) :
    ∃ n, m.rightStretch less e = .ok n ∧ Proper le key P e target (m.takeRight e n) ∧
      (m.takeRight e n).size ≤ m.size ∧ ((m.takeRight e n).done e = false →
        Proper le key P e target ((m.takeRight e n).takeLeft e 1) ∧
          ((m.takeRight e n).takeLeft e 1).size < (m.takeRight e n).size) := by
  obtain ⟨hleft, hright⟩ := pos_of_not_done hdone
  obtain ⟨l, hl, hl₁⟩ := e.exists_head? hleft
  obtain ⟨n, hn, houter, hinner⟩ := h.exists_rightStretch hc hright hl
  have htaken := h.takeRight_of_head? hc hl houter
  refine ⟨n, hn, htaken, ?_, fun hdone' => ⟨?_, ?_⟩⟩
  · rw [size_takeRight, size]
    omega
  · obtain ⟨r, hr, -⟩ := e.exists_head? (pos_of_not_done hdone').2
    have hr' := (End.notAfter_of_head? hc.order htaken.right hr).1
    rw [right_takeRight] at hr'
    refine htaken.takeLeft_of_head? hc hr fun x hx => ?_
    have hx : x ∈ e.outer 1 m.left.toList := hx
    rw [hl₁, List.mem_singleton] at hx
    exact hx ▸ hinner r hr'
  · rw [size_takeLeft, size]
    have hleft' := (pos_of_not_done hdone').1
    omega

omit hc in
/-- A turn that has not come to its end goes on. -/
theorem Proper.unless_done {bound : Nat} {next : Except ε (Merge α)}
    (hnext : m.done e = false → Advances le key P e target bound next) :
    Advances le key P e target bound (if m.done e = true then .ok m else next) := by
  cases hdone : m.done e with
  | true => exact ⟨m, rfl, h, .inl hdone⟩
  | false => exact hnext hdone

/-- **Taking stretches** takes a stretch of either run, each with the item that ended it. -/
theorem Proper.round (hdone : m.done e = false) :
    Advances le key P e target m.size (m.round less e) := by
  obtain ⟨k, hk, h₁, hle₁, hnext₁⟩ := h.exists_takeLeft hc hdone
  rw [Merge.round, hk, ok_bind]
  refine h₁.unless_done fun hdone₁ => ?_
  obtain ⟨h₂, hlt₂⟩ := hnext₁ hdone₁
  refine h₂.unless_done fun hdone₂ => ?_
  obtain ⟨n, hn, h₃, hle₃, hnext₃⟩ := h₂.exists_takeRight hc hdone₂
  rw [hn, ok_bind]
  refine h₃.unless_done fun hdone₃ => ?_
  obtain ⟨h₄, hlt₄⟩ := hnext₃ hdone₃
  refine h₄.unless_done fun hdone₄ => ?_
  have hlt := Nat.lt_of_lt_of_le (Nat.lt_trans (Nat.lt_of_lt_of_le hlt₄ hle₃) hlt₂) hle₁
  split
  · exact ⟨_, rfl, h₄.paced _ _, .inr hlt⟩
  · exact ⟨_, rfl, h₄.paced _ _, .inr hlt⟩

/-- **All turns** together leave nothing to compare. -/
theorem Proper.run {turns : Nat} (hturns : m.size ≤ turns) :
    ∃ m', m.run less e turns = .ok m' ∧ Proper le key P e target m' ∧ m'.done e = true := by
  induction turns generalizing m with
  | zero =>
    refine ⟨m, rfl, h, ?_⟩
    cases hdone : m.done e with
    | true => rfl
    | false =>
      have hleft := (pos_of_not_done hdone).1
      rw [size] at hturns
      omega
  | succ turns ih =>
    cases hdone : m.done e with
    | true => exact ⟨m, run_of_done hdone _, h, hdone⟩
    | false =>
      have hrest : ∀ turn, Advances le key P e target m.size turn →
          ∃ m', (turn >>= Merge.run less e turns) = .ok m' ∧ Proper le key P e target m' ∧
            m'.done e = true := by
        rintro turn ⟨m', rfl, h', hdone' | hlt⟩
        · exact ⟨m', run_of_done hdone' _, h', hdone'⟩
        · exact ih h' (by omega)
      -- The pace decides before the turn is taken, so both kinds of turns need the rest.
      rw [Merge.run, hdone, if_neg Bool.false_ne_true]
      dsimp only
      cases m.pace with
      | single fromLeft fromRight => exact hrest _ (h.single hc hdone fromLeft fromRight)
      | galloping => exact hrest _ (h.round hc hdone)

end

/-- A run with one item at most is all one item. -/
theorem eq_singleton (hlength : xs.length ≤ 1) (hx : x ∈ xs) : xs = [x] := by
  have hpos : 0 < xs.length := List.length_pos_of_mem hx
  obtain ⟨z, rfl⟩ := List.length_eq_one_iff.mp (Nat.le_antisymm hlength hpos)
  rw [List.mem_singleton.mp hx]

/-- What is left then is in order once the right run is put before the left one. -/
theorem Proper.toList_items (h : Proper le key P e target m) (hdone : m.done e = true) :
    (m.items e).toList = target := by
  have happart : ∀ x ∈ m.left.toList, ∀ y ∈ m.right.toList, le (key x) (key y) = false := by
    have hlast := h.lastWord
    intro x hx y hy
    cases e with
    | front =>
      have hright : 0 < m.right.size := by simpa using List.length_pos_of_mem hy
      have hleft : m.left.toList.length ≤ 1 := by
        simpa [done, Nat.pos_iff_ne_zero.mp hright] using hdone
      exact hlast x (by simp [eq_singleton hleft hx]) y hy
    | back =>
      have hleft : 0 < m.left.size := by simpa using List.length_pos_of_mem hx
      have hright : m.right.toList.length ≤ 1 := by
        simpa [done, Nat.pos_iff_ne_zero.mp hleft] using hdone
      exact hlast y (by simp [eq_singleton hright hy]) x hx
  rw [← h.whole, mergeOn_of_apart happart]
  cases e with
  | front => simp [items, End.join, End.settled]
  | back => simp [items, End.join, End.settled]

/-- **A whole merge**, of runs the first and the last item of which are known. -/
theorem start_eq (hc : Compares less le key P) {left right : Subarray α}
    (hleft : IsRun le key P left.toList) (hright : IsRun le key P right.toList)
    (hlast : ∀ e : End, e.LastWord le key left.toList right.toList) (e : End) (patience : Nat) :
    ∃ items patience', start less e patience left right = .ok (items, patience') ∧
      items.toList = mergeOn le key left.toList right.toList := by
  have hstart : Proper le key P e (mergeOn le key left.toList right.toList)
      ⟨left, right, [], .single 0 0, patience⟩ :=
    ⟨hleft, hright, hlast e, by cases e <;> simp [End.join, End.settled]⟩
  -- The run that does not have the last word at this end has the first.
  have hfirst : ∃ m : Merge α, m.size ≤ left.size + right.size ∧
      Proper le key P e (mergeOn le key left.toList right.toList) m ∧
      start less e patience left right = (do
        let m ← m.run less e (left.size + right.size)
        pure (m.items e, m.patience)) := by
    cases e with
    | front =>
      refine ⟨_, ?_, hstart.takeRight (n := 1) fun y hy x hx => ?_, rfl⟩
      · rw [size_takeRight]
        dsimp only
        omega
      · simp only [End.outer, List.take_one, Option.mem_toList] at hy
        simpa [leftFirst] using hlast .back y hy x hx
    | back =>
      refine ⟨_, ?_, hstart.takeLeft (n := 1) fun x hx y hy => ?_, rfl⟩
      · rw [size_takeLeft]
        dsimp only
        omega
      · have hne : left.toList ≠ [] := by
          rintro hnil
          simp [End.outer, hnil] at hx
        simp only [End.outer, List.drop_length_sub_one hne, List.mem_singleton] at hx
        have hx : left.toList.getLast? = some x := hx ▸ List.getLast?_eq_some_getLast hne
        simpa [leftFirst] using hlast .front x hx y hy
  obtain ⟨m, hsize, hm, heq⟩ := hfirst
  obtain ⟨m', hrun, hm', hdone⟩ := hm.run hc hsize
  rw [heq, hrun]
  exact ⟨_, _, rfl, hm'.toList_items hdone⟩

end Merge

/-! ### Merging two runs -/

theorem toList_toSubarray (xs : Array α) (lo hi : Nat) :
    (xs.toSubarray lo hi).toList = (xs.toList.take hi).drop lo := Array.toList_mkSlice_rco

theorem toList_toSubarray_whole (xs : Array α) : xs.toSubarray.toList = xs.toList := by
  simp [toList_toSubarray]

theorem size_toSubarray_whole (xs : Array α) : xs.toSubarray.size = xs.size := by
  rw [← Subarray.length_toList, toList_toSubarray_whole, Array.length_toList]

section

variable (hc : Compares less le key P) {left right : Array α}
  (hleft : IsRun le key P left.toList) (hright : IsRun le key P right.toList)
include hc hleft hright

/-- What is left of two runs once the items in place are cut off has a first and a last item that
are known. -/
theorem Compares.start_cut_eq {first last : α} (hlast : left.toList.getLast? = some last)
    (hfirst : right.toList.head? = some first) {k n : Nat} (hk : k < left.size) (hn : n ≠ 0)
    (hgreater : ∀ x ∈ left.toList.drop k, le (key x) (key first) = false)
    (hsmaller : ∀ y ∈ right.toList.take n, le (key last) (key y) = false) (e : End)
    (patience : Nat) :
    ∃ items patience', Merge.start less e patience (left.toSubarray k left.size)
        (right.toSubarray 0 n) = .ok (items, patience') ∧
      items.toList = mergeOn le key (left.toList.drop k) (right.toList.take n) := by
  have hrest : (left.toSubarray k left.size).toList = left.toList.drop k := by
    rw [toList_toSubarray, List.take_of_length_le (Nat.le_of_eq Array.length_toList)]
  have hfront : (right.toSubarray 0 n).toList = right.toList.take n := by
    rw [toList_toSubarray, List.drop_zero]
  have hends : ∀ e : End, e.LastWord le key (left.toList.drop k) (right.toList.take n) := by
    intro e
    cases e with
    | front =>
      intro x hx y hy
      rw [List.getLast?_drop, if_neg (by simpa using hk), hlast] at hx
      exact Option.mem_some.mp hx ▸ hsmaller y hy
    | back =>
      intro y hy x hx
      rw [List.head?_take, if_neg hn, hfirst] at hy
      exact Option.mem_some.mp hy ▸ hgreater x hx
  rw [← hrest, ← hfront] at hends ⊢
  refine Merge.start_eq hc ?_ ?_ hends e patience
  · rw [hrest]
    exact hleft.sublist (List.drop_sublist ..)
  · rw [hfront]
    exact hright.sublist (List.take_sublist ..)

/-- **Merging two runs gives the plain merge**, with whatever patience. -/
theorem Compares.merge_eq (patience : Nat) :
    ∃ items patience', merge less patience left right = .ok (items, patience') ∧
      items.toList = mergeOn le key left.toList right.toList := by
  have hhead : right[0]? = right.toList.head? := by simp [List.head?_eq_getElem?]
  rw [merge, ← Array.getLast?_toList, hhead]
  cases hlast : left.toList.getLast? with
  | none => exact ⟨_, _, rfl, by simp [mergeOn, List.getLast?_eq_none_iff.mp hlast]⟩
  | some last =>
  cases hfirst : right.toList.head? with
  | none => exact ⟨_, _, rfl, by simp [mergeOn, List.head?_eq_none_iff.mp hfirst]⟩
  | some first =>
  obtain ⟨hl, hmax⟩ := End.notAfter_of_outermost? (e := .back) hc.order hleft hlast
  obtain ⟨hr, hmin⟩ := End.notAfter_of_outermost? (e := .front) hc.order hright hfirst
  obtain ⟨k, hk, hbefore, hgreater⟩ := hc.exists_after left.toSubarray
    (by rwa [toList_toSubarray_whole]) (hright.each first hr)
  obtain ⟨n, hn, hsmaller, hsince⟩ := hc.exists_before right.toSubarray
    (by rwa [toList_toSubarray_whole]) (hleft.each last hl)
  rw [toList_toSubarray_whole] at hbefore hgreater hsmaller hsince
  rw [size_toSubarray_whole] at hk hn
  have hleft' : 0 < left.size := by simpa using List.length_pos_of_mem hl
  have hright' : 0 < right.size := by simpa using List.length_pos_of_mem hr
  dsimp only
  rw [hk.gallop_eq hleft', ok_bind]
  split
  · next hall =>
    rw [hall, ← Array.length_toList, List.take_length] at hbefore
    refine ⟨_, _, rfl, ?_⟩
    rw [Array.toList_append, mergeOn, List.merge_of_le]
    exact fun x y hx hy => hc.order.trans _ _ _ (hbefore x hx) (hmin y hy)
  rw [hn.gallop_eq (by omega), ok_bind]
  split
  · next hnone =>
    rw [hnone, List.drop_zero] at hsince
    refine ⟨_, _, rfl, ?_⟩
    rw [Array.toList_append, mergeOn, List.merge_of_le]
    exact fun x y hx hy => hc.order.trans _ _ _ (hmax x hx) (hsince y hy)
  next hall hnone =>
  obtain ⟨items, patience', hstart, hitems⟩ := hc.start_cut_eq hleft hright hlast hfirst
    (Nat.lt_of_le_of_ne hk.le hall) hnone hgreater hsmaller
    (if (left.toSubarray k left.size).size ≤ (right.toSubarray 0 n).size then .front else .back)
    patience
  rw [hstart, ok_bind]
  refine ⟨_, _, rfl, ?_⟩
  rw [mergeOn_cut (k := k) (n := n)
    (fun x hx y hy => hc.order.trans _ _ _ (hbefore x hx) (hmin y hy))
    (fun x hx y hy => hc.order.trans _ _ _ (hmax x hx) (hsince y hy))]
  simp [hitems]

end

end LoweringIR.Sorting
