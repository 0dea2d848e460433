import LoweringIR.Proofs.Sorting.Merge
import LoweringIR.Sorting.Runs
import Mathlib.Data.List.Chain

/-!
# Sorting by runs is stable sorting

Every run on the way holds a piece of the sequence, and holds it sorted. Such runs come about in
three ways, and of each it is shown that the run is the one stably sorted list of its piece: the
items at the front ascend already, or they strictly descend and are reversed, or items are inserted
one by one. Merging two neighbouring runs then gives the run of both pieces together.

What the stack is for, and which runs are merged when, has no part in this. Whatever the powers say,
the runs on the stack hold consecutive pieces of what has been read, so it is enough that no run is
lost.

## Main definitions

* `Sorts` — a run holds a piece of the sequence, sorted
* `Stacked` — the runs on a stack hold consecutive pieces

## Main results

* `mergeOn_arrangeOn` — the plain merge of two sorted pieces is the sorted arrangement of both
* `Compares.nextRun_sorts` — a run holds what was taken from the sequence
* `Compares.settle_stacked`, `Compares.push_stacked`, `Compares.collapse_sorts` — what the stack
  preserves
* `Compares.sort_eq` — sorting does not fail, and gives the sorted arrangement
-/

namespace LoweringIR.Sorting

open Arrangement (IsOrder arrangeOn)

variable {α β ε : Type} {less : α → α → Except ε Bool} {le : β → β → Bool} {key : α → β}
  {P : α → Prop} {xs ys as bs : List α} {x y z : α}

/-! ### Pieces of a sequence -/

/-- The plain merge keeps the items of one key in order, those of the first list first. -/
theorem filter_mergeOn [DecidableEq β] (ho : IsOrder le)
    (hxs : xs.Pairwise fun x y => le (key x) (key y) = true) (k : β) :
    (mergeOn le key xs ys).filter (fun x => key x = k) =
      xs.filter (fun x => key x = k) ++ ys.filter fun x => key x = k := by
  induction xs generalizing ys with
  | nil => simp [mergeOn]
  | cons x xs ihx =>
    induction ys with
    | nil => simp [mergeOn]
    | cons y ys ihy =>
      by_cases hxy : le (key x) (key y) = true
      · have hrest := @ihx (y :: ys) hxs.of_cons
        rw [mergeOn] at hrest
        rw [mergeOn, List.cons_merge_cons, if_pos hxy, List.filter_cons, hrest,
          List.filter_cons (x := x)]
        split <;> rfl
      · rw [mergeOn] at ihy
        rw [mergeOn, List.cons_merge_cons, if_neg hxy, List.filter_cons, ihy]
        split
        · next hy =>
          -- All items of the first list have keys that are greater than `k`.
          have hnone : (x :: xs).filter (fun x => key x = k) = [] := by
            rw [List.filter_eq_nil_iff]
            intro z hz hzk
            have hxz : le (key x) (key z) = true := by
              rcases List.mem_cons.mp hz with rfl | hz
              · exact ho.refl _
              · exact List.rel_of_pairwise_cons hxs hz
            rw [of_decide_eq_true hzk, ← of_decide_eq_true hy] at hxz
            exact hxy hxz
          rw [hnone, List.filter_cons, if_pos hy]
          rfl
        · next hy => rw [List.filter_cons (x := y), if_neg hy]

/-- **The plain merge of two sorted pieces** is the sorted arrangement of both. -/
theorem mergeOn_arrangeOn (ho : IsOrder le) (as bs : List α) :
    mergeOn le key (arrangeOn le key .sorted as) (arrangeOn le key .sorted bs) =
      arrangeOn le key .sorted (as ++ bs) := by
  classical
  refine (Arrangement.stablySorted_iff ho).mp ⟨?_, ?_, fun k => ?_⟩
  · exact (List.merge_perm_append _).trans
      ((Arrangement.arrangeOn_perm ..).append (Arrangement.arrangeOn_perm ..))
  · exact List.pairwise_merge (fun x y z => ho.trans (key x) (key y) (key z))
      (fun x y => ho.total (key x) (key y)) _ _ (Arrangement.pairwise_arrangeOn_sorted ho as)
      (Arrangement.pairwise_arrangeOn_sorted ho bs)
  · rw [filter_mergeOn ho (Arrangement.pairwise_arrangeOn_sorted ho as),
      Arrangement.filter_arrangeOn_sorted ho, Arrangement.filter_arrangeOn_sorted ho,
      List.filter_append]

/-- A run holds a piece of the sequence, sorted. -/
structure Sorts (le : β → β → Bool) (key : α → β) (P : α → Prop) (run : Array α) (piece : List α) :
    Prop where
  each : ∀ x ∈ piece, P x
  toList : run.toList = arrangeOn le key .sorted piece

theorem Sorts.isRun {run : Array α} (ho : IsOrder le) (h : Sorts le key P run as) :
    IsRun le key P run.toList := by
  rw [h.toList]
  refine ⟨fun x hx => ?_, Arrangement.pairwise_arrangeOn_sorted ho as⟩
  exact h.each x ((Arrangement.arrangeOn_perm ..).mem_iff.mp hx)

theorem sorts_nil : Sorts le key P #[] [] :=
  ⟨fun _ hx => absurd hx List.not_mem_nil, by simp [arrangeOn]⟩

/-- Items that ascend are a run. -/
theorem sorts_ascending (hP : ∀ x ∈ xs, P x)
    (h : xs.Pairwise fun x y => le (key x) (key y) = true) : Sorts le key P xs.toArray xs :=
  ⟨hP, (List.mergeSort_of_pairwise h).symm⟩

/-- Items that strictly descend are a run when they are reversed. -/
theorem sorts_descending (ho : IsOrder le) (hP : ∀ x ∈ xs, P x)
    (h : xs.Pairwise fun x y => le (key x) (key y) = false) :
    Sorts le key P xs.reverse.toArray xs := by
  have hnodup : (xs.map key).Nodup := by
    rw [List.nodup_iff_pairwise_ne, List.pairwise_map]
    refine h.imp fun {x y} hxy hkey => ?_
    rw [hkey, ho.refl] at hxy
    cases hxy
  have hascending : xs.reverse.Pairwise fun x y => le (key x) (key y) = true := by
    refine List.pairwise_reverse.mpr (h.imp fun {x y} hxy => ?_)
    simpa [hxy] using ho.total (key x) (key y)
  refine ⟨hP, ?_⟩
  calc xs.reverse.toArray.toList = xs.reverse := rfl
    _ = arrangeOn le key .sorted xs.reverse := (List.mergeSort_of_pairwise hascending).symm
    _ = arrangeOn le key .sorted xs :=
      (Arrangement.arrangeOn_eq_of_perm ho (List.reverse_perm xs).symm
        fun x hx y hy => List.inj_on_of_nodup_map hnodup hx hy).symm

section

variable (hc : Compares less le key P)
include hc

/-- **Merging two runs** gives the run of both pieces. -/
theorem Compares.merge_sorts {left right : Array α} (hleft : Sorts le key P left as)
    (hright : Sorts le key P right bs) (patience : Nat) :
    ∃ items patience', merge less patience left right = .ok (items, patience') ∧
      Sorts le key P items (as ++ bs) := by
  obtain ⟨items, patience', hmerge, hitems⟩ :=
    hc.merge_eq (hleft.isRun hc.order) (hright.isRun hc.order) patience
  refine ⟨items, patience', hmerge, fun x hx => ?_, ?_⟩
  · exact (List.mem_append.mp hx).elim (hleft.each x) (hright.each x)
  · rw [hitems, hleft.toList, hright.toList, mergeOn_arrangeOn hc.order]

/-! ### Cutting off a run -/

omit hc in
theorem toList_insertIdxIfInBounds (run : Array α) (n : Nat) (x : α) :
    (run.insertIdxIfInBounds n x).toList = run.toList.insertIdx n x := by
  obtain ⟨items⟩ := run
  rw [List.insertIdxIfInBounds_toArray]

/-- **Inserting an item** gives the run of a piece that is longer by it. -/
theorem Compares.insert_sorts {run : Array α} (hrun : Sorts le key P run as) (hx : P x) :
    ∃ run', insert less run x = .ok run' ∧ Sorts le key P run' (as ++ [x]) := by
  obtain ⟨n, hn, hbefore, hsince⟩ := hc.exists_after run.toSubarray
    (by rw [toList_toSubarray_whole]; exact hrun.isRun hc.order) hx
  rw [toList_toSubarray_whole] at hbefore hsince
  rw [size_toSubarray_whole] at hn
  refine ⟨run.insertIdxIfInBounds n x, ?_, fun z hz => ?_, ?_⟩
  · rw [insert, hn.bisect_eq (Nat.zero_le _) hn.le (Nat.le_refl _)]
    rfl
  · rcases List.mem_append.mp hz with hz | hz
    · exact hrun.each z hz
    · exact List.mem_singleton.mp hz ▸ hx
  · have hsingle : arrangeOn le key .sorted [x] = [x] := by simp [arrangeOn]
    rw [← mergeOn_arrangeOn hc.order, hsingle, ← hrun.toList]
    obtain ⟨front, back, hparts, rfl, hinsert⟩ :=
      List.exists_of_modifyTailIdx (List.cons x) (l := run.toList) (by simpa using hn.le)
    rw [hparts, List.take_left] at hbefore
    rw [hparts, List.drop_left] at hsince
    have hmerge : mergeOn le key (front ++ back) [x] = front ++ x :: back := by
      rw [mergeOn_cut (k := front.length) (n := 1) (by simpa using hbefore) (by simp)]
      have hback : mergeOn le key back [x] = [x] ++ back :=
        mergeOn_of_apart (by simpa using hsince)
      simp [hback]
    rw [toList_insertIdxIfInBounds, List.insertIdx, hinsert, hparts, hmerge]

/-- **Inserting items one by one** gives the run of a piece that is longer by them. -/
theorem Compares.insertAll_sorts {run : Array α} (hrun : Sorts le key P run as)
    (bs : List α) (hbs : ∀ x ∈ bs, P x) :
    ∃ run', bs.foldlM (insert less) run = .ok run' ∧ Sorts le key P run' (as ++ bs) := by
  induction bs generalizing run as with
  | nil => exact ⟨run, rfl, by rwa [List.append_nil]⟩
  | cons x bs ih =>
    obtain ⟨run₁, hrun₁, h₁⟩ := hc.insert_sorts hrun (hbs x (List.mem_cons_self ..))
    obtain ⟨run', hrun', h'⟩ := ih h₁ fun z hz => hbs z (List.mem_cons_of_mem _ hz)
    rw [List.foldlM_cons, hrun₁, ok_bind]
    exact ⟨run', hrun', by rwa [List.append_assoc] at h'⟩

/-- A run goes on as long as neighbours compare alike. -/
theorem Compares.exists_runLength (hx : P x) (hxs : ∀ y ∈ xs, P y) (descending : Bool)
    (count : Nat) :
    ∃ n, runLength less descending x count xs = .ok (count + n) ∧
      (x :: xs.take n).IsChain fun x y => le (key x) (key y) = !descending := by
  induction xs generalizing x count with
  | nil => exact ⟨0, rfl, by simp⟩
  | cons y xs ih =>
    have hy := hxs y (List.mem_cons_self ..)
    rw [runLength, hc.less_eq hy hx]
    dsimp only
    split
    · next hsmaller =>
      obtain ⟨n, hn, hchain⟩ := ih hy (fun z hz => hxs z (List.mem_cons_of_mem _ hz)) (count + 1)
      refine ⟨n + 1, by rw [hn]; congr 1; omega, ?_⟩
      rw [List.take_succ_cons, List.isChain_cons_cons]
      exact ⟨by rw [← hsmaller, Bool.not_not], hchain⟩
    · exact ⟨0, rfl, by simp⟩

omit hc in
/-- Neighbours that compare alike are a run, reversed if they descend. -/
theorem sorts_of_isChain (ho : IsOrder le) (descending : Bool) (xs : List α)
    (hP : ∀ x ∈ xs, P x) (h : xs.IsChain fun x y => le (key x) (key y) = !descending) :
    Sorts le key P (if descending then xs.reverse else xs).toArray xs := by
  cases descending with
  | false =>
    have : Trans (fun x y : α => le (key x) (key y) = true) (fun x y => le (key x) (key y) = true)
        fun x y => le (key x) (key y) = true := ⟨fun h h' => ho.trans _ _ _ h h'⟩
    exact sorts_ascending hP (List.isChain_iff_pairwise.mp h)
  | true =>
    have : Trans (fun x y : α => le (key x) (key y) = false)
        (fun x y => le (key x) (key y) = false) fun x y => le (key x) (key y) = false := by
      refine ⟨fun {x y z} hxy hyz => ?_⟩
      have hzy : le (key z) (key y) = true := by simpa [hyz] using ho.total (key y) (key z)
      rw [← Bool.not_eq_true] at hxy ⊢
      exact fun hxz => hxy (ho.trans _ _ _ hxz hzy)
    exact sorts_descending ho hP (List.isChain_iff_pairwise.mp h)

/-- **Cutting off a run** takes items from the sequence, at least one, which the run holds. -/
theorem Compares.nextRun_sorts (hxs : ∀ x ∈ xs, P x) (hne : xs ≠ []) (least : Nat) :
    ∃ run piece rest, nextRun less least xs = .ok (run, rest) ∧ xs = piece ++ rest ∧
      piece ≠ [] ∧ Sorts le key P run piece := by
  obtain ⟨x, rest, rfl⟩ := List.exists_cons_of_ne_nil hne
  cases rest with
  | nil =>
    exact ⟨_, [x], [], rfl, rfl, hne, sorts_ascending hxs (List.pairwise_singleton ..)⟩
  | cons y rest =>
    have hx := hxs x (List.mem_cons_self ..)
    have hy := hxs y (List.mem_cons_of_mem _ (List.mem_cons_self ..))
    have hrest : ∀ z ∈ rest, P z := fun z hz => hxs z (by simp [hz])
    obtain ⟨n, hn, hchain⟩ := hc.exists_runLength hy hrest (!le (key x) (key y)) 0
    rw [Nat.zero_add] at hn
    have hrun := sorts_of_isChain hc.order (!le (key x) (key y)) (x :: y :: rest.take n)
      (fun z hz => hxs z (by
        simp only [List.mem_cons] at hz ⊢
        exact hz.imp_right (.imp_right List.mem_of_mem_take)))
      (List.isChain_cons_cons.mpr ⟨(Bool.not_not _).symm, hchain⟩)
    rw [nextRun, hc.less_eq hy hx, ok_bind, hn, ok_bind]
    dsimp only
    generalize (if (!le (key x) (key y)) = true then (x :: y :: rest.take n).reverse
      else x :: y :: rest.take n).toArray = run at hrun ⊢
    obtain ⟨run', hrun', h'⟩ := hc.insertAll_sorts hrun ((rest.drop n).take (least - run.size))
      fun z hz => hrest z (List.mem_of_mem_drop (List.mem_of_mem_take hz))
    rw [hrun', ok_bind]
    refine ⟨_, _, _, rfl, ?_, ?_, h'⟩
    · simp
    · simp

/-! ### The stack -/

/-- The runs on a stack, the latest first, hold consecutive pieces of a sequence. -/
inductive Stacked (le : β → β → Bool) (key : α → β) (P : α → Prop) :
    List (Run α) → List α → Prop
  | nil : Stacked le key P [] []
  | cons {run : Run α} {rest : List (Run α)} {as bs : List α} (below : Stacked le key P rest as)
      (top : Sorts le key P run.items bs) : Stacked le key P (run :: rest) (as ++ bs)

variable {runs rest : List (Run α)} {s : Stack α}

/-- Merging the latest two runs does not change what a stack holds. -/
theorem Compares.merge_stacked {top next : Run α} (h : Stacked le key P (top :: next :: rest) xs)
    (patience : Nat) :
    ∃ items patience', merge less patience next.items top.items = .ok (items, patience') ∧
      ∀ start power, Stacked le key P (⟨start, items, power⟩ :: rest) xs := by
  obtain _ | ⟨hnext, htop⟩ := h
  obtain _ | ⟨hrest, hnext⟩ := hnext
  obtain ⟨items, patience', hmerge, hitems⟩ := hc.merge_sorts hnext htop patience
  refine ⟨items, patience', hmerge, fun start power => ?_⟩
  rw [List.append_assoc]
  exact .cons hrest hitems

/-- **Settling** loses no run. -/
theorem Compares.settle_stacked (h : Stacked le key P runs xs) (hne : runs ≠ [])
    (power patience : Nat) :
    ∃ s, settle less power patience runs = .ok s ∧ Stacked le key P s.runs xs ∧ s.runs ≠ [] := by
  fun_induction settle less power patience runs with
  | case1 patience top next rest hlt e he =>
    obtain ⟨items, patience', hmerge, -⟩ := hc.merge_stacked h patience
    rw [hmerge] at he
    cases he
  | case2 patience top next rest hlt items patience' he ih =>
    obtain ⟨_, _, hmerge, hstacked⟩ := hc.merge_stacked h patience
    rw [hmerge] at he
    cases he
    exact ih (hstacked ..) (List.cons_ne_nil _ _)
  | case3 patience top next rest hle => exact ⟨_, rfl, h, hne⟩
  | case4 patience runs hruns => exact ⟨_, rfl, h, hne⟩

/-- **Putting a run onto the stack** adds its piece. -/
theorem Compares.push_stacked {run : Array α} (h : Stacked le key P s.runs as)
    (hrun : Sorts le key P run bs) (length : Nat) :
    ∃ s', s.push less length run = .ok s' ∧ Stacked le key P s'.runs (as ++ bs) := by
  rw [Stack.push]
  split
  · next hruns =>
    rw [hruns] at h
    exact ⟨_, rfl, .cons h hrun⟩
  · next top rest hruns =>
    rw [hruns] at h
    obtain ⟨settled, hsettled, hstacked, hne⟩ :=
      hc.settle_stacked h (List.cons_ne_nil _ _)
        (boundaryPower length top.start top.items.size run.size) s.patience
    dsimp only
    rw [hsettled, ok_bind]
    split
    · -- Settling leaves a run, so there is one to put the new one behind.
      next hnil => exact absurd hnil hne
    · next top rest hruns =>
      rw [hruns] at hstacked
      obtain _ | ⟨hbelow, htop⟩ := hstacked
      exact ⟨_, rfl, .cons (.cons hbelow htop) hrun⟩

/-- **Merging all runs** leaves one run of the whole sequence. -/
theorem Compares.collapse_sorts (h : Stacked le key P runs xs) (patience : Nat) :
    ∃ items, collapse less patience runs = .ok items ∧ Sorts le key P items xs := by
  fun_induction collapse less patience runs with
  | case1 patience top next third rest hlt e he =>
    obtain _ | ⟨hbelow, htop⟩ := h
    obtain ⟨items, patience', hmerge, -⟩ := hc.merge_stacked hbelow patience
    rw [hmerge] at he
    cases he
  | case2 patience top next third rest hlt items patience' he ih =>
    obtain _ | ⟨hbelow, htop⟩ := h
    obtain ⟨_, _, hmerge, hstacked⟩ := hc.merge_stacked hbelow patience
    rw [hmerge] at he
    cases he
    exact ih (.cons (hstacked ..) htop)
  | case3 patience top next third rest hle e he =>
    obtain ⟨items, patience', hmerge, -⟩ := hc.merge_stacked h patience
    rw [hmerge] at he
    cases he
  | case4 patience top next third rest hle items patience' he ih =>
    obtain ⟨_, _, hmerge, hstacked⟩ := hc.merge_stacked h patience
    rw [hmerge] at he
    cases he
    exact ih (hstacked ..)
  | case5 patience top next =>
    obtain ⟨items, patience', hmerge, hstacked⟩ := hc.merge_stacked h patience
    rw [hmerge, ok_bind]
    obtain _ | ⟨hbelow, hitems⟩ := hstacked 0 0
    cases hbelow
    exact ⟨items, rfl, hitems⟩
  | case6 patience top =>
    obtain _ | ⟨hbelow, htop⟩ := h
    cases hbelow
    exact ⟨top.items, rfl, htop⟩
  | case7 patience =>
    cases h
    exact ⟨#[], rfl, sorts_nil⟩

/-! ### Sorting -/

/-- **Reading a sequence** puts all of it onto the stack. -/
theorem Compares.gather_stacked {bound : Nat} (h : Stacked le key P s.runs as)
    (hxs : ∀ x ∈ xs, P x) (hbound : xs.length ≤ bound) (length : Nat) :
    ∃ s', gather less length bound xs s = .ok s' ∧ Stacked le key P s'.runs (as ++ xs) := by
  induction bound generalizing s as xs with
  | zero =>
    obtain rfl := List.length_eq_zero_iff.mp (Nat.le_zero.mp hbound)
    exact ⟨s, rfl, by rwa [List.append_nil]⟩
  | succ bound ih =>
    by_cases hne : xs = []
    · subst hne
      exact ⟨s, rfl, by rwa [List.append_nil]⟩
    · obtain ⟨run, piece, rest, hnext, rfl, hpiece, hrun⟩ :=
        hc.nextRun_sorts hxs hne (leastRun length 0)
      obtain ⟨s₁, hpush, h₁⟩ := hc.push_stacked h hrun length
      have hlength : rest.length ≤ bound := by
        have hpos := List.length_pos_of_ne_nil hpiece
        rw [List.length_append] at hbound
        omega
      obtain ⟨s', hgather, h'⟩ := ih h₁ (fun x hx => hxs x (List.mem_append_right _ hx)) hlength
      refine ⟨s', ?_, by rwa [List.append_assoc] at h'⟩
      rw [gather, if_neg (by simpa using hne), hnext, ok_bind]
      dsimp only
      rw [hpush, ok_bind, hgather]

/-- **Sorting by runs does not fail and is stable**: it gives the sorted arrangement. -/
theorem Compares.sort_eq (hxs : ∀ x ∈ xs, P x) :
    sort less xs = .ok (arrangeOn le key .sorted xs) := by
  obtain ⟨s, hgather, hstacked⟩ :=
    hc.gather_stacked (s := ⟨[], worthwhile⟩) .nil hxs (Nat.le_refl _) xs.length
  obtain ⟨items, hcollapse, hitems⟩ := hc.collapse_sorts hstacked s.patience
  rw [sort, hgather, ok_bind, hcollapse, ok_bind, hitems.toList]
  rfl

end

end LoweringIR.Sorting
