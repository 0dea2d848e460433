import LoweringIR.Arrangement
import Mathlib.Data.List.Nodup

/-!
# What sorting forgets

The sorted arrangement of a collection depends on what the collection holds and not on the order in
which it was given, as long as equal keys belong to equal items. Sets of names and sets of frames
are their own keys. Entries are sorted by name alone, and two entries of one name keep the order
they were given in, so for entries the condition is a real one: no name occurs twice.

Where keys are shared, sorting is stable. That it permutes, ascends and is stable fixes what it
does, so these three may stand for it in statements.

## Main definitions

* `Arrangement.StablySorted` — a list in ascending order, with equal keys in the order they had

## Main results

* `Arrangement.arrangeOn_eq_of_perm` — one list is one sorted list in every order
* `Arrangement.names_eq_of_perm`, `frames_eq_of_perm`, `entries_eq_of_perm`, `graph_eq_of_perm`
* `Arrangement.stablySorted_iff` — there is one stably sorted list, the sorted arrangement
-/

namespace LoweringIR.Arrangement

variable {α β γ : Type}

/-- The comparison is a total order. -/
structure IsOrder (le : β → β → Bool) : Prop where
  trans : ∀ x y z, le x y = true → le y z = true → le x z = true
  total : ∀ x y, (le x y || le y x) = true
  antisymm : ∀ x y, le x y = true → le y x = true → x = y

theorem nameLE_isOrder : IsOrder nameLE where
  trans x y z := by simpa [nameLE] using fun h h' => String.le_trans h h'
  total x y := by simpa [nameLE] using String.le_total x y
  antisymm x y := by simpa [nameLE] using fun h h' => String.le_antisymm h h'

theorem namesLE_isOrder : IsOrder namesLE where
  trans x y z := by simpa [namesLE] using fun h h' => List.le_trans h h'
  total x y := by simpa [namesLE] using List.le_total x y
  antisymm x y := by simpa [namesLE] using fun h h' => List.le_antisymm h h'

variable {le : β → β → Bool} {key : α → β}

theorem pairwise_arrangeOn_sorted (h : IsOrder le) (as : List α) :
    (arrangeOn le key .sorted as).Pairwise fun x y => le (key x) (key y) = true :=
  List.pairwise_mergeSort (fun x y z => h.trans (key x) (key y) (key z))
    (fun x y => h.total (key x) (key y)) as

/-- **One list is one sorted list in every order**, if its keys tell its items apart. -/
theorem arrangeOn_eq_of_perm (h : IsOrder le) {as bs : List α} (hp : as.Perm bs)
    (hkey : ∀ x ∈ as, ∀ y ∈ as, key x = key y → x = y) :
    arrangeOn le key .sorted as = arrangeOn le key .sorted bs := by
  have hperm : (arrangeOn le key .sorted as).Perm (arrangeOn le key .sorted bs) :=
    ((arrangeOn_perm ..).trans hp).trans (arrangeOn_perm ..).symm
  refine hperm.eq_of_pairwise (fun x y hx hy hxy hyx => ?_) (pairwise_arrangeOn_sorted h as)
    (pairwise_arrangeOn_sorted h bs)
  have hx : x ∈ as := (arrangeOn_perm ..).mem_iff.mp hx
  have hy : y ∈ as := hp.mem_iff.mpr ((arrangeOn_perm ..).mem_iff.mp hy)
  exact hkey x hx y hy (h.antisymm _ _ hxy hyx)

/-- Sorting does not look at what is no key. -/
theorem map_arrangeOn (a : Arrangement) {key' : γ → β} {f : α → γ} (hf : ∀ x, key' (f x) = key x)
    (as : List α) :
    (arrangeOn le key a as).map f = arrangeOn le key' a (as.map f) := by
  cases a with
  | insertion => rfl
  | sorted => exact List.map_mergeSort fun x _ y _ => by rw [hf, hf]

/-! ### Stable sorting

What sorting does to a collection is fixed by three properties, whatever the algorithm. -/

theorem IsOrder.refl (h : IsOrder le) (x : β) : le x x = true := by
  simpa using h.total x x

/-- `bs` is `as` in ascending order of keys, with the items of one key in the order they had. -/
structure StablySorted [DecidableEq β] (le : β → β → Bool) (key : α → β) (as bs : List α) :
    Prop where
  perm : bs.Perm as
  ascending : bs.Pairwise fun x y => le (key x) (key y) = true
  stable : ∀ k, bs.filter (fun x => key x = k) = as.filter fun x => key x = k

/-- Of lists in ascending order there is one only, once the items of every key are given. -/
theorem eq_of_filter_eq [DecidableEq β] (h : IsOrder le) {bs cs : List α}
    (hbs : bs.Pairwise fun x y => le (key x) (key y) = true)
    (hcs : cs.Pairwise fun x y => le (key x) (key y) = true)
    (hkeys : ∀ k, bs.filter (fun x => key x = k) = cs.filter fun x => key x = k) : bs = cs := by
  induction bs generalizing cs with
  | nil =>
    cases cs with
    | nil => rfl
    | cons c cs => simpa using hkeys (key c)
  | cons b bs ih =>
    cases cs with
    | nil => simpa using hkeys (key b)
    | cons c cs =>
      have hleast : ∀ {x : α} {xs : List α},
          (x :: xs).Pairwise (fun x y => le (key x) (key y) = true) → ∀ y ∈ x :: xs,
            le (key x) (key y) = true := by
        intro x xs hpair y hy
        rcases List.mem_cons.mp hy with rfl | hy
        · exact h.refl _
        · exact List.rel_of_pairwise_cons hpair hy
      have hb : b ∈ (c :: cs).filter fun x => key x = key b := hkeys (key b) ▸ by simp
      have hc : c ∈ (b :: bs).filter fun x => key x = key c := hkeys (key c) ▸ by simp
      -- The first items have the least keys, so they have one key, of which each is the first item.
      have hkey : key b = key c :=
        h.antisymm _ _ (hleast hbs c (List.mem_of_mem_filter hc))
          (hleast hcs b (List.mem_of_mem_filter hb))
      have hfirst := hkeys (key b)
      rw [List.filter_cons_of_pos (by simp), List.filter_cons_of_pos (by simp [hkey])] at hfirst
      obtain ⟨rfl, -⟩ := List.cons.inj hfirst
      refine congrArg (b :: ·) (ih hbs.of_cons hcs.of_cons fun k => ?_)
      have hk := hkeys k
      by_cases hbk : key b = k
      · rw [List.filter_cons_of_pos (by simp [hbk]), List.filter_cons_of_pos (by simp [hbk])] at hk
        exact (List.cons.inj hk).2
      · rwa [List.filter_cons_of_neg (by simp [hbk]), List.filter_cons_of_neg (by simp [hbk])] at hk

theorem filter_arrangeOn_sorted [DecidableEq β] (h : IsOrder le) (as : List α) (k : β) :
    (arrangeOn le key .sorted as).filter (fun x => key x = k) = as.filter fun x => key x = k := by
  have hpair : (as.filter fun x => key x = k).Pairwise fun x y => le (key x) (key y) = true := by
    refine List.pairwise_of_forall_mem_list fun x hx y hy => ?_
    have hx : key x = k := by simpa using (List.mem_filter.mp hx).2
    have hy : key y = k := by simpa using (List.mem_filter.mp hy).2
    rw [hx, hy]
    exact h.refl k
  have hsub : (as.filter fun x => key x = k).Sublist (arrangeOn le key .sorted as) :=
    List.sublist_mergeSort (fun x y z => h.trans (key x) (key y) (key z))
      (fun x y => h.total (key x) (key y)) hpair List.filter_sublist
  have hsub' := hsub.filter fun x => key x = k
  rw [List.filter_filter] at hsub'
  simp only [Bool.and_self] at hsub'
  refine (hsub'.eq_of_length ?_).symm
  exact (((arrangeOn_perm le key .sorted as).filter _).length_eq).symm

/-- **Sorting is the stable sort**, and nothing else is. -/
theorem stablySorted_iff [DecidableEq β] (h : IsOrder le) {as bs : List α} :
    StablySorted le key as bs ↔ bs = arrangeOn le key .sorted as := by
  constructor
  · rintro ⟨-, hascending, hstable⟩
    refine eq_of_filter_eq h hascending (pairwise_arrangeOn_sorted h as) fun k => ?_
    rw [hstable, filter_arrangeOn_sorted h]
  · rintro rfl
    exact ⟨arrangeOn_perm .., pairwise_arrangeOn_sorted h as, filter_arrangeOn_sorted h as⟩

/-- What is in ascending order stays as it is. -/
theorem arrangeOn_arrangeOn (h : IsOrder le) (a : Arrangement) (as : List α) :
    arrangeOn le key a (arrangeOn le key a as) = arrangeOn le key a as := by
  cases a with
  | insertion => rfl
  | sorted => exact List.mergeSort_of_pairwise (pairwise_arrangeOn_sorted h as)

/-! ### The four collections -/

theorem names_eq_of_perm {ns ms : List String} (h : ns.Perm ms) :
    sorted.names ns = sorted.names ms :=
  arrangeOn_eq_of_perm nameLE_isOrder h fun _ _ _ _ h => h

theorem frames_eq_of_perm {fs gs : List (List String)} (h : fs.Perm gs) :
    sorted.frames fs = sorted.frames gs :=
  arrangeOn_eq_of_perm namesLE_isOrder h fun _ _ _ _ h => h

theorem entries_eq_of_perm {es ds : List (String × α)} (h : es.Perm ds)
    (hkeys : (es.map Prod.fst).Nodup) : sorted.entries es = sorted.entries ds :=
  arrangeOn_eq_of_perm nameLE_isOrder h fun _ hx _ hy => List.inj_on_of_nodup_map hkeys hx hy

/-- A graph may be sorted inside before it is sorted as a whole. -/
theorem graph_eq (a : Arrangement) (g : List (String × List String)) :
    a.graph g = a.entries (g.map fun e => (e.1, a.names e.2)) := by
  rw [graph, entries, entries]
  refine map_arrangeOn a ?_ g
  exact fun _ => rfl

/-- A graph that is sorted stays as it is. -/
theorem graph_graph (g : List (String × List String)) :
    sorted.graph (sorted.graph g) = sorted.graph g := by
  have hentries : sorted.entries (sorted.graph g) = sorted.graph g := by
    rw [graph_eq]
    exact arrangeOn_arrangeOn nameLE_isOrder ..
  have hnames : ∀ ns, sorted.names (sorted.names ns) = sorted.names ns :=
    arrangeOn_arrangeOn nameLE_isOrder _
  rw [graph, hentries, graph, List.map_map]
  exact List.map_congr_left fun e _ => by simp [hnames]

end LoweringIR.Arrangement
