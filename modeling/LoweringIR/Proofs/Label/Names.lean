import LoweringIR.Label.Check
import Mathlib.Data.List.Induction
import Mathlib.Data.List.Nodup
import Mathlib.Tactic.Tauto

/-!
# Lists of names

The check of labels goes through two lists of names: the ones that head blocks, and all of them. On
the way it keeps what it has seen, latest first. What it decides is said here without that: no name
stands twice among the headings, and no two names share a mangled form.

A name that stands in a list more than once is *first seen* where it stands first, and the list of
first-seen names has them in the order of those places.

## Main results

* `firstRepeat?_eq_none_iff` — no name stands twice
* `pairwise_firstSeen` — first-seen names are in the order in which they are first seen
* `mapping_eq_ok_iff` — when the check succeeds, and with what
-/

namespace LoweringIR.Label

variable {names seen : List String} {n : String}

theorem firstRepeat?_eq_none_iff :
    firstRepeat? seen names = none ↔ names.Nodup ∧ ∀ n ∈ names, n ∉ seen := by
  induction names generalizing seen with
  | nil => simp [firstRepeat?]
  | cons n names ih =>
    rw [firstRepeat?]
    by_cases hn : n ∈ seen
    · simp [hn]
    · rw [if_neg (by simpa using hn), ih, List.nodup_cons, List.forall_mem_cons]
      constructor
      · rintro ⟨hnodup, hseen⟩
        exact ⟨⟨fun h => hseen n h (List.mem_cons_self ..), hnodup⟩, hn,
          fun m hm h => hseen m hm (List.mem_cons_of_mem _ h)⟩
      · rintro ⟨⟨hne, hnodup⟩, -, hseen⟩
        refine ⟨hnodup, fun m hm h => ?_⟩
        rcases List.mem_cons.mp h with rfl | h
        · exact hne hm
        · exact hseen m hm h

/-! ### First-seen names -/

theorem mem_firstSeen_iff : n ∈ firstSeen seen names ↔ n ∈ seen ∨ n ∈ names := by
  induction names generalizing seen with
  | nil => simp [firstSeen]
  | cons m names ih =>
    rw [firstSeen]
    split
    · next hm =>
      have hm : m ∈ seen := by simpa using hm
      rw [ih, List.mem_cons]
      constructor
      · tauto
      · rintro (h | rfl | h) <;> tauto
    · rw [ih, List.mem_cons, List.mem_cons]
      tauto

theorem nodup_firstSeen (h : seen.Nodup) : (firstSeen seen names).Nodup := by
  induction names generalizing seen with
  | nil => simpa [firstSeen] using h
  | cons m names ih =>
    rw [firstSeen]
    split
    · exact ih h
    · next hm => exact ih (List.nodup_cons.mpr ⟨by simpa using hm, h⟩)

/-- What is seen after more names is what is seen after fewer, and the last name if it is new. -/
theorem firstSeen_concat (seen names : List String) (n : String) :
    firstSeen seen (names ++ [n]) =
      firstSeen seen names ++ if n ∈ firstSeen seen names then [] else [n] := by
  induction names generalizing seen with
  | nil => by_cases hn : n ∈ seen <;> simp [firstSeen, hn]
  | cons m names ih =>
    rw [List.cons_append, firstSeen, firstSeen]
    split <;> exact ih _

variable {ι : Type} [LT ι] {places : List ι} {g : ι → Option String}

/-- **First-seen names are in the order in which they are first seen.** The names are found at
places in ascending order: of two of them, the one that comes first is found before the other is
found anywhere. -/
theorem pairwise_firstSeen (h : places.Pairwise (· < ·)) :
    (firstSeen [] (places.filterMap g)).Pairwise fun a b =>
      ∃ p ∈ places, g p = some a ∧ ∀ q ∈ places, g q = some b → p < q := by
  induction places using List.reverseRecOn with
  | nil => simp [firstSeen]
  | append_singleton places r ih =>
    obtain ⟨hplaces, -, hr⟩ := List.pairwise_append.mp h
    have hlast : ∀ p ∈ places, p < r := fun p hp => hr p hp r (by simp)
    have hold : (firstSeen [] (places.filterMap g)).Pairwise fun a b =>
        ∃ p ∈ places ++ [r], g p = some a ∧ ∀ q ∈ places ++ [r], g q = some b → p < q := by
      refine (ih hplaces).imp fun {a b} ⟨p, hp, ha, hb⟩ => ⟨p, by simp [hp], ha, ?_⟩
      intro q hq hqb
      rcases List.mem_append.mp hq with hq | hq
      · exact hb q hq hqb
      · rw [List.mem_singleton.mp hq]
        exact hlast p hp
    rw [List.filterMap_append]
    cases hn : g r with
    | none => simpa [hn] using hold
    | some n =>
      rw [show [r].filterMap g = [n] by simp [hn], firstSeen_concat]
      split
      · simpa using hold
      · next hnew =>
        refine List.pairwise_append.mpr ⟨hold, List.pairwise_singleton .., ?_⟩
        intro a ha b hb
        obtain rfl := List.mem_singleton.mp hb
        have hfound : ∀ a, a ∈ firstSeen [] (places.filterMap g) ↔ ∃ p ∈ places, g p = some a := by
          simp [mem_firstSeen_iff]
        obtain ⟨p, hp, hpa⟩ := (hfound a).mp ha
        refine ⟨p, by simp [hp], hpa, fun q hq hqb => ?_⟩
        rcases List.mem_append.mp hq with hq | hq
        · exact absurd ((hfound b).mpr ⟨q, hq, hqb⟩) hnew
        · rw [List.mem_singleton.mp hq]
          exact hlast p hp

/-! ### The mapping -/

theorem assign_eq_ok_iff {owned m : List (String × String)} :
    assign owned names = .ok m ↔
      (names.map mangle).Nodup ∧ (∀ n ∈ names, mangle n ∉ owned.map Prod.snd) ∧
        m = owned.reverse ++ names.map fun n => (n, mangle n) := by
  induction names generalizing owned with
  | nil => simp [assign, eq_comm]
  | cons n names ih =>
    rw [assign]
    cases ho : owned.find? fun o => o.2 == mangle n with
    | some o =>
      have hn : mangle n ∈ owned.map Prod.snd := by
        have heq : o.2 = mangle n := by simpa using List.find?_some ho
        exact heq ▸ List.mem_map_of_mem (List.mem_of_find?_eq_some ho)
      simp only [reduceCtorEq, false_iff]
      rintro ⟨-, hfree, -⟩
      exact hfree n (List.mem_cons_self ..) hn
    | none =>
      have hn : mangle n ∉ owned.map Prod.snd := by
        intro hmem
        obtain ⟨o, howned, heq⟩ := List.mem_map.mp hmem
        exact List.find?_eq_none.mp ho o howned (by simpa using heq)
      have hsplit : (∀ k ∈ names, mangle k ∉ ((n, mangle n) :: owned).map Prod.snd) ↔
          mangle n ∉ names.map mangle ∧ ∀ k ∈ names, mangle k ∉ owned.map Prod.snd := by
        simp only [List.map_cons, List.mem_cons, not_or, List.mem_map (f := mangle), not_exists,
          not_and]
        exact forall₂_and
      rw [ih, hsplit, List.map_cons, List.map_cons, List.nodup_cons, List.forall_mem_cons,
        List.reverse_cons, List.append_assoc, List.singleton_append]
      tauto

/-- **The check succeeds if no name heads two blocks and no two names share a mangled form**, and
gives every name its mangled form. -/
theorem mapping_eq_ok_iff {t : Tree} {m : List (String × String)} :
    mapping t = .ok m ↔
      (headings t).Nodup ∧ (∀ a ∈ collect t, ∀ b ∈ collect t, mangle a = mangle b → a = b) ∧
        m = (collect t).map fun n => (n, mangle n) := by
  have hcollect : (collect t).Nodup := nodup_firstSeen .nil
  rw [← List.nodup_map_iff_inj_on hcollect, mapping]
  cases hr : firstRepeat? [] (headings t) with
  | some n =>
    have hheadings : ¬ (headings t).Nodup := by
      intro h
      rw [firstRepeat?_eq_none_iff.mpr ⟨h, by simp⟩] at hr
      cases hr
    simp [hheadings]
  | none => simp [assign_eq_ok_iff, (firstRepeat?_eq_none_iff.mp hr).1]

end LoweringIR.Label
