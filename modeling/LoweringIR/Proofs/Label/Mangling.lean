import LoweringIR.Label.Mangle
import Mathlib.Data.List.Forall2
import Mathlib.Data.List.Nodup

/-!
# Mangling as one map

A name is mangled in passes, one for each character that is replaced, and a pass goes over what the
pass before it has left. It could find there what that pass has put in. It does not: no pass puts in
what another one replaces, and no two replace one character. Such passes are *independent*, and the
order in which they are made is not seen in what they make.

What they make is the name with every character mapped by `mangleChar`. Characters are merged by it
in three pairs and otherwise kept apart, so names that share a mangled form are as long as each
other and differ only where each of them has one of a pair.

## Main definitions

* `Label.passes`, `Label.Independent` — passes over a name, and when their order does not matter
* `Label.Alike` — characters that are emitted alike

## Main results

* `Label.passes_eq_of_perm` — independent passes may be made in any order
* `Label.mangleChar_eq_iff`, `Label.mangle_eq_iff` — what mangling cannot tell apart
* `Label.mangle_simultaneous` — mangling is one map of characters, and its collisions are known
-/

namespace LoweringIR.Label

variable {s t : String} {a b c d : Char} {ps qs : List (Char × Char)}

/-! ### Passes -/

/-- Goes over a name once for every pair, replacing the first by the second. -/
def passes (ps : List (Char × Char)) (s : String) : String :=
  ps.foldl (fun s p => replaceChar p.1 p.2 s) s

/-- No pass undoes, extends or anticipates another one. -/
structure Independent (ps : List (Char × Char)) : Prop where
  /-- No character is replaced by two passes. -/
  distinct : (ps.map Prod.fst).Nodup
  /-- What a pass puts in is not replaced. -/
  settled : ∀ p ∈ ps, p.2 ∉ ps.map Prod.fst

theorem independent_substitutions : Independent substitutions where
  distinct := by decide
  settled := by decide

/-- Two passes may be exchanged if neither finds what the other puts in. -/
theorem replaceChar_comm (hac : a ≠ c) (hbc : b ≠ c) (hda : d ≠ a) (s : String) :
    replaceChar c d (replaceChar a b s) = replaceChar a b (replaceChar c d s) := by
  rw [← String.toList_inj]
  simp only [replaceChar, String.toList_ofList, List.map_map]
  refine List.map_congr_left fun x _ => ?_
  simp only [Function.comp_apply]
  by_cases hxa : x = a
  · subst hxa
    rw [if_pos rfl, if_neg hbc, if_neg hac, if_pos rfl]
  · rw [if_neg hxa]
    by_cases hxc : x = c
    · rw [if_pos hxc, if_neg hda]
    · rw [if_neg hxc, if_neg hxa]

/-- **Independent passes may be made in any order.** -/
theorem passes_eq_of_perm (h : Independent ps) (hperm : ps.Perm qs) (s : String) :
    passes ps s = passes qs s := by
  refine hperm.foldl_eq' (fun p hp q hq s => ?_) s
  by_cases hpq : p = q
  · rw [hpq]
  · have hmem : ∀ {r}, r ∈ ps → r.1 ∈ ps.map Prod.fst := List.mem_map_of_mem
    refine replaceChar_comm (fun heq => hpq ?_) ?_ ?_ s
    · exact List.inj_on_of_nodup_map h.distinct hp hq heq
    · exact fun heq => h.settled p hp (heq ▸ hmem hq)
    · exact fun heq => h.settled q hq (heq ▸ hmem hp)

/-! ### One map -/

theorem mangle_eq_map (s : String) : mangle s = s.map mangleChar := by
  rw [← String.toList_inj, toList_mangle, String.toList_map]

theorem mangle_append (s t : String) : mangle (s ++ t) = mangle s ++ mangle t := by
  rw [← String.toList_inj, toList_mangle, String.toList_append, String.toList_append,
    toList_mangle, toList_mangle, List.map_append]

/-- Nothing is left of what is replaced. -/
theorem mangleChar_notMem (c : Char) : mangleChar c ∉ substitutions.map Prod.fst := by
  unfold mangleChar
  split
  · decide
  · split
    · decide
    · split
      · decide
      · simp [substitutions, *]

/-! ### Collisions -/

/-- The characters are equal, or they are a replaced one and the one in its place. -/
def Alike (c d : Char) : Prop :=
  c = d ∨ (c ∈ ['-', '_'] ∧ d ∈ ['-', '_']) ∨ (c ∈ ['?', 'q'] ∧ d ∈ ['?', 'q']) ∨
    (c ∈ ['!', 'l'] ∧ d ∈ ['!', 'l'])

instance (c d : Char) : Decidable (Alike c d) := inferInstanceAs (Decidable (_ ∨ _))

/-- Mangling merges characters in pairs. -/
theorem mangleChar_eq_iff : mangleChar c = mangleChar d ↔ Alike c d := by
  unfold mangleChar Alike
  grind

/-- **What mangling cannot tell apart** are names that are alike, character by character. -/
theorem mangle_eq_iff : mangle s = mangle t ↔ List.Forall₂ Alike s.toList t.toList := by
  rw [← String.toList_inj, toList_mangle, toList_mangle, ← List.forall₂_eq_eq_eq,
    List.forall₂_map_left_iff, List.forall₂_map_right_iff]
  simp only [mangleChar_eq_iff]

/-- Lists are related member by member if what they have at each position is. -/
theorem forall₂_iff_getElem? {α β : Type} {R : α → β → Prop} {as : List α} {bs : List β} :
    List.Forall₂ R as bs ↔
      as.length = bs.length ∧ ∀ (i : Nat) a b, as[i]? = some a → bs[i]? = some b → R a b := by
  rw [List.forall₂_iff_get]
  refine and_congr_right fun _ => ⟨?_, ?_⟩
  · intro h i a b ha hb
    obtain ⟨hi, rfl⟩ := List.getElem?_eq_some_iff.mp ha
    obtain ⟨hj, rfl⟩ := List.getElem?_eq_some_iff.mp hb
    exact h i hi hj
  · intro h i hi hj
    exact h i _ _ (List.getElem?_eq_getElem hi) (List.getElem?_eq_getElem hj)

/-- **Mangling is one map of characters.** Its passes may be made in any order. It keeps the length
of a name, leaves no character that is replaced, changes nothing when it is repeated, and may be
applied to the parts of a name. Two names share a mangled form if they are of one length and alike
at every position, and only then. -/
theorem mangle_simultaneous (s : String) :
    mangle s = s.map mangleChar ∧
    (∀ ps, ps.Perm substitutions → passes ps s = mangle s) ∧
    (mangle s).length = s.length ∧
    (∀ c ∈ ['-', '?', '!'], c ∉ (mangle s).toList) ∧
    mangle (mangle s) = mangle s ∧
    (∀ t, mangle (s ++ t) = mangle s ++ mangle t) ∧
    ∀ t, mangle s = mangle t ↔
      s.length = t.length ∧
        ∀ (i : Nat) c d, s.toList[i]? = some c → t.toList[i]? = some d → Alike c d := by
  have hnone : ∀ c ∈ ['-', '?', '!'], c ∉ (mangle s).toList := by
    intro c hc hmem
    rw [toList_mangle] at hmem
    obtain ⟨d, -, rfl⟩ := List.mem_map.mp hmem
    exact mangleChar_notMem d hc
  refine ⟨mangle_eq_map s, fun ps hps => ?_, ?_, hnone, mangle_mangle s, mangle_append s,
    fun t => ?_⟩
  · exact (passes_eq_of_perm independent_substitutions hps.symm s).symm
  · rw [mangle_eq_map, String.length_map]
  · rw [mangle_eq_iff, forall₂_iff_getElem?, String.length_toList, String.length_toList]

/-- Passes in the opposite order, names that cannot be told apart, and names that can. -/
theorem mangle_mixedName :
    passes [('!', 'l'), ('?', 'q'), ('-', '_')] "a-b?!" = "a_bql" ∧
      mangle "a-b?!" = mangle "a_bq!" ∧ mangle "a-b?!" ≠ mangle "a-bl!" := by
  obtain ⟨-, hpasses, -, -, -, -, hiff⟩ := mangle_simultaneous "a-b?!"
  refine ⟨(hpasses _ (by decide)).trans (by decide), (hiff _).mpr ⟨by decide, ?_⟩, fun heq => ?_⟩
  · exact (forall₂_iff_getElem?.mp (by decide)).2
  · have hthird : ¬ Alike '?' 'l' := by decide
    exact hthird (((hiff _).mp heq).2 3 '?' 'l' rfl rfl)

end LoweringIR.Label
