import LoweringIR.Proofs.Outcome
import LoweringIR.Tree.Call
import Mathlib.Data.List.Nodup

/-!
# Arguments for all parameters

Whatever is built may be built from arguments given by position, by name, or both. When every
parameter is given one, the first by position and the others by name in whatever order, binding
finds each its place and gives the values back in the order of the parameters. That needs the names
of the parameters to be distinct, as the names of the fields of every kind are.

## Main definitions

* `Arguments.slotsFilled` — slots of which those of some names are filled

## Main results

* `Arguments.bind_split` — arguments for all parameters
* `Head.nodup_kind_fieldNames` — no two fields of a kind share a name, and none is called `kind`
* `Head.call_split`, `Head.call_zip` — so is calling for all fields
-/

namespace LoweringIR

namespace Arguments

variable {owner : String} {ps : List Parameter} {vs : List Value}

/-- Behind slots of other names, an empty slot is filled by an argument of its name. -/
theorem fill_empty {filled rest : List Slot} {p : Parameter} {v : Value}
    (hfilled : ∀ s ∈ filled, s.1.name ≠ p.name) (hrest : ∀ s ∈ rest, s.1.name ≠ p.name) :
    fill owner (filled ++ (p, none) :: rest) (p.name, v) =
      .ok (filled ++ (p, some v) :: rest) := by
  have hkeep : ∀ ss : List Slot, (∀ s ∈ ss, s.1.name ≠ p.name) →
      (ss.map fun s => if s.1.name = p.name then (s.1, some v) else s) = ss := by
    intro ss hss
    refine (List.map_congr_left fun s hs => ?_).trans ss.map_id
    rw [if_neg (hss s hs), id]
  have hfind : (filled ++ (p, none) :: rest).find? (fun s => s.1.name == p.name) =
      some (p, none) := by
    rw [List.find?_append, List.find?_eq_none.mpr fun s hs => by simp [hfilled s hs]]
    simp
  rw [fill, hfind]
  simp [hkeep filled hfilled, hkeep rest hrest]

/-- The slots of parameters that have values, those of some names filled. -/
def slotsFilled (filled : List String) (es : List (Parameter × Value)) : List Slot :=
  es.map fun e => (e.1, if e.1.name ∈ filled then some e.2 else none)

theorem slotsFilled_cons_of_notMem {filled : List String} {es : List (Parameter × Value)}
    {n : String} (hn : ∀ e ∈ es, e.1.name ≠ n) :
    slotsFilled (n :: filled) es = slotsFilled filled es := by
  refine List.map_congr_left fun e he => ?_
  simp [hn e he]

/-- An argument for a parameter fills its slot. -/
theorem fill_slotsFilled {filled : List String} {es : List (Parameter × Value)}
    {e : Parameter × Value} (hnames : (es.map fun e => e.1.name).Nodup) (he : e ∈ es)
    (hnew : e.1.name ∉ filled) :
    fill owner (slotsFilled filled es) (e.1.name, e.2) =
      .ok (slotsFilled (e.1.name :: filled) es) := by
  obtain ⟨before, after, rfl⟩ := List.append_of_mem he
  rw [List.map_append, List.map_cons, List.nodup_middle, List.nodup_cons, ← List.map_append]
    at hnames
  have hother : ∀ d ∈ before ++ after, d.1.name ≠ e.1.name := fun d hd heq =>
    hnames.1 (heq ▸ List.mem_map_of_mem (f := fun d : Parameter × Value => d.1.name) hd)
  rw [List.forall_mem_append] at hother
  have hslots : ∀ {ds : List (Parameter × Value)}, (∀ d ∈ ds, d.1.name ≠ e.1.name) →
      ∀ s ∈ slotsFilled filled ds, s.1.name ≠ e.1.name := by
    intro ds hds s hs
    obtain ⟨d, hd, rfl⟩ := List.mem_map.mp hs
    exact hds d hd
  have hleft : slotsFilled filled (before ++ e :: after) =
      slotsFilled filled before ++ (e.1, none) :: slotsFilled filled after := by
    simp [slotsFilled, hnew]
  have hright : slotsFilled (e.1.name :: filled) (before ++ e :: after) =
      slotsFilled filled before ++ (e.1, some e.2) :: slotsFilled filled after := by
    rw [← slotsFilled_cons_of_notMem hother.1, ← slotsFilled_cons_of_notMem hother.2]
    simp [slotsFilled]
  rw [hleft, hright, fill_empty (hslots hother.1) (hslots hother.2)]

/-- Arguments for different parameters fill slot after slot, in whatever order they come. -/
theorem foldlM_fill_slotsFilled {filled : List String} {es : List (Parameter × Value)}
    {named : List (String × Value)} (hnames : (es.map fun e => e.1.name).Nodup)
    (hnamed : ∀ a ∈ named, ∃ e ∈ es, (e.1.name, e.2) = a)
    (hnew : (named.map Prod.fst ++ filled).Nodup) :
    named.foldlM (fill owner) (slotsFilled filled es) =
      .ok (slotsFilled ((named.map Prod.fst).reverse ++ filled) es) := by
  induction named generalizing filled with
  | nil => rfl
  | cons a named ih =>
    obtain ⟨e, he, rfl⟩ := hnamed a (List.mem_cons_self ..)
    rw [List.map_cons, List.cons_append, List.nodup_cons] at hnew
    obtain ⟨hfresh, hrest⟩ := hnew
    rw [List.mem_append, not_or] at hfresh
    have hnext : (named.map Prod.fst ++ e.1.name :: filled).Nodup :=
      List.nodup_middle.mpr (List.nodup_cons.mpr ⟨by simpa using hfresh, hrest⟩)
    rw [List.foldlM_cons, fill_slotsFilled hnames he hfresh.2]
    refine (ih (fun a ha => hnamed a (List.mem_cons_of_mem _ ha)) hnext).trans ?_
    simp

/-- Slots that are all filled hold the values they were filled with. -/
theorem filterMap_zip_some (hlength : vs.length = ps.length) :
    (ps.zip (vs.map some)).filterMap (fun s => s.2 <|> s.1.fallback) = vs := by
  induction ps generalizing vs with
  | nil => simpa using hlength
  | cons p ps ih =>
    obtain _ | ⟨v, vs⟩ := vs
    · simp at hlength
    · have hothers := ih (Nat.succ.inj hlength)
      simpa using hothers

/-- The slots after some of the values by position are those of the first parameters filled. -/
theorem slots_take (hnames : (ps.map Parameter.name).Nodup) (hlength : vs.length = ps.length)
    (i : Nat) :
    slots ps (vs.take i) = slotsFilled ((ps.map Parameter.name).take i) (ps.zip vs) := by
  refine List.ext_getElem (by simp [slots, slotsFilled, hlength]) fun j hj hj' => ?_
  have hjps : j < ps.length := by simpa [slots] using hj
  have hmem : ps[j].name ∈ (ps.map Parameter.name).take i ↔ j < i := by
    rw [List.mem_take_iff_getElem]
    constructor
    · rintro ⟨l, hl, heq⟩
      have hj' : j < (ps.map Parameter.name).length := by simpa using hjps
      have heq' : (ps.map Parameter.name)[l] = (ps.map Parameter.name)[j] := by simpa using heq
      obtain rfl : l = j := (List.Nodup.getElem_inj_iff hnames).mp heq'
      exact (Nat.lt_min.mp hl).1
    · intro hji
      exact ⟨j, Nat.lt_min.mpr ⟨hji, by simpa using hjps⟩, by simp⟩
  have hvs : (vs.take i)[j]? = if j < i then some vs[j] else none := by
    rw [List.getElem?_take]
    split
    · exact List.getElem?_eq_getElem _
    · rfl
  simp [slots, slotsFilled, hmem, hvs]

/-- **Arguments for all parameters**, the first by position and the others by name in any order, are
the values of the parameters. -/
theorem bind_split (hnames : (ps.map Parameter.name).Nodup) (hlength : vs.length = ps.length)
    {i : Nat} {named : List (String × Value)}
    (hnamed : named.Perm (((ps.map Parameter.name).zip vs).drop i)) :
    bind owner ps ⟨vs.take i, named⟩ = .ok vs := by
  have hzip : ((ps.zip vs).map fun e => e.1.name) = ps.map Parameter.name := by
    rw [← Function.comp_def Parameter.name, ← List.map_map,
      List.map_fst_zip (Nat.le_of_eq hlength.symm)]
  have hkeys : (named.map Prod.fst).Perm ((ps.map Parameter.name).drop i) := by
    have := hnamed.map Prod.fst
    rwa [List.map_drop, List.map_fst_zip (by simp [hlength])] at this
  have hall : (named.map Prod.fst ++ (ps.map Parameter.name).take i).Perm
      (ps.map Parameter.name) := by
    refine (hkeys.append_right _).trans (List.perm_append_comm.trans ?_)
    rw [List.take_append_drop]
  have hmem : ∀ a ∈ named, ∃ e ∈ ps.zip vs, (e.1.name, e.2) = a := by
    intro a ha
    have ha' := List.mem_of_mem_drop (hnamed.mem_iff.mp ha)
    rw [List.zip_map_left, List.mem_map] at ha'
    exact ha'
  have hfill := @foldlM_fill_slotsFilled owner _ _ _ (hzip ▸ hnames) hmem
    (hall.nodup_iff.mpr hnames)
  have hfilled : slotsFilled ((named.map Prod.fst).reverse ++ (ps.map Parameter.name).take i)
      (ps.zip vs) = ps.zip (vs.map some) := by
    rw [List.zip_map_right]
    refine List.map_congr_left fun e he => ?_
    have hname : e.1.name ∈ named.map Prod.fst ++ (ps.map Parameter.name).take i :=
      hall.mem_iff.mpr (List.mem_map_of_mem (List.of_mem_zip he).1)
    rw [if_pos (by simpa using hname)]
    rfl
  have hmissing : (ps.zip (vs.map some)).filter (fun s => s.2.isNone && s.1.fallback.isNone) =
      [] := by
    rw [List.filter_eq_nil_iff]
    rintro ⟨p, v⟩ hs
    obtain ⟨w, -, rfl⟩ := List.mem_map.mp (List.of_mem_zip hs).2
    simp
  have hpositional : ¬ ps.length < (vs.take i).length := by
    rw [List.length_take, hlength]
    exact Nat.not_lt.mpr (Nat.min_le_right ..)
  rw [hfilled] at hfill
  rw [bind, slots_take hnames hlength]
  dsimp only
  rw [hfill, ok_bind, if_neg hpositional, hmissing, List.isEmpty_nil, if_pos rfl,
    filterMap_zip_some hlength]
  rfl

end Arguments

/-- No two fields of a kind share a name, and none is called `kind`. -/
theorem Head.nodup_kind_fieldNames (h : Head) : ("kind" :: h.fieldNames).Nodup := by
  rcases h with (⟨d, k⟩ | k | k | k) | _
  · cases d <;> cases k <;> decide
  · cases k <;> decide
  · cases k <;> decide
  · cases k <;> decide
  · decide

/-- No kind goes by the name of closure records. -/
theorem Kind.name_ne_closure (k : Kind) : k.name ≠ Head.closure.name := by
  rcases k with ⟨d, k⟩ | k | k | k
  · cases d <;> cases k <;> decide
  all_goals cases k <;> decide

theorem Head.nodup_fieldNames (h : Head) : h.fieldNames.Nodup :=
  (List.nodup_cons.mp h.nodup_kind_fieldNames).2

@[simp] theorem Head.map_name_parameters (h : Head) :
    h.parameters.map Parameter.name = h.fieldNames := by
  simp [parameters, Function.comp_def]

/-- Calling for all fields of what is built, by position or by name, is building from the values. -/
theorem Head.call_split {m : Type → Type → Type} [∀ ε, Monad (m ε)] [∀ ε, LawfulMonad (m ε)]
    [∀ ε, MonadExceptOf ε (m ε)] [Draws m] {h : Head} {vs : List Value}
    (hlength : vs.length = h.fieldNames.length) {i : Nat} {named : List (String × Value)}
    (hnamed : named.Perm ((h.fieldNames.zip vs).drop i)) :
    (h.call ⟨vs.take i, named⟩ : m BuildFault Value) = h.build vs := by
  have hbind := @Arguments.bind_split h.name h.parameters vs (by simpa using h.nodup_fieldNames)
    (by simpa [parameters] using hlength) i named (by simpa using hnamed)
  rw [call, hbind]
  exact pure_bind ..

/-- Calling for all fields by name and in order. -/
theorem Head.call_zip {h : Head} {vs : List Value} (hlength : vs.length = h.fieldNames.length) :
    (h.call ⟨[], h.fieldNames.zip vs⟩ : Except BuildFault Value) = h.build vs :=
  call_split (i := 0) hlength (List.Perm.refl _)

end LoweringIR
