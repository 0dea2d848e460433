import LoweringIR.Tree.Decode

/-!
# The parts of a document value

A document value is made of parts: the items of an array, and the values of the members of an
object. The member that makes an object a description is no part of it. What it says is looked at
where the description is met, and nothing further is made of its value.

To decoding, document values are values. Each form of value goes over into its own, so what decoding
does with the entries of a dictionary can be said of the members of an object.

## Main definitions

* `Json.fieldMembers`, `Json.parts` — the parts of an object, and of any value
* `Json.Within` — a value occurs in another one, at any depth

## Main results

* `Json.induct` — induction with the hypothesis for every part
* `Value.ofJson_arr`, `Value.ofJson_obj` — arrays and objects as values
-/

namespace LoweringIR

namespace Json

/-- The members of an object besides its kind. -/
def fieldMembers (members : List (String × Json)) : List (String × Json) :=
  members.filter fun m => m.1 ≠ "kind"

/-- The parts of a value in the order of the document. -/
def parts : Json → List Json
  | arr items => items
  | obj members => (fieldMembers members).map Prod.snd
  | _ => []

/-- A value occurs in another one if it is that value or a part of one that does. -/
inductive Within (d : Json) : Json → Prop
  | root : Within d d
  | part {j k : Json} (h : Within d j) (hk : k ∈ j.parts) : Within d k

variable {d j k : Json} {key : String} {members : List (String × Json)}

theorem fieldMembers_cons (m : String × Json) (ms : List (String × Json)) :
    fieldMembers (m :: ms) = if m.1 = "kind" then fieldMembers ms else m :: fieldMembers ms := by
  by_cases h : m.1 = "kind" <;> simp [fieldMembers, h]

theorem mem_fieldMembers {m : String × Json} :
    m ∈ fieldMembers members ↔ m ∈ members ∧ m.1 ≠ "kind" := by
  simp [fieldMembers]

theorem mem_parts_obj_of_mem {m : String × Json} (h : m ∈ fieldMembers members) :
    m.2 ∈ (obj members).parts :=
  List.mem_map_of_mem h

/-- An object without a kind has no members besides those that are its parts. -/
theorem fieldMembers_of_kindless (h : get? "kind" members = none) :
    fieldMembers members = members := by
  induction members with
  | nil => rfl
  | cons m ms ih =>
    rw [get?] at h
    split at h
    · cases h
    · next hm => rw [fieldMembers_cons, if_neg hm, ih h]

theorem get?_map (g : Json → Json) (key : String) (members : List (String × Json)) :
    get? key (members.map fun m => (m.1, g m.2)) = (get? key members).map g := by
  induction members with
  | nil => rfl
  | cons m ms ih =>
    rw [List.map_cons, get?, get?, ih]
    split <;> rfl

theorem fieldMembers_map {α : Type} (g : α → Json) (ms : List (String × α)) :
    fieldMembers (ms.map fun m => (m.1, g m.2)) =
      (ms.filter fun m => m.1 ≠ "kind").map fun m => (m.1, g m.2) := by
  rw [fieldMembers, List.filter_map]
  rfl

theorem get?_eq_none_iff : get? key members = none ↔ key ∉ members.map Prod.fst := by
  induction members with
  | nil => simp [get?]
  | cons m ms ih =>
    rw [get?]
    split
    · next hm => simp [hm]
    · next hm => simp [ih, Ne.symm hm]

theorem isSome_get?_iff : (get? key members).isSome ↔ key ∈ members.map Prod.fst := by
  rw [Option.isSome_iff_ne_none, Ne, get?_eq_none_iff, Classical.not_not]

/-- A member is found by its name, if no other has the same. -/
theorem get?_eq_some_of_mem (names : (members.map Prod.fst).Nodup) (hj : (key, j) ∈ members) :
    get? key members = some j := by
  induction members with
  | nil => cases hj
  | cons m ms ih =>
    rw [List.map_cons, List.nodup_cons] at names
    rw [get?]
    rcases List.mem_cons.mp hj with rfl | hj
    · rw [if_pos rfl]
    · have hne : m.1 ≠ key := fun heq =>
        names.1 (heq ▸ List.mem_map_of_mem (f := Prod.fst) hj)
      rw [if_neg hne, ih names.2 hj]

/-- Induction on document values, with the hypothesis for every part. -/
theorem induct {P : Json → Prop} (step : ∀ j, (∀ k ∈ j.parts, P k) → P j) : ∀ j, P j :=
  fun j => @Json.rec P (fun js => ∀ k ∈ js, P k) (fun ms => ∀ m ∈ ms, P m.2) (fun m => P m.2)
    (step _ (by simp [parts])) (fun b => step (.bool b) (by simp [parts]))
    (fun n => step (.int n) (by simp [parts])) (fun x => step (.float x) (by simp [parts]))
    (fun s => step (.str s) (by simp [parts])) (fun items ih => step (.arr items) ih)
    (fun ms ih => step (.obj ms) fun k hk => by
      obtain ⟨m, hm, rfl⟩ := List.mem_map.mp hk
      exact ih m (mem_fieldMembers.mp hm).1)
    (by simp) (fun j js hj hjs => by simpa using ⟨hj, hjs⟩)
    (by simp) (fun m ms hm hms => by simpa [hm] using hms) (fun _ _ h => h) j

end Json

namespace Value

variable {members : List (String × Json)}

theorem ofJsonItems_eq (js : List Json) : ofJsonItems js = js.map ofJson := by
  induction js with
  | nil => simp [ofJsonItems]
  | cons j js ih => simp [ofJsonItems, ih]

theorem ofJsonMembers_eq (ms : List (String × Json)) :
    ofJsonMembers ms = ms.map fun m => (str m.1, ofJson m.2) := by
  induction ms with
  | nil => simp [ofJsonMembers]
  | cons m ms ih => simp [ofJsonMembers, ih]

@[simp] theorem ofJson_arr (items : List Json) : ofJson (.arr items) = list (items.map ofJson) := by
  rw [ofJson, ofJsonItems_eq]

@[simp] theorem ofJson_obj (members : List (String × Json)) :
    ofJson (.obj members) = dict (members.map fun m => (str m.1, ofJson m.2)) := by
  rw [ofJson, ofJsonMembers_eq]

@[simp] theorem ofJson_str (s : String) : ofJson (.str s) = str s := by
  rw [ofJson]

/-- An entry is found where its member is. -/
theorem find?_map_ofJson (key : String) (members : List (String × Json)) :
    find? key (members.map fun m => (str m.1, ofJson m.2)) =
      (Json.get? key members).map ofJson := by
  induction members with
  | nil => rfl
  | cons m ms ih =>
    rw [find?] at ih ⊢
    by_cases h : m.1 = key <;> simp_all [isText, Json.get?]

/-- The entries of the fields are those of the members besides the kind. -/
theorem fieldEntries_map_ofJson (members : List (String × Json)) :
    fieldEntries (members.map fun m => (str m.1, ofJson m.2)) =
      (Json.fieldMembers members).map fun m => (str m.1, ofJson m.2) := by
  rw [fieldEntries, Json.fieldMembers, List.filter_map]
  refine congrArg _ (List.filter_congr fun m _ => ?_)
  by_cases h : m.1 = "kind" <;> simp [isText, kindKey, h]

end Value

end LoweringIR
