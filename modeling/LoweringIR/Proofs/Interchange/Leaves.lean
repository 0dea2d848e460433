import LoweringIR.Proofs.Interchange.Documented
import Mathlib.Data.List.Flatten
import Mathlib.Data.Multiset.Defs

/-!
# What is lost in decoding

The leaves of a document are its scalars, except that what kind a description is of is not counted.
Putting a document into another form moves leaves and adds some: a key that becomes the first item
of a pair is a leaf then, and free variables that were left out become an empty array. So nothing
should ever be lost between a document and what its tree is encoded to.

There is one way to lose something. An object without a kind that stands where a sequence or a pair
is asked for is taken for its keys, and what stands under the keys is gone. Nothing else loses
anything: as long as the objects without a kind that have leaves are the values of mapping fields,
as they are in documents of the documented shape, every leaf of the document is found again, as
often as it was there.

## Main definitions

* `Json.leaves` — the scalars in a document
* `Json.LeavesInMappings` — only mapping fields have leaves under keys
* `Json.KeepsLeaves` — what a value is taken for has all leaves still

## Main results

* `Json.keepsLeaves_of` — everything in a document with leaves in mappings only does so
* `Tree.leaves_le_encode` — so has the encoding of the tree that a document describes
* `Tree.leaves_keyedNames` — but not if the names in a list of names are the keys of an object
-/

namespace LoweringIR

namespace Json

mutual

/-- The scalars in a value, in order. The kind of a description is not one of them. -/
def leaves : Json → List Json
  | .arr items => leavesOfItems items
  | .obj members => leavesOfMembers members
  | j => [j]

/-- The scalars in items. -/
def leavesOfItems : List Json → List Json
  | [] => []
  | j :: js => leaves j ++ leavesOfItems js

/-- The scalars in the values of members besides the kind. -/
def leavesOfMembers : List (String × Json) → List Json
  | [] => []
  | m :: ms => if m.1 = "kind" then leavesOfMembers ms else leaves m.2 ++ leavesOfMembers ms

end

variable {f : Family} {field : Option Shape} {i : Intake} {j : Json} {g : Json → Json}
  {items : List Json} {members : List (String × Json)}

@[simp] theorem leaves_arr (items : List Json) : leaves (.arr items) = items.flatMap leaves := by
  rw [leaves]
  induction items with
  | nil => rfl
  | cons j js ih => rw [leavesOfItems, ih, List.flatMap_cons]

@[simp] theorem leaves_obj (members : List (String × Json)) :
    leaves (.obj members) = (fieldMembers members).flatMap fun m => m.2.leaves := by
  rw [leaves]
  induction members with
  | nil => rfl
  | cons m ms ih =>
    rw [leavesOfMembers, ih, fieldMembers_cons]
    split
    · rfl
    · rw [List.flatMap_cons]

/-- An object without a kind is the value of a mapping field if there are any leaves in it. -/
def LeavesInMappings (f : Family) (d : Json) : Prop :=
  d.EachKindless (fun field j => j.leaves ≠ [] → field.any Shape.isMapping) f none

instance (f : Family) (d : Json) : Decidable (LeavesInMappings f d) :=
  inferInstanceAs (Decidable (∀ o ∈ d.occurrences f none, o.2.isKindless → o.2.leaves ≠ [] → _))

theorem Documented.leavesInMappings {d : Json} (h : d.Documented f) : d.LeavesInMappings f :=
  fun o ho hkindless _ => h o ho hkindless

theorem subperm_flatMap {α β : Type} {as : List α} {g h : α → List β}
    (hgh : ∀ a ∈ as, (g a).Subperm (h a)) : (as.flatMap g).Subperm (as.flatMap h) := by
  induction as with
  | nil => exact List.Subperm.refl _
  | cons a as ih =>
    rw [List.flatMap_cons, List.flatMap_cons]
    exact (hgh a (List.mem_cons_self ..)).append
      (ih fun b hb => hgh b (List.mem_cons_of_mem _ hb))

/-- An array that is taken for something has all leaves still if all items have. -/
theorem leaves_subperm_take_arr
    (h : ∀ k ∈ items, ∀ i : Intake, k.leaves.Subperm (i.take (g k)).leaves) (i : Intake) :
    (Json.arr items).leaves.Subperm (i.take (.arr (items.map g))).leaves := by
  have hmap : ∀ i : Intake,
      (Json.arr items).leaves.Subperm (Json.arr ((items.map g).map i.take)).leaves := by
    intro i
    rw [leaves_arr, leaves_arr, List.map_map, List.flatMap_map]
    exact subperm_flatMap fun k hk => h k hk i
  have hwhole : (Json.arr items).leaves.Subperm (Json.arr (items.map g)).leaves := by
    simpa only [show Intake.whole.take = fun j => j from rfl, List.map_id'] using hmap .whole
  cases i with
  | whole => exact hwhole
  | items i => exact hmap i
  | pairs i => exact hmap (.pair i)
  | records => exact hmap .record
  | pair i =>
    rcases items with _ | ⟨a, _ | ⟨b, _ | _⟩⟩
    case cons.cons.nil =>
      have hab := (h a (by simp) .whole).append (h b (by simp) i)
      simpa [Intake.take, keyArray, mapSecond] using hab
    all_goals exact hwhole
  | record =>
    rcases items with _ | ⟨a, _ | ⟨b, _ | ⟨c, _ | _⟩⟩⟩
    case cons.cons.cons.nil =>
      have habc := (h a (by simp) .whole).append
        ((h b (by simp) .whole).append (h c (by simp) (.items .whole)))
      rw [Intake.take_items_whole] at habc
      simpa [Intake.take, mapThird, closureOf, fieldMembers] using habc
    all_goals exact hwhole

/-- A description that is arranged has all leaves still if its fields have. -/
theorem leaves_subperm_arranged {present : Shape → Json → Json} {h : Head}
    (hmembers : ∀ m ∈ members, m.1 ≠ "kind")
    (hfields : ∀ m ∈ members, m.2.leaves.Subperm (h.presented present (m.1, g m.2)).2.leaves) :
    (members.flatMap fun m => m.2.leaves).Subperm
      (h.arranged present (members.map fun m => (m.1, g m.2))).leaves := by
  have hsublist : (members.map fun m => h.presented present (m.1, g m.2)).Sublist
      (fieldMembers ((h.completed (members.map fun m => (m.1, g m.2))).map
        (h.presented present))) := by
    have hkept : fieldMembers (members.map fun m => h.presented present (m.1, g m.2)) =
        members.map fun m => h.presented present (m.1, g m.2) := by
      rw [fieldMembers, List.filter_eq_self, List.forall_mem_map]
      intro m hm
      simpa [Head.presented_fst] using hmembers m hm
    have hcompleted := ((h.sublist_completed (members.map fun m => (m.1, g m.2))).map
      (h.presented present)).filter fun m => m.1 ≠ "kind"
    rw [← hkept]
    simpa only [fieldMembers, List.map_map, Function.comp_def] using hcompleted
  have hordered := ((inOrder_perm h.fieldNames ((h.completed
    (members.map fun m => (m.1, g m.2))).map (h.presented present))).filter
      fun m => m.1 ≠ "kind").flatMap_right fun m : String × Json => m.2.leaves
  have hpresented : (members.flatMap fun m => m.2.leaves).Subperm
      ((members.map fun m => h.presented present (m.1, g m.2)).flatMap fun m => m.2.leaves) := by
    rw [List.flatMap_map]
    exact subperm_flatMap hfields
  rw [Head.arranged, leaves_obj, fieldMembers_cons, if_pos rfl]
  exact (hpresented.trans (hsublist.flatMap _).subperm).trans hordered.symm.subperm

/-- What a value is taken for has all leaves still, by whatever suits the field. -/
def KeepsLeaves (f : Family) (field : Option Shape) (j : Json) : Prop :=
  ∀ i : Intake, i.Suits field → j.leaves.Subperm (i.take (j.taken f)).leaves

namespace KeepsLeaves

theorem kindless (hkind : get? "kind" members = none)
    (hfield : (Json.obj members).leaves ≠ [] → field.any Shape.isMapping = true)
    (h : ∀ m ∈ members, KeepsLeaves f none m.2) : KeepsLeaves f field (.obj members) := by
  have hself : (Json.obj members).isKindless := isKindless_obj.mpr hkind
  have htaken : (Json.obj (members.map fun m => (m.1, m.2.taken f))).isKindless := by
    rwa [isKindless_map]
  intro i hi
  rw [taken_of_kindless hkind]
  cases i with
  | items | pair =>
    have hleaves : (Json.obj members).leaves = [] := by
      by_contra hne
      rw [hi rfl] at hfield
      cases hfield hne
    rw [hleaves]
    exact List.nil_subperm
  | pairs i =>
    rw [Intake.take_pairs_kindless htaken, leaves_obj, fieldMembers_of_kindless hkind,
      leaves_arr, List.map_map, List.flatMap_map]
    refine subperm_flatMap fun m hm => (h m hm i i.suits_none).trans ?_
    simpa using (List.sublist_append_right ..).subperm
  | whole | record | records =>
    show (Json.obj members).leaves.Subperm
      (Json.obj (members.map fun m => (m.1, m.2.taken f))).leaves
    rw [leaves_obj, leaves_obj, fieldMembers_of_kindless hkind,
      fieldMembers_of_kindless (isKindless_obj.mp htaken), List.flatMap_map]
    exact subperm_flatMap fun m hm => h m hm .whole (Intake.suits_none _)

theorem description (hkind : (Json.obj members).isKindless = false)
    (h : ∀ m ∈ fieldMembers members,
      KeepsLeaves f ((head? f members).bind fun h => h.shape? m.1) m.2) :
    KeepsLeaves f field (.obj members) := by
  intro i _
  have htake : i.take (taken f (.obj members)) = taken f (.obj members) := take_arrange hkind
  rw [htake]
  cases hh : head? f members with
  | none => rw [taken, arrange_of_unknown hkind hh]
  | some head =>
    rw [taken_of_head? hh, leaves_obj]
    refine leaves_subperm_arranged (fun m hm => (mem_fieldMembers.mp hm).2) fun m hm => ?_
    have hfield := h m hm
    rw [hh, Option.bind_some] at hfield
    unfold Head.presented
    split
    · next s hs =>
      rw [hs] at hfield
      exact hfield s.intake s.suits_intake
    · exact hfield .whole (Intake.suits_whole _)

end KeepsLeaves

/-- **What a value is taken for has all leaves still**, wherever it may stand. -/
theorem keepsLeaves_of
    (h : EachKindless (fun field j => j.leaves ≠ [] → field.any Shape.isMapping) f field j) :
    KeepsLeaves f field j := by
  induction j using Json.induct generalizing field with
  | step j ih =>
    cases j with
    | arr items =>
      intro i _
      rw [taken_arr]
      exact leaves_subperm_take_arr (fun k hk i => ih k hk (h.item hk) i i.suits_none) i
    | obj members =>
      have hmember : ∀ m ∈ fieldMembers members,
          KeepsLeaves f ((head? f members).bind fun h => h.shape? m.1) m.2 :=
        fun m hm => ih m.2 (mem_parts_obj_of_mem hm) (h.member hm)
      cases hkind : get? "kind" members with
      | none =>
        rw [fieldMembers_of_kindless hkind, head?_of_kindless hkind] at hmember
        exact .kindless hkind (h.self (isKindless_obj.mpr hkind)) hmember
      | some kind => exact .description (by simp [isKindless, hkind]) hmember
    | _ =>
      intro i _
      rw [taken, arrange_scalar _ _ rfl, Intake.take_of_isScalar rfl]

end Json

namespace Tree

/-- **Nothing is lost in decoding** a document that has leaves under keys in mapping fields only:
the tree is encoded to a document that has every leaf as often. -/
theorem leaves_le_encode {f : Family} {d : Json} {t : Tree} (hd : d.LeavesInMappings f)
    (h : decode (.ofJson d) (.str f.name) = (.ok t : Except DecodeFault Tree)) :
    ∃ e : Json, (Value.node t).encode = .ofJson e ∧ (d.leaves : Multiset Json) ≤ e.leaves :=
  ⟨d.taken f, encode_of_decode h,
    Multiset.coe_le.mpr (Json.keepsLeaves_of hd .whole (Intake.suits_whole _))⟩

/-- Locations that are an object, around an object without members in the place of names. -/
def locateEmpty : Json :=
  .obj [("kind", .str "Locate"), ("bindings", .obj [("x", .str "r8"), ("y", .str "r9")]),
    ("tail", .obj [("kind", .str "Locals"), ("names", .obj []),
      ("tail", .obj [("kind", .str "Bool"), ("value", .bool true)])])]

theorem leaves_locateEmpty : ∃ t e,
    decode (.ofJson locateEmpty) (.str "regalloc") = (.ok t : Except DecodeFault Tree) ∧
      (Value.node t).encode = .ofJson e ∧
      (([.str "r8", .str "r9", .bool true] : List Json) : Multiset Json) ≤ e.leaves := by
  have hleaves : locateEmpty.LeavesInMappings .regalloc := by decide
  obtain ⟨t, ht⟩ : ∃ t, decode (.ofJson locateEmpty) (.str "regalloc") =
      (.ok t : Except DecodeFault Tree) :=
    ⟨_, (decode_ofJson .regalloc locateEmpty).trans rfl⟩
  obtain ⟨e, he, hle⟩ := leaves_le_encode hleaves ht
  exact ⟨t, e, ht, he, hle⟩

/-- Names that are given as the keys of an object, with something else under them. -/
def keyedNames : Json :=
  .obj [("kind", .str "Locals"), ("names", .obj [("a", .int 1), ("b", .int 2)]),
    ("tail", .obj [("kind", .str "Nop")])]

/-- What stands under the keys is lost: the document is accepted, and its numbers are gone. -/
theorem leaves_keyedNames : ∃ t e,
    decode (.ofJson keyedNames) (.str "regalloc") = (.ok t : Except DecodeFault Tree) ∧
      (Value.node t).encode = .ofJson e ∧ ¬ (keyedNames.leaves : Multiset Json) ≤ e.leaves := by
  obtain ⟨t, ht⟩ : ∃ t, decode (.ofJson keyedNames) (.str "regalloc") =
      (.ok t : Except DecodeFault Tree) :=
    ⟨_, (decode_ofJson .regalloc keyedNames).trans rfl⟩
  refine ⟨t, keyedNames.taken .regalloc, ht, encode_of_decode ht, fun hle => ?_⟩
  have hgiven : keyedNames.leaves = [.int 1, .int 2] := rfl
  have htaken : (keyedNames.taken .regalloc).leaves = [.str "a", .str "b"] := rfl
  rw [hgiven, htaken] at hle
  have hmem : Json.int 1 ∈ [Json.str "a", Json.str "b"] :=
    Multiset.mem_coe.mp (Multiset.mem_of_le hle (by simp))
  simp at hmem

end Tree

end LoweringIR
