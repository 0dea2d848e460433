import LoweringIR.Proofs.Interchange.Arguments
import LoweringIR.Proofs.Interchange.Part
import Mathlib.Data.List.Sort

/-!
# Canonical documents

A tree has many documents. The members of a description may stand in any order, a mapping may be an
object or an array of pairs, the free variables of a record may be left out if there are none, and
inside a group of records a record may be the array of its fields. Putting all of this one way is a
rewriting of documents that knows nothing of trees: `Json.canon`. Each description is given its kind
first and its fields in order, and the value of each field is presented by the shape of the field.

Decoding puts up with more. Where a sequence is asked for, an object without a kind is gone through
as a collection, and its keys are what it yields; the same happens where a pair is asked for. So
what a document is taken for is another rewriting, `Json.taken`, which differs from the first in
nothing but this. How a field takes its value is an `Intake`.

Neither rewriting refuses anything. A description that lacks a field or has a surplus one is given
nothing and loses nothing.

## Main definitions

* `Shape.canon`, `Json.canon` — the canonical form of a field's value and of a document
* `Intake`, `Intake.take`, `Json.taken` — what decoding takes values and documents for

## Main results

* `Shape.canon_eq` — the canonical form of a field's value by how the field takes it
* `Head.arranged_eq` — a description with exactly one member for every field
-/

namespace LoweringIR

open Json (get?)

/-! ### Fields -/

namespace Head

/-- The fields of what a head describes, in order. -/
def fields : Head → Schema
  | .node k => k.schema
  | .closure => [("name", .name), ("label", .name), ("free", .names)]

/-- The shape of the field with that name. -/
def shape? (h : Head) (name : String) : Option Shape :=
  (h.fields.find? fun e => e.1 == name).map Prod.snd

@[simp] theorem map_fst_fields (h : Head) : h.fields.map Prod.fst = h.fieldNames := by
  cases h <;> rfl

end Head

/-! ### Values of fields -/

namespace Json

/-- The value has no parts and can have none. -/
def isScalar : Json → Bool
  | .arr _ | .obj _ => false
  | _ => true

/-- The value is an object without a kind. -/
def isKindless : Json → Bool
  | .obj members => (get? "kind" members).isNone
  | _ => false

theorem isKindless_obj {members : List (String × Json)} :
    (obj members).isKindless ↔ get? "kind" members = none := by
  simp [isKindless]

/-- Whether an object has a kind does not depend on the values in it. -/
theorem isKindless_map (g : Json → Json) (members : List (String × Json)) :
    (obj (members.map fun m => (m.1, g m.2))).isKindless = (obj members).isKindless := by
  rw [isKindless, isKindless, get?_map, Option.isNone_map]

/-- Rewrites the items of an array. -/
def mapItems (g : Json → Json) : Json → Json
  | .arr items => .arr (items.map g)
  | j => j

/-- Rewrites the second item of an array of two. -/
def mapSecond (g : Json → Json) : Json → Json
  | .arr [a, b] => .arr [a, g b]
  | j => j

/-- Rewrites the third item of an array of three. -/
def mapThird (g : Json → Json) : Json → Json
  | .arr [a, b, c] => .arr [a, b, g c]
  | j => j

/-- The pairs of an object without a kind, each a key and its value. -/
def pairArray : Json → Json
  | .obj members =>
    if (obj members).isKindless then .arr (members.map fun m => .arr [.str m.1, m.2])
    else .obj members
  | j => j

/-- The keys of an object without a kind. -/
def keyArray : Json → Json
  | .obj members =>
    if (obj members).isKindless then .arr (members.map fun m => .str m.1) else .obj members
  | j => j

/-- The description of a record that is given by its three fields. -/
def closureOf : Json → Json
  | .arr [name, label, free] =>
    .obj [("kind", .str Head.closure.name), ("name", name), ("label", label), ("free", free)]
  | j => j

end Json

/-- The canonical form of a field's value. -/
def Shape.canon (s : Shape) (j : Json) : Json :=
  match s with
  | .bindings | .locations | .graph => j.pairArray
  | .records => j.mapItems Json.closureOf
  | _ => j

/-- How a value is taken where it stands. -/
inductive Intake where
  /-- As it is. -/
  | whole
  /-- As a sequence, item by item. -/
  | items (item : Intake)
  /-- As a pair of a name and something else. -/
  | pair (second : Intake)
  /-- As a mapping, or a sequence of pairs. -/
  | pairs (second : Intake)
  /-- As a record. -/
  | record
  /-- As an array of records. -/
  | records

/-- How the value of a field is taken. -/
def Shape.intake : Shape → Intake
  | .name | .flag | .int64 | .node => .whole
  | .nodes | .names | .nameSet => .items .whole
  | .frames => .items (.items .whole)
  | .bindings | .locations => .pairs .whole
  | .graph => .pairs (.items .whole)
  | .records => .records

namespace Intake

/-- What a value is taken for. An object without a kind is its keys to a sequence or a pair. -/
def take : Intake → Json → Json
  | whole, j => j
  | items i, j => j.keyArray.mapItems i.take
  | pair i, j => j.keyArray.mapSecond i.take
  | pairs i, j => j.pairArray.mapItems fun e => e.keyArray.mapSecond i.take
  | record, j => (j.mapThird Json.keyArray).closureOf
  | records, j => j.mapItems fun r => (r.mapThird Json.keyArray).closureOf

/-- The canonical form of a value. -/
def canon : Intake → Json → Json
  | whole, j => j
  | items i, j => j.mapItems i.canon
  | pair i, j => j.mapSecond i.canon
  | pairs i, j => j.pairArray.mapItems (Json.mapSecond i.canon)
  | record, j => j.closureOf
  | records, j => j.mapItems Json.closureOf

end Intake

namespace Json

theorem mapItems_id (j : Json) : j.mapItems (fun k => k) = j := by
  cases j <;> simp [mapItems]

theorem mapSecond_id (j : Json) : j.mapSecond (fun k => k) = j := by
  unfold mapSecond
  split <;> rfl

end Json

namespace Intake

variable {i : Intake} {j : Json} {members : List (String × Json)}

/-- A sequence of items that are taken as they are. -/
theorem take_items_whole (j : Json) : (items whole).take j = j.keyArray :=
  Json.mapItems_id j.keyArray

/-- What has no parts is taken as it is, however it is taken. -/
theorem take_of_isScalar (h : j.isScalar) : i.take j = j := by
  cases j with
  | arr | obj => cases h
  | _ => cases i <;> rfl

/-- So is a description. -/
theorem take_of_described (h : (Json.obj members).isKindless = false) :
    i.take (.obj members) = .obj members := by
  cases i <;> simp [take, Json.keyArray, Json.pairArray, Json.mapItems, Json.mapSecond,
    Json.mapThird, Json.closureOf, h]

theorem canon_of_described (h : (Json.obj members).isKindless = false) :
    i.canon (.obj members) = .obj members := by
  cases i <;> simp [canon, Json.pairArray, Json.mapItems, Json.mapSecond, Json.closureOf, h]

theorem take_pairs_kindless (h : (Json.obj members).isKindless) :
    (pairs i).take (.obj members) =
      .arr (members.map fun m => .arr [.str m.1, i.take m.2]) := by
  rw [take, Json.pairArray, if_pos h, Json.mapItems, List.map_map]
  rfl

theorem canon_pairs_kindless (h : (Json.obj members).isKindless) :
    (pairs i).canon (.obj members) =
      .arr (members.map fun m => .arr [.str m.1, i.canon m.2]) := by
  rw [canon, Json.pairArray, if_pos h, Json.mapItems, List.map_map]
  rfl

end Intake

/-- The canonical form of a field's value is that of the way in which the field takes it. -/
theorem Shape.canon_eq (s : Shape) (j : Json) : s.canon j = s.intake.canon j := by
  have hwhole : Intake.whole.canon = fun j => j := rfl
  have hitems : (Intake.items .whole).canon = fun j => j := by
    funext j
    rw [Intake.canon, hwhole, Json.mapItems_id]
  have hsecond : Json.mapSecond (fun j => j) = fun j => j := funext Json.mapSecond_id
  cases s <;> simp only [canon, intake, Intake.canon, hwhole, hitems, hsecond, Json.mapItems_id]

/-! ### Descriptions -/

/-- A member stands no later than another one, by the fields with these names. -/
def Precedes (names : List String) (m m' : String × Json) : Prop :=
  names.idxOf m.1 ≤ names.idxOf m'.1

instance (names : List String) : DecidableRel (Precedes names) :=
  fun m m' => inferInstanceAs (Decidable (names.idxOf m.1 ≤ names.idxOf m'.1))

instance (names : List String) : Std.Total (Precedes names) :=
  ⟨fun m m' => Nat.le_total (names.idxOf m.1) (names.idxOf m'.1)⟩

instance (names : List String) : IsTrans (String × Json) (Precedes names) :=
  ⟨fun _ _ _ => Nat.le_trans⟩

/-- Members in the order of the fields with these names, those of no field last. -/
def inOrder (names : List String) (members : List (String × Json)) : List (String × Json) :=
  members.insertionSort (Precedes names)

theorem inOrder_perm (names : List String) (members : List (String × Json)) :
    (inOrder names members).Perm members :=
  List.perm_insertionSort ..

/-- One member for every field, in any order, is put into the order of the fields. -/
theorem inOrder_eq_of_perm {names : List String} {ms es : List (String × Json)}
    (hnames : names.Nodup) (hes : es.map Prod.fst = names) (h : ms.Perm es) :
    inOrder names ms = es := by
  have hnamesOrdered : (es.map Prod.fst).Pairwise fun n m => names.idxOf n ≤ names.idxOf m := by
    rw [hes, List.pairwise_iff_getElem]
    intro i j hi hj hij
    rw [hnames.idxOf_getElem, hnames.idxOf_getElem]
    exact Nat.le_of_lt hij
  rw [List.pairwise_map] at hnamesOrdered
  have hperm : (inOrder names ms).Perm es := (inOrder_perm names ms).trans h
  refine hperm.eq_of_pairwise (fun x y hx hy hxy hyx => ?_) (List.pairwise_insertionSort ..)
    hnamesOrdered
  -- Two members of one field are one member, since there is one for every field.
  have hx : x ∈ es := hperm.mem_iff.mp hx
  have hmem : x.1 ∈ names := hes ▸ List.mem_map_of_mem hx
  exact List.inj_on_of_nodup_map (hes ▸ hnames) hx hy
    ((List.idxOf_inj hmem).mp (Nat.le_antisymm hxy hyx))

namespace Head

/-- The members of a description with the free variables of a record, if they were left out. -/
def completed (h : Head) (members : List (String × Json)) : List (String × Json) :=
  if h = .closure ∧ "free" ∉ members.map Prod.fst then members ++ [("free", .arr [])] else members

/-- A member presented by the shape of its field. -/
def presented (present : Shape → Json → Json) (h : Head) (m : String × Json) : String × Json :=
  match h.shape? m.1 with
  | some s => (m.1, present s m.2)
  | none => m

/-- A description with these members: the kind first, and the fields in order. -/
def arranged (present : Shape → Json → Json) (h : Head) (members : List (String × Json)) : Json :=
  .obj (("kind", .str h.name) ::
    inOrder h.fieldNames ((h.completed members).map (h.presented present)))

variable {h : Head} {present : Shape → Json → Json} {members es : List (String × Json)}

/-- Every field is found by its name. -/
theorem shape?_of_mem {e : String × Shape} (he : e ∈ h.fields) : h.shape? e.1 = some e.2 := by
  have hnodup : (h.fields.map Prod.fst).Nodup := by
    rw [map_fst_fields]
    exact h.nodup_fieldNames
  rw [shape?, Option.map_eq_some_iff]
  cases hfind : h.fields.find? fun e' => e'.1 == e.1 with
  | none => simpa using List.find?_eq_none.mp hfind e he
  | some e' =>
    have hname : e'.1 = e.1 := by simpa using List.find?_some hfind
    have heq := List.inj_on_of_nodup_map hnodup (List.mem_of_find?_eq_some hfind) he hname
    exact ⟨e', rfl, congrArg Prod.snd heq⟩

theorem presented_fst (present : Shape → Json → Json) (h : Head) (m : String × Json) :
    (h.presented present m).1 = m.1 := by
  unfold presented
  split <;> rfl

theorem sublist_completed (h : Head) (members : List (String × Json)) :
    members.Sublist (h.completed members) := by
  unfold completed
  split
  · exact List.sublist_append_left ..
  · exact List.Sublist.refl _

/-- Members that are presented alike are arranged alike. -/
theorem arranged_congr {present' : Shape → Json → Json}
    (hm : ∀ m ∈ members, ∀ s, h.shape? m.1 = some s → present s m.2 = present' s m.2)
    (hempty : ∀ s, present s (.arr []) = present' s (.arr [])) :
    h.arranged present members = h.arranged present' members := by
  have hpresented : ∀ m ∈ h.completed members, h.presented present m = h.presented present' m := by
    intro m hmem
    unfold presented
    split
    · next s hs =>
      unfold completed at hmem
      split at hmem
      · rcases List.mem_append.mp hmem with hmem | hmem
        · rw [hm m hmem s hs]
        · obtain rfl := List.mem_singleton.mp hmem
          rw [hempty]
      · rw [hm m hmem s hs]
    · rfl
  rw [arranged, arranged, List.map_congr_left hpresented]

/-- One member for every field, in the order of the fields, is presented field by field. -/
theorem map_presented (hes : es.map Prod.fst = h.fieldNames) :
    es.map (h.presented present) =
      h.fields.zipWith (fun e j => (e.1, present e.2 j)) (es.map Prod.snd) := by
  have hfields : ∀ (schema : Schema) (es : List (String × Json)),
      (∀ e ∈ schema, h.shape? e.1 = some e.2) → es.map Prod.fst = schema.map Prod.fst →
      es.map (h.presented present) =
        schema.zipWith (fun e j => (e.1, present e.2 j)) (es.map Prod.snd) := by
    intro schema
    induction schema with
    | nil => intro es _ hes; simp [List.map_eq_nil_iff.mp hes]
    | cons e schema ih =>
      rintro (_ | ⟨m, es⟩) hshape hes
      · cases hes
      · rw [List.map_cons, List.map_cons, List.cons.injEq] at hes
        have hm := hshape e (List.mem_cons_self ..)
        rw [← hes.1] at hm
        rw [List.map_cons, List.map_cons, List.zipWith_cons_cons, presented, hm, hes.1,
          ih es (fun e' he => hshape e' (List.mem_cons_of_mem _ he)) hes.2]
  exact hfields h.fields es (fun e he => shape?_of_mem he) (by rw [hes, map_fst_fields])

/-- **A description with exactly one member for every field**, in any order, is arranged field by
field. -/
theorem arranged_eq (hes : es.map Prod.fst = h.fieldNames) (hperm : (h.completed members).Perm es) :
    h.arranged present members =
      .obj (("kind", .str h.name) ::
        h.fields.zipWith (fun e j => (e.1, present e.2 j)) (es.map Prod.snd)) := by
  have hnames : (es.map (h.presented present)).map Prod.fst = h.fieldNames := by
    rw [← hes, List.map_map]
    exact List.map_congr_left fun m _ => presented_fst present h m
  rw [arranged, inOrder_eq_of_perm h.nodup_fieldNames hnames (hperm.map _), map_presented hes]

end Head

namespace Json

/-- What an object describes, if its kind is known. -/
def head? (f : Family) (members : List (String × Json)) : Option Head :=
  match get? "kind" members with
  | some (.str name) => f.head? name
  | _ => none

mutual

/-- Arranges every description in a value, from the inside out. One that is of nothing known is left
as it is. -/
def arrange (present : Shape → Json → Json) (f : Family) : Json → Json
  | .arr items => .arr (arrangeItems present f items)
  | .obj members =>
    match head? f members with
    | some h => h.arranged present (fieldMembers (arrangeMembers present f members))
    | none =>
      if (obj members).isKindless then .obj (arrangeMembers present f members) else .obj members
  | j => j

/-- Arranges the descriptions in items. -/
def arrangeItems (present : Shape → Json → Json) (f : Family) : List Json → List Json
  | [] => []
  | j :: js => arrange present f j :: arrangeItems present f js

/-- Arranges the descriptions in the values of members. -/
def arrangeMembers (present : Shape → Json → Json) (f : Family) :
    List (String × Json) → List (String × Json)
  | [] => []
  | m :: ms => (m.1, arrange present f m.2) :: arrangeMembers present f ms

end

theorem arrange_arr (present : Shape → Json → Json) (f : Family) (items : List Json) :
    arrange present f (.arr items) = .arr (items.map (arrange present f)) := by
  rw [arrange]
  induction items with
  | nil => rfl
  | cons j js ih => simpa [arrangeItems] using ih

theorem arrange_obj (present : Shape → Json → Json) (f : Family) (members : List (String × Json)) :
    arrange present f (.obj members) =
      match head? f members with
      | some h => h.arranged present
          ((fieldMembers members).map fun m => (m.1, arrange present f m.2))
      | none =>
        if (obj members).isKindless then .obj (members.map fun m => (m.1, arrange present f m.2))
        else .obj members := by
  have hmembers : ∀ ms, arrangeMembers present f ms =
      ms.map fun m => (m.1, arrange present f m.2) := by
    intro ms
    induction ms with
    | nil => rfl
    | cons m ms ih => rw [arrangeMembers, ih, List.map_cons]
  have hfields : fieldMembers (members.map fun m => (m.1, arrange present f m.2)) =
      (fieldMembers members).map fun m => (m.1, arrange present f m.2) := by
    rw [fieldMembers, List.filter_map]
    rfl
  rw [arrange, hmembers, hfields]

section

variable {present : Shape → Json → Json} {f : Family} {members : List (String × Json)}

theorem head?_of_kindless (h : get? "kind" members = none) : head? f members = none := by
  rw [head?, h]

theorem arrange_of_kindless (h : get? "kind" members = none) :
    arrange present f (.obj members) =
      .obj (members.map fun m => (m.1, arrange present f m.2)) := by
  rw [arrange_obj, head?_of_kindless h]
  exact if_pos (isKindless_obj.mpr h)

/-- A description of nothing known is as it is. -/
theorem arrange_of_unknown (h : (obj members).isKindless = false) (hh : head? f members = none) :
    arrange present f (.obj members) = .obj members := by
  rw [arrange_obj, hh]
  exact if_neg (by simp [h])

/-- A description stays a description. -/
theorem exists_arrange_of_described (h : (obj members).isKindless = false) :
    ∃ ms, arrange present f (.obj members) = .obj ms ∧ (obj ms).isKindless = false := by
  cases hh : head? f members with
  | some head =>
    rw [arrange_obj, hh]
    exact ⟨_, rfl, rfl⟩
  | none => exact ⟨members, arrange_of_unknown h hh, h⟩

/-- However a description is taken, it is as it is once it has been arranged. -/
theorem take_arrange {i : Intake} (h : (obj members).isKindless = false) :
    i.take (arrange present f (.obj members)) = arrange present f (.obj members) := by
  obtain ⟨ms, hms, hdescribed⟩ := @exists_arrange_of_described present f members h
  rw [hms, Intake.take_of_described hdescribed]

theorem canon_arrange {i : Intake} (h : (obj members).isKindless = false) :
    i.canon (arrange present f (.obj members)) = arrange present f (.obj members) := by
  obtain ⟨ms, hms, hdescribed⟩ := @exists_arrange_of_described present f members h
  rw [hms, Intake.canon_of_described hdescribed]

end

/-- Scalars are as they are, however descriptions are arranged. -/
theorem arrange_scalar (present : Shape → Json → Json) (f : Family) {j : Json}
    (h : j.isScalar) : arrange present f j = j := by
  cases j with
  | arr | obj => cases h
  | _ => rfl

/-- The canonical form of a document. -/
def canon (f : Family) (d : Json) : Json := d.arrange Shape.canon f

/-- What a document is taken for. -/
def taken (f : Family) (d : Json) : Json := d.arrange (fun s => s.intake.take) f

section

variable {f : Family} {members : List (String × Json)}

theorem canon_arr (f : Family) (items : List Json) :
    canon f (.arr items) = .arr (items.map (canon f)) :=
  arrange_arr Shape.canon f items

theorem taken_arr (f : Family) (items : List Json) :
    taken f (.arr items) = .arr (items.map (taken f)) :=
  arrange_arr _ f items

theorem canon_of_kindless (h : get? "kind" members = none) :
    canon f (.obj members) = .obj (members.map fun m => (m.1, canon f m.2)) :=
  arrange_of_kindless h

theorem taken_of_kindless (h : get? "kind" members = none) :
    taken f (.obj members) = .obj (members.map fun m => (m.1, taken f m.2)) :=
  arrange_of_kindless h

theorem canon_of_head? {h : Head} (hh : head? f members = some h) :
    canon f (.obj members) =
      h.arranged Shape.canon ((fieldMembers members).map fun m => (m.1, canon f m.2)) := by
  rw [canon, arrange_obj, hh]
  rfl

theorem taken_of_head? {h : Head} (hh : head? f members = some h) :
    taken f (.obj members) = h.arranged (fun s => s.intake.take)
      ((fieldMembers members).map fun m => (m.1, taken f m.2)) := by
  rw [taken, arrange_obj, hh]
  rfl

end

end Json

end LoweringIR
