import LoweringIR.Proofs.Interchange.Arguments
import LoweringIR.Proofs.Interchange.Encode
import LoweringIR.Proofs.Interchange.Part
import LoweringIR.Proofs.Json.Tokens
import LoweringIR.Proofs.Tree.WellFormed
import LoweringIR.Value.Document

/-!
# What is stored of a tree

The encoding of a tree is a value, and not every value has a document. That of a whole tree has:
what stands in its fields are texts, truth values, integers of 64 bits, trees, and collections of
these. Its document has no number that is not read back as it is, and no key twice, since no two
fields of a kind share a name.

Such a document is taken down from the value if it fits into the room, and if it does not, nothing
else is in the way.

## Main definitions

* `Value.Stored` — what is encoded for a value is a document that is read as it is written

## Main results

* `Value.stored_node` — every whole well-formed tree is stored
* `Value.toJson_ofJson` — a document is taken down if it fits into the room
-/

namespace LoweringIR.Value

/-- What is encoded for a value is a document that is read as it is written. -/
def Stored (v : Value) : Prop := ∃ j : Json, j.Readable ∧ v.encode = ofJson j

variable {vs : List Value}

theorem stored_str (s : String) : Stored (str s) := ⟨.str s, .str s, by simp⟩

theorem stored_bool (b : Bool) : Stored (bool b) := ⟨.bool b, .bool b, by simp [ofJson]⟩

/-- Nineteen digits are enough for an integer of 64 bits. -/
theorem stored_int (n : Int64) : Stored (int n.toInt) := by
  have hlow := n.le_toInt
  have hhigh := n.toInt_lt
  have hdigits : (Nat.toDigits 10 n.toInt.natAbs).length ≤ 19 :=
    (Nat.length_toDigits_le_iff (by decide) (by decide)).mpr (by omega)
  exact ⟨.int n.toInt, .int (Nat.le_trans hdigits (by decide)), by simp [ofJson]⟩

/-- Values are stored together if each of them is. -/
theorem exists_map_encode (h : ∀ v ∈ vs, Stored v) :
    ∃ js : List Json, (∀ j ∈ js, j.Readable) ∧ vs.map encode = js.map ofJson := by
  induction vs with
  | nil => exact ⟨[], by simp, rfl⟩
  | cons v vs ih =>
    obtain ⟨j, hj, hv⟩ := h v (by simp)
    obtain ⟨js, hjs, hvs⟩ := ih fun w hw => h w (by simp [hw])
    exact ⟨j :: js, by simpa using ⟨hj, hjs⟩, by simp [hv, hvs]⟩

theorem stored_tuple (h : ∀ v ∈ vs, Stored v) : Stored (tuple vs) := by
  obtain ⟨js, hjs, heq⟩ := exists_map_encode h
  exact ⟨.arr js, .arr hjs, by rw [encode_tuple, heq, ofJson_arr]⟩

theorem stored_tuple_map {α : Type} {g : α → Value} {as : List α}
    (h : ∀ a ∈ as, Stored (g a)) : Stored (tuple (as.map g)) :=
  stored_tuple (List.forall_mem_map.mpr h)

theorem stored_names (ns : List String) : Stored (tuple (ns.map str)) :=
  stored_tuple_map fun n _ => stored_str n

theorem stored_pair {v w : Value} (hv : Stored v) (hw : Stored w) : Stored (tuple [v, w]) :=
  stored_tuple (by simp [hv, hw])

/-- A description is a document if its members are, since it has no key twice. -/
theorem exists_described {kind : String} {names : List String}
    (hnames : ("kind" :: names).Nodup) (hlength : names.length = vs.length)
    (h : ∀ v ∈ vs, Stored v) :
    ∃ j : Json, j.Readable ∧ described kind names (vs.map encode) = ofJson j := by
  obtain ⟨js, hjs, heq⟩ := exists_map_encode h
  have hle : names.length ≤ js.length := by
    have := congrArg List.length heq
    simp only [List.length_map] at this
    omega
  refine ⟨.obj (("kind", .str kind) :: names.zip js), .obj ?_ ?_, ?_⟩
  · rw [List.map_cons, List.map_fst_zip hle]
    exact hnames
  · rintro m hm
    obtain rfl | hm := List.mem_cons.mp hm
    · exact .str kind
    · exact hjs m.2 (List.of_mem_zip hm).2
  · rw [described, heq, ofJson_obj, List.map_cons, ofJson_str, List.zipWith_map_right,
      List.map_zip_eq_zipWith]
    rfl

theorem stored_record (c : Closure) : Stored (record c) := by
  rw [Stored, encode_record]
  refine exists_described (by decide) rfl ?_
  simp [ofClosure, stored_str, stored_names]

/-- The value of a field is stored if its children are. -/
theorem stored_ofField {x : Field Tree} (hx : ∀ t ∈ x.children, Stored (node t)) :
    Stored (ofField x) := by
  cases x with
  | name s => exact stored_str s
  | flag b => exact stored_bool b
  | int64 n => exact stored_int n
  | node t => exact hx t (by simp [Field.children])
  | nodes ts => exact stored_tuple_map hx
  | names ns => exact stored_names ns
  | nameSet ns => exact stored_names ns
  | bindings es =>
    exact stored_tuple_map fun e he =>
      stored_pair (stored_str e.1) (hx e.2 (List.mem_map_of_mem he))
  | locations es =>
    exact stored_tuple_map fun e _ => stored_pair (stored_str e.1) (stored_str e.2)
  | graph es => exact stored_tuple_map fun e _ => stored_pair (stored_str e.1) (stored_names e.2)
  | frames fs => exact stored_tuple_map fun ns _ => stored_names ns
  | records cs => exact stored_tuple_map fun c _ => stored_record c

/-- **Every whole well-formed tree is stored.** -/
theorem stored_node {t : Tree} (hw : t.WellFormed) (hc : t.Whole) : Stored (node t) := by
  refine hw.induct_whole (P := fun t => Stored (node t)) hc fun k fs hw hc ih => ?_
  have hfields : ∀ x ∈ fs, Stored (ofField x) := fun x hx =>
    stored_ofField fun t ht => ih t (List.mem_flatMap.mpr ⟨x, hx, ht⟩)
  have hlength : (k.schema.map Prod.fst).length = (fs.map ofField).length := by
    simpa using hw.fits.length_eq.symm
  rw [Stored, encode_node]
  exact exists_described (Head.node k).nodup_kind_fieldNames hlength
    (List.forall_mem_map.mpr hfields)

/-! ### Taking a document down -/

/-- What comes of something of a depth: it fits into the room, or stands too deep. -/
def fit {α : Type} (room depth : Nat) (a : α) : Except WriteFault α :=
  if depth ≤ room then .ok a else .error .tooDeep

/-- One thing after another fits if both do. -/
theorem fit_bind_fit {α β γ : Type} (room d e : Nat) (a : α) (b : β) (f : α → β → γ) :
    (do
      let a ← fit room d a
      pure (f a (← fit room e b)) : Except WriteFault γ) = fit room (max d e) (f a b) := by
  unfold fit
  by_cases hd : d ≤ room
  · by_cases he : e ≤ room
    · rw [if_pos hd, if_pos he, if_pos (Nat.max_le.mpr ⟨hd, he⟩)]
      rfl
    · rw [if_pos hd, if_neg he, if_neg fun h => he (Nat.max_le.mp h).2]
      rfl
  · rw [if_neg hd, if_neg fun h => hd (Nat.max_le.mp h).1]
    rfl

/-- A container takes one of the room, and its parts have the others. -/
theorem fit_container {α β : Type} (room d : Nat) (a : α) (f : α → β) :
    (if room = 0 then .error .tooDeep else f <$> fit (room - 1) d a) = fit room (1 + d) (f a) := by
  unfold fit
  by_cases hroom : room = 0
  · rw [if_pos hroom, if_neg (by omega)]
  · rw [if_neg hroom]
    by_cases hd : d ≤ room - 1
    · rw [if_pos hd, if_pos (by omega)]
      rfl
    · rw [if_neg hd, if_neg (by omega)]
      rfl

mutual

/-- **A document is taken down** if it fits into the room. -/
theorem toJson_ofJson (room : Nat) : ∀ j, (ofJson j).toJson room = fit room j.depth j
  | .null | .bool _ | .int _ | .float _ | .str _ => by simp [ofJson, toJson, fit, Json.depth]
  | .arr items => by
    rw [ofJson, toJson, toJsonItems_ofJsonItems, Json.depth]
    exact fit_container room _ items Json.arr
  | .obj members => by
    rw [ofJson, toJson, toJsonMembers_ofJsonMembers, Json.depth]
    exact fit_container room _ members Json.obj

private theorem toJsonItems_ofJsonItems (room : Nat) :
    ∀ js, toJsonItems room (ofJsonItems js) = fit room (Json.depthItems js) js
  | [] => by simp [ofJsonItems, toJsonItems, Json.depthItems, fit]
  | j :: js => by
    rw [ofJsonItems, toJsonItems, toJson_ofJson, toJsonItems_ofJsonItems, Json.depthItems]
    exact fit_bind_fit room _ _ j js List.cons

private theorem toJsonMembers_ofJsonMembers (room : Nat) :
    ∀ ms, toJsonMembers room (ofJsonMembers ms) = fit room (Json.depthMembers ms) ms
  | [] => by simp [ofJsonMembers, toJsonMembers, Json.depthMembers, fit]
  | m :: ms => by
    rw [ofJsonMembers, toJsonMembers, Json.depthMembers]
    dsimp only
    rw [toJson_ofJson, toJsonMembers_ofJsonMembers]
    exact fit_bind_fit room _ _ m.2 ms fun j ms => (m.1, j) :: ms

end

/-- Different documents are different values. -/
theorem ofJson_injective : Function.Injective ofJson := by
  intro j k h
  have hj := toJson_ofJson (max j.depth k.depth) j
  have hk := toJson_ofJson (max j.depth k.depth) k
  rw [fit, if_pos (Nat.le_max_left ..)] at hj
  rw [fit, if_pos (Nat.le_max_right ..), ← h, hj] at hk
  exact Except.ok.inj hk

end LoweringIR.Value
