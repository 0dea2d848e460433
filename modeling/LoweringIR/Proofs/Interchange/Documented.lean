import LoweringIR.Proofs.Interchange.Read
import LoweringIR.Proofs.Interchange.Taken

/-!
# Documents of the documented shape

A mapping may be written as an object, and for nothing else is an object without a kind documented.
In a document that keeps to this, decoding finds nothing to take for something else, and encoding
the decoded tree again is putting the document into its canonical form. No member is missing or
surplus in it, none has another value than the document gave it, and where order matters it is that
of the document.

## Main definitions

* `Json.occurrences` — everything that occurs in a document, and which field it is the value of
* `Json.Documented` — objects without a kind are values of mapping fields
* `Intake.Suits` — how the value of a field may be taken without losing what stands under keys

## Main results

* `Json.takenAsCanon_of`, `Json.taken_eq_canon` — what is documented is taken for its canonical form
* `Tree.encode_eq_canon` — decoding and encoding is putting it into that form
-/

namespace LoweringIR

/-- An object without a kind is taken for its keys. -/
def Intake.gathersKeys : Intake → Bool
  | .items _ | .pair _ => true
  | _ => false

/-- The value of a field may be taken in this way: no mapping is taken for its keys. -/
def Intake.Suits (i : Intake) (field : Option Shape) : Prop :=
  i.gathersKeys → field.any Shape.isMapping = false

theorem Intake.suits_none (i : Intake) : i.Suits none :=
  fun _ => rfl

theorem Intake.suits_whole (field : Option Shape) : Intake.whole.Suits field :=
  fun h => Bool.noConfusion h

/-- A field is taken in a way that suits it. -/
theorem Shape.suits_intake (s : Shape) : s.intake.Suits (some s) := by
  cases s with
  | bindings | locations | graph => exact fun h => Bool.noConfusion h
  | _ => exact fun _ => rfl

namespace Json

mutual

/-- Everything that occurs in a value, from the outside in. With each comes the shape of the field
that it is the value of, if it is the value of a field. -/
def occurrences (f : Family) (field : Option Shape) : Json → List (Option Shape × Json)
  | .arr items => (field, .arr items) :: occurrencesInItems f items
  | .obj members =>
    (field, .obj members) ::
      occurrencesInMembers f (fun name => (head? f members).bind fun h => h.shape? name) members
  | j => [(field, j)]

/-- Everything that occurs in items. -/
def occurrencesInItems (f : Family) : List Json → List (Option Shape × Json)
  | [] => []
  | j :: js => occurrences f none j ++ occurrencesInItems f js

/-- Everything that occurs in the values of members besides the kind, which are fields of these
shapes. -/
def occurrencesInMembers (f : Family) (shapes : String → Option Shape) :
    List (String × Json) → List (Option Shape × Json)
  | [] => []
  | m :: ms =>
    if m.1 = "kind" then occurrencesInMembers f shapes ms
    else occurrences f (shapes m.1) m.2 ++ occurrencesInMembers f shapes ms

end

/-- Every object without a kind that occurs in a value has a property. -/
def EachKindless (P : Option Shape → Json → Prop) (f : Family) (field : Option Shape) (j : Json) :
    Prop :=
  ∀ o ∈ j.occurrences f field, o.2.isKindless → P o.1 o.2

/-- Every object without a kind that occurs in a document is the value of a mapping field. -/
def Documented (f : Family) (d : Json) : Prop :=
  d.EachKindless (fun field _ => field.any Shape.isMapping) f none

instance (f : Family) (d : Json) : Decidable (Documented f d) :=
  inferInstanceAs (Decidable (∀ o ∈ d.occurrences f none, o.2.isKindless → _))

namespace EachKindless

variable {P : Option Shape → Json → Prop} {f : Family} {field : Option Shape} {j k : Json}
  {items : List Json} {members : List (String × Json)} {m : String × Json}

theorem self (h : EachKindless P f field j) (hj : j.isKindless) : P field j := by
  cases j with
  | obj members => exact h (field, .obj members) (by simp [occurrences]) hj
  | _ => cases hj

theorem item (h : EachKindless P f field (.arr items)) (hk : k ∈ items) :
    EachKindless P f none k := by
  have hitems : ∀ js : List Json, k ∈ js → ∀ o ∈ k.occurrences f none,
      o ∈ occurrencesInItems f js := by
    intro js hk o ho
    induction js with
    | nil => cases hk
    | cons j js ih =>
      rw [occurrencesInItems, List.mem_append]
      rcases List.mem_cons.mp hk with rfl | hk
      · exact .inl ho
      · exact .inr (ih hk)
  exact fun o ho => h o (by rw [occurrences]; exact List.mem_cons_of_mem _ (hitems items hk o ho))

theorem member (h : EachKindless P f field (.obj members)) (hm : m ∈ fieldMembers members) :
    EachKindless P f ((head? f members).bind fun h => h.shape? m.1) m.2 := by
  have hmembers : ∀ (shapes : String → Option Shape) (ms : List (String × Json)),
      m ∈ fieldMembers ms → ∀ o ∈ m.2.occurrences f (shapes m.1),
        o ∈ occurrencesInMembers f shapes ms := by
    intro shapes ms hm o ho
    induction ms with
    | nil => cases hm
    | cons m' ms ih =>
      rw [fieldMembers_cons] at hm
      rw [occurrencesInMembers]
      split at hm
      · next hkind => rw [if_pos hkind]; exact ih hm
      · next hkind =>
        rw [if_neg hkind, List.mem_append]
        rcases List.mem_cons.mp hm with rfl | hm
        · exact .inl ho
        · exact .inr (ih hm)
  exact fun o ho =>
    h o (by rw [occurrences]; exact List.mem_cons_of_mem _ (hmembers _ members hm o ho))

end EachKindless

/-! ### Documented documents -/

variable {f : Family} {field : Option Shape} {j : Json} {items : List Json}
  {members : List (String × Json)}

/-- The items of a documented array are taken for their canonical form if each of them is. -/
theorem take_arr_eq_canon
    (h : ∀ k ∈ items, ∀ i : Intake, i.take k = i.canon k) (i : Intake) :
    i.take (.arr items) = i.canon (.arr items) := by
  have hmap : ∀ i : Intake, items.map i.take = items.map i.canon :=
    fun i => List.map_congr_left fun k hk => h k hk i
  cases i with
  | whole => rfl
  | items i => exact congrArg _ (hmap i)
  | pairs i => exact congrArg _ (hmap (.pair i))
  | records => exact congrArg _ (hmap .record)
  | pair i =>
    rcases items with _ | ⟨a, _ | ⟨b, _ | _⟩⟩
    case cons.cons.nil =>
      have hb := h b (by simp) i
      simp only [Intake.take, Intake.canon, keyArray, mapSecond, hb]
    all_goals rfl
  | record =>
    rcases items with _ | ⟨a, _ | ⟨b, _ | ⟨c, _ | _⟩⟩⟩
    case cons.cons.cons.nil =>
      have hc := h c (by simp) (.items .whole)
      rw [Intake.take_items_whole, show (Intake.items .whole).canon c = c from mapItems_id c] at hc
      simp only [Intake.take, Intake.canon, mapThird, hc]
    all_goals rfl

/-- A value is taken for its canonical form, and any intake that suits the field presents that
canonically. -/
def TakenAsCanon (f : Family) (field : Option Shape) (j : Json) : Prop :=
  j.taken f = j.canon f ∧
    ∀ i : Intake, i.Suits field → i.take (j.canon f) = i.canon (j.canon f)

namespace TakenAsCanon

theorem arr (h : ∀ k ∈ items, TakenAsCanon f none k) : TakenAsCanon f field (.arr items) := by
  refine ⟨?_, fun i _ => ?_⟩
  · rw [taken_arr, canon_arr]
    exact congrArg _ (List.map_congr_left fun k hk => (h k hk).1)
  · rw [canon_arr]
    exact take_arr_eq_canon (List.forall_mem_map.mpr fun k hk i => (h k hk).2 i i.suits_none) i

theorem mapping (hkind : get? "kind" members = none) (hfield : field.any Shape.isMapping = true)
    (h : ∀ m ∈ members, TakenAsCanon f none m.2) : TakenAsCanon f field (.obj members) := by
  have hkindless : (Json.obj (members.map fun m => (m.1, m.2.canon f))).isKindless := by
    rw [isKindless_map]
    exact isKindless_obj.mpr hkind
  refine ⟨?_, fun i hi => ?_⟩
  · rw [taken_of_kindless hkind, canon_of_kindless hkind]
    exact congrArg _ (List.map_congr_left fun m hm => congrArg (Prod.mk m.1) (h m hm).1)
  · rw [canon_of_kindless hkind]
    cases i with
    | whole | record | records => rfl
    | items | pair =>
      rw [hi rfl] at hfield
      cases hfield
    | pairs i =>
      rw [Intake.take_pairs_kindless hkindless, Intake.canon_pairs_kindless hkindless,
        List.map_map, List.map_map]
      refine congrArg _ (List.map_congr_left fun m hm => ?_)
      exact congrArg (fun k => Json.arr [.str m.1, k]) ((h m hm).2 i i.suits_none)

theorem description (hkind : (Json.obj members).isKindless = false)
    (h : ∀ m ∈ fieldMembers members,
      TakenAsCanon f ((head? f members).bind fun h => h.shape? m.1) m.2) :
    TakenAsCanon f field (.obj members) := by
  refine ⟨?_, fun i _ => ?_⟩
  · cases hh : head? f members with
    | none => rw [taken, canon, arrange_of_unknown hkind hh, arrange_of_unknown hkind hh]
    | some head =>
      have hmap : ((fieldMembers members).map fun m => (m.1, m.2.taken f)) =
          (fieldMembers members).map fun m => (m.1, m.2.canon f) :=
        List.map_congr_left fun m hm => congrArg (Prod.mk m.1) (h m hm).1
      rw [taken_of_head? hh, canon_of_head? hh, hmap]
      refine Head.arranged_congr (List.forall_mem_map.mpr fun m hm s hs => ?_) fun s => ?_
      · have hfield := (h m hm).2 s.intake
        rw [hh, Option.bind_some, hs] at hfield
        rw [Shape.canon_eq, hfield s.suits_intake]
      · cases s <;> rfl
  · rw [canon, take_arrange hkind, canon_arrange hkind]

end TakenAsCanon

/-- **A documented value is taken for its canonical form**, wherever it may stand. -/
theorem takenAsCanon_of (h : EachKindless (fun field _ => field.any Shape.isMapping) f field j) :
    TakenAsCanon f field j := by
  induction j using Json.induct generalizing field with
  | step j ih =>
    cases j with
    | arr items => exact .arr fun k hk => ih k hk (h.item hk)
    | obj members =>
      have hmember : ∀ m ∈ fieldMembers members,
          TakenAsCanon f ((head? f members).bind fun h => h.shape? m.1) m.2 :=
        fun m hm => ih m.2 (mem_parts_obj_of_mem hm) (h.member hm)
      cases hkind : get? "kind" members with
      | none =>
        rw [fieldMembers_of_kindless hkind, head?_of_kindless hkind] at hmember
        exact .mapping hkind (h.self (isKindless_obj.mpr hkind)) hmember
      | some kind => exact .description (by simp [isKindless, hkind]) hmember
    | _ => exact ⟨rfl, fun i _ => by cases i <;> rfl⟩

/-- **A documented document** is taken for its canonical form. -/
theorem taken_eq_canon {d : Json} (hd : d.Documented f) : d.taken f = d.canon f :=
  (takenAsCanon_of hd).1

end Json

namespace Tree

/-- **Decoding and encoding a documented document** is putting it into canonical form. -/
theorem encode_eq_canon {f : Family} {d : Json} {t : Tree} (hd : d.Documented f)
    (h : decode (.ofJson d) (.str f.name) = (.ok t : Except DecodeFault Tree)) :
    (Value.node t).encode = .ofJson (d.canon f) := by
  rw [encode_of_decode h, Json.taken_eq_canon hd]

/-- A group of closures in which nothing stands as encoding would put it: members are out of order,
free variables are left out, a record is the array of its fields, and bindings are an object. -/
def closuresShuffled : Json :=
  .obj [("tail", .obj [("bindings", .obj [("b", .obj [("kind", .str "Nop")]),
        ("a", .obj [("value", .int 1), ("kind", .str "Int64")])]),
      ("kind", .str "Let"), ("tail", .obj [("kind", .str "Nop")])]),
    ("kind", .str "Closures"),
    ("records", .arr [.obj [("label", .str "l"), ("kind", .str "Closure"), ("name", .str "f")],
      .arr [.str "g", .str "m", .arr [.str "y", .str "x"]]])]

/-- The same group in canonical form. -/
def closuresInOrder : Json :=
  .obj [("kind", .str "Closures"),
    ("records", .arr
      [.obj [("kind", .str "Closure"), ("name", .str "f"), ("label", .str "l"), ("free", .arr [])],
        .obj [("kind", .str "Closure"), ("name", .str "g"), ("label", .str "m"),
          ("free", .arr [.str "y", .str "x"])]]),
    ("tail", .obj [("kind", .str "Let"),
      ("bindings", .arr [.arr [.str "b", .obj [("kind", .str "Nop")]],
        .arr [.str "a", .obj [("kind", .str "Int64"), ("value", .int 1)]]]),
      ("tail", .obj [("kind", .str "Nop")])])]

theorem encode_closuresShuffled : ∃ t,
    decode (.ofJson closuresShuffled) (.str "scheme") = (.ok t : Except DecodeFault Tree) ∧
      (Value.node t).encode = .ofJson closuresInOrder := by
  have hdocumented : closuresShuffled.Documented .scheme := by decide
  obtain ⟨t, ht⟩ : ∃ t, decode (.ofJson closuresShuffled) (.str "scheme") =
      (.ok t : Except DecodeFault Tree) :=
    ⟨_, (decode_ofJson .scheme closuresShuffled).trans rfl⟩
  have hcanon : closuresShuffled.canon .scheme = closuresInOrder := rfl
  exact ⟨t, ht, (encode_eq_canon hdocumented ht).trans (congrArg Value.ofJson hcanon)⟩

end Tree

end LoweringIR
