import LoweringIR.Proofs.Interchange.Canon
import LoweringIR.Proofs.Interchange.Encode
import LoweringIR.Proofs.Interchange.Recursion
import Mathlib.Data.List.Perm.Basic

/-!
# What documents are taken for

What is decoded from a document and encoded again is what the document was taken for, whatever the
document looks like. The proof goes along the document and not along a tree, since most documents
are no encodings. What relates a decoded value to the document is `Value.Written`: a scalar is
written as itself, a tuple as an array and a mapping as an object, part by part, and whatever has
been built as its encoding. Everything that reads a value is then looked at once, for what it takes
from a value so written. Nothing is coerced on the way: a name is read only from a text, a number
from that number, a node from a node.

## Main definitions

* `Value.Written` — a decoded value, and what its document was taken for
* `Intake.Reads` — what reads a value takes it for what the intake says

## Main results

* `Shape.encode_of_read` — every field is taken by its shape
* `Head.encode_of_call` — a description is taken field by field, in the order of the fields
* `Tree.encode_of_decode` — so is a document
-/

namespace LoweringIR

namespace Value

/-- The value is a node or a record. -/
def isBuilt : Value → Bool
  | node _ | record _ => true
  | _ => false

/-- A decoded value, and what its document was taken for. -/
inductive Written : Value → Json → Prop
  | scalar {v : Value} {j : Json} (hj : j.isScalar) (hv : ofJson j = v) : Written v j
  | items {vs : List Value} {js : List Json} (h : List.Forall₂ Written vs js) :
      Written (tuple vs) (.arr js)
  | mapping {es : List (Value × Value)} {ms : List (String × Json)}
      (hkind : Json.get? "kind" ms = none) (hkeys : es.map Prod.fst = ms.map fun m => str m.1)
      (hvalues : List.Forall₂ Written (es.map Prod.snd) (ms.map Prod.snd)) :
      Written (dict es) (.obj ms)
  | built {v : Value} {j : Json} (hv : v.isBuilt) (h : v.encode = ofJson j) : Written v j

variable {v : Value} {j : Json} {s : String}

theorem items?_of_isScalar (h : j.isScalar) : (ofJson j).items? = none := by
  cases j with
  | arr | obj => cases h
  | _ => rfl

theorem items?_of_isBuilt (h : v.isBuilt) : v.items? = none := by
  cases v with
  | node | record => rfl
  | _ => cases h

theorem isBuilt_ofJson (j : Json) : (ofJson j).isBuilt = false := by
  cases j <;> rfl

/-- The pairs that a mapping or a collection yields, none of them looked at. -/
def pairItems? : Value → Option (List Value)
  | dict es => some (es.map fun e => tuple [e.1, e.2])
  | v => v.items?

namespace Written

theorem str (s : String) : Written (str s) (.str s) := .scalar rfl (ofJson_str s)

/-- What is neither a collection nor built is written as it is. -/
theorem eq_ofJson (h : Written v j) (hitems : v.items? = none) (hbuilt : v.isBuilt = false) :
    v = ofJson j := by
  cases h with
  | scalar _ hv => exact hv.symm
  | items | mapping => cases hitems
  | built hv => rw [hv] at hbuilt; cases hbuilt

/-- What is built is written as its encoding. -/
theorem encode_of_isBuilt (h : Written v j) (hv : v.isBuilt) : v.encode = ofJson j := by
  cases h with
  | scalar _ hv' => rw [← hv', isBuilt_ofJson] at hv; cases hv
  | items | mapping => cases hv
  | built _ h => exact h

/-- What a collection yields, and what it was taken for, item by item. -/
theorem forall₂_items {vs : List Value} (h : Written v j) (hv : v.items? = some vs) :
    ∃ js, j.keyArray = .arr js ∧ List.Forall₂ Written vs js := by
  cases h with
  | scalar hj hv' =>
    rw [← hv', items?_of_isScalar hj] at hv
    cases hv
  | items h =>
    obtain rfl := Option.some.inj hv
    exact ⟨_, rfl, h⟩
  | @mapping es ms hkind hkeys =>
    obtain rfl := Option.some.inj hv
    refine ⟨ms.map fun m => .str m.1, ?_, ?_⟩
    · rw [Json.keyArray, if_pos (Json.isKindless_obj.mpr hkind)]
    · rw [hkeys, List.forall₂_map_left_iff, List.forall₂_map_right_iff]
      exact List.forall₂_same.mpr fun m _ => str m.1
  | built hb =>
    rw [items?_of_isBuilt hb] at hv
    cases hv

/-- Apart from mappings only an array yields items. -/
theorem forall₂_items_of_not_dict {vs : List Value} (h : Written v j) (hdict : ∀ es, v ≠ dict es)
    (hv : v.items? = some vs) : ∃ js, j = .arr js ∧ List.Forall₂ Written vs js := by
  cases h with
  | scalar hj hv' =>
    rw [← hv', items?_of_isScalar hj] at hv
    cases hv
  | items h =>
    obtain rfl := Option.some.inj hv
    exact ⟨_, rfl, h⟩
  | mapping => exact absurd rfl (hdict _)
  | built hb =>
    rw [items?_of_isBuilt hb] at hv
    cases hv

/-- The pairs of a mapping, and what they were taken for. -/
theorem forall₂_pairItems {vs : List Value} (h : Written v j) (hv : v.pairItems? = some vs) :
    ∃ js, j.pairArray = .arr js ∧ List.Forall₂ Written vs js := by
  cases h with
  | scalar hj hv' =>
    subst hv'
    cases j with
    | arr | obj => cases hj
    | _ => cases hv
  | items h =>
    obtain rfl := Option.some.inj hv
    exact ⟨_, rfl, h⟩
  | @mapping es ms hkind hkeys hvalues =>
    obtain rfl := Option.some.inj hv
    refine ⟨ms.map fun m => .arr [.str m.1, m.2], ?_, ?_⟩
    · rw [Json.pairArray, if_pos (Json.isKindless_obj.mpr hkind)]
    · clear hkind hv
      induction es generalizing ms with
      | nil =>
        obtain rfl := List.map_eq_nil_iff.mp hkeys.symm
        exact .nil
      | cons e es ih =>
        obtain _ | ⟨m, ms⟩ := ms
        · cases hkeys
        · rw [List.map_cons, List.map_cons, List.cons.injEq] at hkeys
          rw [List.map_cons, List.map_cons, List.forall₂_cons] at hvalues
          refine .cons (.items (.cons ?_ (.cons hvalues.1 .nil))) (ih hkeys.2 hvalues.2)
          rw [hkeys.1]
          exact str m.1
  | built hb => cases v with
    | node | record => cases hv
    | _ => cases hb

end Written

end Value

/-! ### Reading -/

open Value (ofJson ofField Written)

variable {α β : Type} {i : Intake} {v : Value} {j : Json} {f : Family} {p : Place}

/-- What reads a value takes it for what the intake says: `encode` gives the encoding of what has
been read. -/
def Intake.Reads (i : Intake) (reads : Value → α → Prop) (encode : α → Value) : Prop :=
  ∀ v j a, Written v j → reads v a → encode a = ofJson (i.take j)

namespace Place

theorem name_eq_ok {n : String} (h : p.name v = (.ok n : Except BuildFault String)) :
    v = .str n := by
  cases v <;> cases h
  rfl

theorem flag_eq_ok {b : Bool} (h : p.flag v = (.ok b : Except BuildFault Bool)) :
    v = .bool b := by
  cases v <;> cases h
  rfl

theorem int64_eq_ok {n : Int64} (h : p.int64 v = (.ok n : Except BuildFault Int64)) :
    v = .int n.toInt := by
  cases v with
  | int m =>
    rw [int64] at h
    split at h
    · next hm =>
      obtain rfl := Except.ok.inj h
      rw [Int64.toInt_ofInt_of_le hm.1 (Int.lt_of_le_of_lt hm.2 (by decide))]
    · cases h
  | _ => cases h

theorem node_eq_ok {t : Tree} (h : p.node f v = (.ok t : Except BuildFault Tree)) :
    v = .node t := by
  cases v with
  | node u =>
    rw [node] at h
    split at h
    · obtain rfl := Except.ok.inj h
      rfl
    · cases h
  | _ => cases h

theorem sequence_eq_ok {vs : List Value} (h : p.sequence v = (.ok vs : Except BuildFault _)) :
    v.items? = some vs := by
  rw [sequence_eq] at h
  split at h
  · next hvs => rw [hvs, Except.ok.inj h]
  · cases h

theorem pair_eq_ok {e : Value × Value} (h : p.pair v = (.ok e : Except BuildFault _)) :
    v.items? = some [e.1, e.2] := by
  rw [pair_eq] at h
  split at h
  · next hvs =>
    obtain rfl := Except.ok.inj h
    exact hvs
  · cases h

/-- Items are read one by one, each at a place of its own. -/
theorem forall₂_of_each {read : Place → Value → Except BuildFault α} {vs : List Value}
    {as : List α} (h : p.each read vs = .ok as) :
    List.Forall₂ (fun v a => ∃ q, read q v = .ok a) vs as := by
  have hzip := mapM_eq_ok_iff.mp h
  have hvs : vs = vs.zipIdx.map Prod.fst := by rw [List.zipIdx_map_fst]
  rw [hvs, List.forall₂_map_left_iff]
  exact hzip.imp fun _ _ hread => ⟨_, hread⟩

/-- The pairs that a value yields are pairs. -/
theorem pairs_eq_ok {es : List (Value × Value)} (h : p.pairs v = (.ok es : Except BuildFault _)) :
    ∃ vs, v.pairItems? = some vs ∧ List.Forall₂ (fun u e => u.items? = some [e.1, e.2]) vs es := by
  unfold pairs at h
  split at h
  · obtain rfl := Except.ok.inj h
    exact ⟨_, rfl, by simp [List.forall₂_same, Value.items?]⟩
  · next hdict =>
    obtain ⟨vs, hvs, heach⟩ := bind_eq_ok_iff.mp h
    refine ⟨vs, ?_, (forall₂_of_each heach).imp fun _ _ he => pair_eq_ok he.choose_spec⟩
    rw [← sequence_eq_ok hvs]
    unfold Value.pairItems?
    split
    · next entries => exact absurd rfl (hdict entries)
    · rfl

theorem names_eq_ok {ns : List String} (h : p.names v = (.ok ns : Except BuildFault _)) :
    ∃ vs, v.items? = some vs ∧ List.Forall₂ (fun u n => u = .str n) vs ns := by
  obtain ⟨vs, hvs, hnames⟩ := bind_eq_ok_iff.mp h
  exact ⟨vs, sequence_eq_ok hvs, (mapM_eq_ok_iff.mp hnames).imp fun _ _ => name_eq_ok⟩

theorem freeNames_eq_ok {ns : List String} (h : p.freeNames v = (.ok ns : Except BuildFault _)) :
    ∃ vs, v.items? = some vs ∧ List.Forall₂ (fun u n => u = .str n) vs ns := by
  rw [freeNames_eq] at h
  split at h
  · next vs hvs => exact ⟨vs, hvs, (mapM_eq_ok_iff.mp h).imp fun _ _ => name_eq_ok⟩
  · cases h

theorem nodes_eq_ok {ts : List Tree} (h : p.nodes f v = (.ok ts : Except BuildFault _)) :
    ∃ vs, v.items? = some vs ∧ List.Forall₂ (fun u t => u = .node t) vs ts := by
  obtain ⟨vs, hvs, heach⟩ := bind_eq_ok_iff.mp h
  exact ⟨vs, sequence_eq_ok hvs, (forall₂_of_each heach).imp fun _ _ ht => node_eq_ok ht.choose_spec⟩

/-- A mapping yields pairs, each with a name first. -/
theorem mapping_eq_ok {read : Place → Value → Except BuildFault α} {as : List (String × α)}
    (h : p.mapping read v = .ok as) :
    ∃ vs, v.pairItems? = some vs ∧ List.Forall₂ (fun u a =>
      ∃ w, u.items? = some [.str a.1, w] ∧ ∃ q, read q w = .ok a.2) vs as := by
  obtain ⟨es, hes, h⟩ := bind_eq_ok_iff.mp h
  obtain ⟨vs, hvs, hpairs⟩ := pairs_eq_ok hes
  refine ⟨vs, hvs, (forall₂_comp hpairs (mapM_eq_ok_iff.mp h)).imp ?_⟩
  rintro u ⟨n, b⟩ ⟨e, hu, hread⟩
  obtain ⟨n, hn, hread⟩ := bind_eq_ok_iff.mp hread
  obtain ⟨b, hb, hread⟩ := bind_eq_ok_iff.mp hread
  obtain ⟨rfl, rfl⟩ := Prod.mk.inj (Except.ok.inj hread)
  rw [name_eq_ok hn] at hu
  exact ⟨e.2, hu, _, hb⟩

/-- A record is read as it is, or built from the three items of a collection that is no mapping. -/
theorem record_eq_ok {c : Closure} (h : p.record v = (.ok c : Except BuildFault Closure)) :
    v = .record c ∨ ∃ name label free, (∀ es, v ≠ .dict es) ∧
      v.items? = some [name, label, free] ∧
      Closure.build name label free = (.ok c : Except BuildFault Closure) := by
  rw [record_eq] at h
  split at h
  · exact .inl (congrArg _ (Except.ok.inj h))
  · cases h
  · next hdict =>
    split at h
    · cases h
    · next hitems => exact .inr ⟨_, _, _, hdict, hitems, h⟩
    · cases h

/-- Records are read from a collection that is no mapping. -/
theorem records_eq_ok {cs : List Closure} (h : p.records v = (.ok cs : Except BuildFault _)) :
    (∀ es, v ≠ .dict es) ∧ ∃ vs, v.items? = some vs ∧ List.Forall₂ (fun u c =>
      ∃ q : Place, q.record u = (.ok c : Except BuildFault Closure)) vs cs := by
  rw [records_eq] at h
  split at h
  · cases h
  · next hdict =>
    obtain ⟨vs, hvs, heach⟩ := bind_eq_ok_iff.mp h
    exact ⟨hdict, vs, sequence_eq_ok hvs, forall₂_of_each heach⟩

end Place

/-! ### Intakes -/

namespace Intake.Reads

variable {R : Value → α → Prop} {enc : α → Value}

/-- Items that are read one by one are taken one by one. -/
theorem forall₂ {vs : List Value} {js : List Json} {as : List α} (h : i.Reads R enc)
    (hwritten : List.Forall₂ Written vs js) (hread : List.Forall₂ R vs as) :
    as.map enc = (js.map i.take).map ofJson := by
  induction hwritten generalizing as with
  | nil =>
    cases hread
    rfl
  | cons hw _ ih =>
    obtain _ | ⟨ha, has⟩ := hread
    rw [List.map_cons, List.map_cons, List.map_cons, h _ _ _ hw ha, ih has]

/-- What goes through a collection takes it for a sequence. -/
theorem items (h : i.Reads R enc) :
    (items i).Reads (fun v as => ∃ vs, v.items? = some vs ∧ List.Forall₂ R vs as)
      (fun as => .list (as.map enc)) := by
  rintro v j as hv ⟨vs, hvs, hread⟩
  obtain ⟨js, hj, hwritten⟩ := hv.forall₂_items hvs
  rw [take, hj, Json.mapItems, Value.ofJson_arr, ← h.forall₂ hwritten hread]

/-- What takes a collection apart into a name and something else takes it for a pair. -/
theorem pair (h : i.Reads R enc) :
    (pair i).Reads (fun v (a : String × α) => ∃ w, v.items? = some [.str a.1, w] ∧ R w a.2)
      (fun a => .list [.str a.1, enc a.2]) := by
  rintro v j a hv ⟨w, hitems, hread⟩
  obtain ⟨js, hj, hwritten⟩ := hv.forall₂_items hitems
  obtain _ | ⟨hn, _ | ⟨hw, _ | _⟩⟩ := hwritten
  rw [take, hj, Json.mapSecond, Value.ofJson_arr, List.map_cons, List.map_cons, List.map_nil,
    ← h _ _ _ hw hread, ← hn.eq_ofJson rfl rfl]

/-- What goes through the pairs of a mapping takes it for a mapping. -/
theorem pairs (h : i.Reads R enc) :
    (pairs i).Reads (fun v (as : List (String × α)) => ∃ vs, v.pairItems? = some vs ∧
        List.Forall₂ (fun u a => ∃ w, u.items? = some [.str a.1, w] ∧ R w a.2) vs as)
      (fun as => .list (as.map fun a => .list [.str a.1, enc a.2])) := by
  rintro v j as hv ⟨vs, hvs, hread⟩
  obtain ⟨js, hj, hwritten⟩ := hv.forall₂_pairItems hvs
  have hpairs := h.pair.forall₂ hwritten hread
  rw [take, hj, Json.mapItems, Value.ofJson_arr]
  exact congrArg Value.list hpairs

/-- A mapping is taken for one if its values are taken for what is read from them. -/
theorem mapping (h : i.Reads R enc) {read : Place → Value → Except BuildFault α}
    (hR : ∀ q v a, read q v = .ok a → R v a) :
    (Intake.pairs i).Reads (fun v as => ∃ p : Place, p.mapping read v = .ok as)
      (fun as => .list (as.map fun a => .list [.str a.1, enc a.2])) := by
  rintro v j as hv ⟨p, hread⟩
  obtain ⟨vs, hvs, hpairs⟩ := Place.mapping_eq_ok hread
  refine h.pairs v j as hv ⟨vs, hvs, hpairs.imp ?_⟩
  rintro u a ⟨w, hu, q, hw⟩
  exact ⟨w, hu, hR q w a.2 hw⟩

/-- What is left as it is by the encoding is taken as it is. -/
theorem whole {g : α → Value} (hg : ∀ a, (g a).items? = none ∧ (g a).isBuilt = false) :
    Intake.whole.Reads (fun v a => v = g a) g := by
  rintro v j a hv rfl
  exact hv.eq_ofJson (hg a).1 (hg a).2

theorem node : Intake.whole.Reads (fun v t => v = .node t) fun t => (Value.node t).encode := by
  rintro v j t hv rfl
  exact hv.encode_of_isBuilt rfl

theorem name : Intake.whole.Reads (fun v n => v = .str n) Value.str :=
  whole fun _ => ⟨rfl, rfl⟩

/-- A record that is built from its fields is taken for its description. -/
theorem closure {name label free : Value} {a b k : Json} {c : Closure}
    (hbuild : Closure.build name label free = (.ok c : Except BuildFault Closure))
    (hname : Written name a) (hlabel : Written label b) (hfree : Written free k) :
    (Value.record c).encode = ofJson (Json.arr [a, b, k.keyArray]).closureOf := by
  obtain ⟨rfl, rfl, hnames⟩ := Closure.eq_of_build hbuild
  have hk := name.items free k c.free hfree (Place.freeNames_eq_ok hnames)
  rw [take_items_whole] at hk
  rw [Value.encode_record, Value.ofClosure, Json.closureOf, Value.ofJson_obj]
  simp only [List.map_cons, List.map_nil, Value.ofJson_str, ← hk, ← hname.eq_ofJson rfl rfl,
    ← hlabel.eq_ofJson rfl rfl, Value.encode_names, Value.encode_str]
  rfl

theorem record : Intake.record.Reads
    (fun v c => ∃ q : Place, q.record v = (.ok c : Except BuildFault Closure))
    fun c => (Value.record c).encode := by
  rintro v j c hv ⟨q, hread⟩
  obtain rfl | ⟨name, label, free, hdict, hitems, hbuild⟩ := Place.record_eq_ok hread
  · have hj := hv.encode_of_isBuilt rfl
    cases j with
    | obj members => exact hj
    | arr items =>
      rw [Value.encode_record, Value.ofJson_arr] at hj
      cases hj
    | _ =>
      rw [Value.encode_record] at hj
      cases hj
  · obtain ⟨js, rfl, hwritten⟩ := hv.forall₂_items_of_not_dict hdict hitems
    obtain _ | ⟨hname, _ | ⟨hlabel, _ | ⟨hfree, _ | _⟩⟩⟩ := hwritten
    exact closure hbuild hname hlabel hfree

theorem records : Intake.records.Reads (fun v cs => (∀ es, v ≠ .dict es) ∧ ∃ vs,
      v.items? = some vs ∧ List.Forall₂ (fun u c => ∃ q : Place,
        q.record u = (.ok c : Except BuildFault Closure)) vs cs)
    (fun cs => .list (cs.map fun c => (Value.record c).encode)) := by
  rintro v j cs hv ⟨hdict, vs, hitems, hread⟩
  obtain ⟨js, rfl, hwritten⟩ := hv.forall₂_items_of_not_dict hdict hitems
  have hrecords := record.forall₂ hwritten hread
  rw [take, Json.mapItems, Value.ofJson_arr]
  exact congrArg Value.list hrecords

end Intake.Reads

/-- **What a field is read from is taken for what the field is**, by the shape of the field. -/
theorem Shape.encode_of_read {s : Shape} {x : Field Tree} (hv : Written v j)
    (h : s.read f p v = (.ok x : Except BuildFault (Field Tree))) :
    (ofField x).encode = ofJson (s.intake.take j) := by
  cases s with
  | name =>
    obtain ⟨n, hn, rfl⟩ := map_eq_ok_iff.mp h
    exact (Value.encode_str n).trans (Intake.Reads.name v j n hv (Place.name_eq_ok hn))
  | flag =>
    obtain ⟨b, hb, rfl⟩ := map_eq_ok_iff.mp h
    exact (Value.encode_bool b).trans
      (Intake.Reads.whole (fun _ => ⟨rfl, rfl⟩) v j b hv (Place.flag_eq_ok hb))
  | int64 =>
    obtain ⟨n, hn, rfl⟩ := map_eq_ok_iff.mp h
    exact (Value.encode_int n.toInt).trans
      (Intake.Reads.whole (g := fun n : Int64 => .int n.toInt) (fun _ => ⟨rfl, rfl⟩) v j n hv
        (Place.int64_eq_ok hn))
  | node =>
    obtain ⟨t, ht, rfl⟩ := map_eq_ok_iff.mp h
    exact Intake.Reads.node v j t hv (Place.node_eq_ok ht)
  | nodes =>
    obtain ⟨ts, hts, rfl⟩ := map_eq_ok_iff.mp h
    have hitems := Intake.Reads.node.items v j ts hv (Place.nodes_eq_ok hts)
    rw [ofField, Value.encode_tuple, List.map_map]
    exact hitems
  | names =>
    obtain ⟨ns, hns, rfl⟩ := map_eq_ok_iff.mp h
    exact (Value.encode_names ns).trans
      (Intake.Reads.name.items v j ns hv (Place.names_eq_ok hns))
  | nameSet =>
    obtain ⟨ns, hns, rfl⟩ := map_eq_ok_iff.mp h
    exact (Value.encode_names ns).trans
      (Intake.Reads.name.items v j ns hv (Place.names_eq_ok hns))
  | bindings =>
    obtain ⟨es, hes, rfl⟩ := map_eq_ok_iff.mp h
    have hpairs := Intake.Reads.node.mapping (fun _ _ _ => Place.node_eq_ok) v j es hv ⟨p, hes⟩
    exact (Value.encode_pairs Value.node es).trans hpairs
  | locations =>
    obtain ⟨es, hes, rfl⟩ := map_eq_ok_iff.mp h
    have hpairs := Intake.Reads.name.mapping (fun _ _ _ => Place.name_eq_ok) v j es hv ⟨p, hes⟩
    rw [ofField, Value.encode_pairs]
    simp only [Value.encode_str]
    exact hpairs
  | graph =>
    obtain ⟨es, hes, rfl⟩ := map_eq_ok_iff.mp h
    have hpairs := Intake.Reads.name.items.mapping (fun _ _ _ => Place.names_eq_ok) v j es hv
      ⟨p, hes⟩
    rw [ofField, Value.encode_pairs fun ns : List String => Value.tuple (ns.map .str)]
    simp only [Value.encode_names]
    exact hpairs
  | frames =>
    obtain ⟨vs, hvs, h⟩ := bind_eq_ok_iff.mp h
    obtain ⟨fs, hfs, h⟩ := bind_eq_ok_iff.mp h
    obtain rfl := Except.ok.inj h
    have hnames := (Place.forall₂_of_each hfs).imp fun _ _ hns => Place.names_eq_ok hns.choose_spec
    have hitems := Intake.Reads.name.items.items v j fs hv ⟨vs, Place.sequence_eq_ok hvs, hnames⟩
    rw [ofField, Value.encode_tuple, List.map_map]
    simp only [Function.comp_def, Value.encode_names]
    exact hitems
  | records =>
    obtain ⟨cs, hcs, rfl⟩ := map_eq_ok_iff.mp h
    have hrecords := Intake.Reads.records v j cs hv (Place.records_eq_ok hcs)
    rw [ofField, Value.encode_tuple, List.map_map]
    exact hrecords

/-! ### Descriptions -/

/-- A member that was decoded from another one, which has its name. -/
def Value.WrittenMember (e : String × Value) (m : String × Json) : Prop :=
  e.1 = m.1 ∧ Written e.2 m.2

open Value (WrittenMember)

theorem writtenMember_zip {vs : List Value} {ms : List (String × Json)}
    (h : List.Forall₂ Written vs (ms.map Prod.snd)) :
    List.Forall₂ WrittenMember ((ms.map Prod.fst).zip vs) ms := by
  induction ms generalizing vs with
  | nil => simp
  | cons m ms ih =>
    obtain _ | ⟨hw, hvs⟩ := h
    exact .cons ⟨rfl, hw⟩ (ih hvs)

theorem written_of_writtenMember_zip {names : List String} {ws : List Value}
    {es : List (String × Json)} (hlength : ws.length = names.length)
    (h : List.Forall₂ WrittenMember (names.zip ws) es) :
    es.map Prod.fst = names ∧ List.Forall₂ Written ws (es.map Prod.snd) := by
  induction names generalizing ws es with
  | nil =>
    obtain rfl := List.length_eq_zero_iff.mp hlength
    cases h
    exact ⟨rfl, .nil⟩
  | cons n names ih =>
    obtain _ | ⟨w, ws⟩ := ws
    · simp at hlength
    · obtain _ | ⟨⟨hn, hw⟩, hes⟩ := h
      obtain ⟨hnames, hws⟩ := ih (Nat.succ.inj hlength) hes
      exact ⟨by rw [List.map_cons, hnames, ← hn], .cons hw hws⟩

/-- The fields of a node are taken one by one. -/
theorem Kind.encode_fields {k : Kind} {schema : Schema} {ws : List Value} {js : List Json}
    {fs : List (Field Tree)} (hlength : ws.length = schema.length)
    (hread : k.readFields schema ws = (.ok fs : Except BuildFault (List (Field Tree))))
    (hwritten : List.Forall₂ Written ws js) :
    (schema.map Prod.fst).zipWith (fun n v => (Value.str n, v))
        ((fs.map ofField).map Value.encode) =
      (schema.zipWith (fun e j => (e.1, e.2.intake.take j)) js).map
        fun m => (Value.str m.1, ofJson m.2) := by
  have hfields := forall₂_of_readFields hlength hread
  clear hread
  induction schema generalizing ws js fs with
  | nil => simp
  | cons e schema ih =>
    cases hwritten with
    | nil => simp at hlength
    | cons hw hws =>
      obtain _ | ⟨hx, hxs⟩ := hfields
      have hfield := Shape.encode_of_read hw hx
      simp only [List.map_cons, List.zipWith_cons_cons, hfield]
      rw [ih (Nat.succ.inj hlength) hws hxs]

namespace Head

variable {h : Head} {members : List (String × Json)} {vs : List Value}

/-- The arguments and fallbacks of what is built are the members of its completed description. -/
theorem writtenMember_completed {ds : List (String × Value)} {ws : List Value}
    (hvs : List.Forall₂ Written vs (members.map Prod.snd))
    (hlength : ws.length = h.fieldNames.length)
    (hperm : ((members.map Prod.fst).zip vs ++ ds).Perm (h.fieldNames.zip ws))
    (hds : ∀ d ∈ ds, h = .closure ∧ d = ("free", .tuple [])) :
    List.Forall₂ WrittenMember ((members.map Prod.fst).zip vs ++ ds) (h.completed members) := by
  have hmembers := writtenMember_zip hvs
  have hvsLength : vs.length = members.length := by simpa using hvs.length_eq
  have hnames : (members.map Prod.fst ++ ds.map Prod.fst).Perm h.fieldNames := by
    have := hperm.map Prod.fst
    rwa [List.map_append, List.map_fst_zip (by simp [hvsLength]),
      List.map_fst_zip (Nat.le_of_eq hlength.symm)] at this
  have hnodup := hnames.nodup_iff.mpr h.nodup_fieldNames
  cases ds with
  | nil =>
    rw [completed, if_neg, List.append_nil]
    · exact hmembers
    · rintro ⟨rfl, hfree⟩
      rw [List.map_nil, List.append_nil] at hnames
      exact hfree (hnames.mem_iff.mpr (by decide))
  | cons d ds =>
    obtain ⟨rfl, rfl⟩ := hds d (List.mem_cons_self ..)
    rw [List.map_cons, List.nodup_append] at hnodup
    obtain ⟨-, hrest, hdisjoint⟩ := hnodup
    cases ds with
    | nil =>
      rw [completed, if_pos ⟨rfl, fun hfree => hdisjoint _ hfree _ (List.mem_cons_self ..) rfl⟩]
      exact List.rel_append hmembers (.cons ⟨rfl, .items .nil⟩ .nil)
    | cons d ds =>
      obtain ⟨-, rfl⟩ := hds d (List.mem_cons_of_mem _ (List.mem_cons_self ..))
      simp at hrest

/-- **What a description is decoded to** is written as the description, arranged. -/
theorem encode_of_call {v : Value} (hvs : List.Forall₂ Written vs (members.map Prod.snd))
    (hv : h.call ⟨[], (members.map Prod.fst).zip vs⟩ = (.ok v : Except BuildFault Value)) :
    v.isBuilt ∧ v.encode = ofJson (h.arranged (fun s => s.intake.take) members) := by
  obtain ⟨ws, ds, hbuild, hlength, hperm, hds⟩ := perm_of_call hv
  obtain ⟨es, hes, hperm'⟩ := List.perm_comp_forall₂ hperm.symm
    (writtenMember_completed hvs hlength hperm hds)
  obtain ⟨hnames, hws⟩ := written_of_writtenMember_zip hlength hes
  rw [arranged_eq hnames hperm'.symm]
  obtain ⟨k, t, rfl, ht, rfl⟩ | ⟨name, label, free, c, rfl, rfl, hc, rfl⟩ := eq_of_build hbuild
  · obtain ⟨fs, hfs, rfl⟩ := Kind.eq_of_build ht
    refine ⟨rfl, ?_⟩
    rw [Value.encode_node, Value.described, Value.ofJson_obj, List.map_cons,
      Kind.encode_fields (by simpa [fieldNames] using hlength) hfs hws]
    simp [Head.name, fields]
  · generalize es.map Prod.snd = js at hws ⊢
    obtain _ | ⟨hname, _ | ⟨hlabel, _ | ⟨hfree, _ | _⟩⟩⟩ := hws
    refine ⟨rfl, (Intake.Reads.closure hc hname hlabel hfree).trans ?_⟩
    rw [← Intake.take_items_whole]
    rfl

end Head

/-! ### Documents -/

namespace Json

variable {members : List (String × Json)} {kind : Json} {h : Head}

theorem head?_of_headOf (hkind : get? "kind" members = some kind)
    (hh : headOf f kind members = .ok h) : head? f members = some h := by
  obtain ⟨rfl, hname, -⟩ := eq_of_headOf hh
  rw [head?, hkind]
  exact hname

theorem forall₂_written {js : List Json} {vs : List Value}
    (ih : ∀ k ∈ js, ∀ v, decode f k = .ok v → Written v (k.taken f))
    (h : js.mapM (decode f) = .ok vs) : List.Forall₂ Written vs (js.map (taken f)) := by
  have hvs := mapM_eq_ok_iff.mp h
  clear h
  induction hvs with
  | nil => exact .nil
  | @cons j v js vs hv _ ihs =>
    exact .cons (ih j (List.mem_cons_self ..) v hv)
      (ihs fun k hk => ih k (List.mem_cons_of_mem _ hk))

/-- **What a document value is decoded to** is written as what the document value is taken for. -/
theorem written_of_decode (hv : decode f j = .ok v) : Written v (j.taken f) := by
  induction j using Json.induct generalizing v with
  | step j ih =>
    cases j with
    | arr items =>
      rw [decode_arr, map_eq_ok_iff] at hv
      obtain ⟨vs, hvs, rfl⟩ := hv
      rw [taken_arr]
      exact .items (forall₂_written (fun k hk v => ih k hk) hvs)
    | obj members =>
      cases hkind : get? "kind" members with
      | none =>
        rw [decode_kindless hkind, map_eq_ok_iff] at hv
        obtain ⟨vs, hvs, rfl⟩ := hv
        have hwritten := forall₂_written (fun k hk v => ih k hk) hvs
        rw [parts, fieldMembers_of_kindless hkind] at hwritten
        have hlength : vs.length = members.length := by simpa using hwritten.length_eq
        rw [taken_of_kindless hkind, fieldMembers_of_kindless hkind]
        refine .mapping ((get?_map ..).trans (by rw [hkind]; rfl)) ?_ ?_
        · rw [List.map_fst_zip (by simp [hlength]), List.map_map]
          rfl
        · rw [List.map_snd_zip (by simp [hlength]), List.map_map]
          rwa [List.map_map] at hwritten
      | some kind =>
        obtain ⟨h, vs, hh, hvs, hcall⟩ := call_of_decode hkind hv
        have hwritten := forall₂_written (fun k hk v => ih k hk) hvs
        have hbuilt := @Head.encode_of_call h
          ((fieldMembers members).map fun m => (m.1, taken f m.2)) vs v
          (by simpa [parts, Function.comp_def] using hwritten)
          (by simpa [Function.comp_def] using hcall)
        rw [taken_of_head? (head?_of_headOf hkind hh)]
        exact .built hbuilt.1 hbuilt.2
    | _ =>
      obtain rfl := Except.ok.inj hv
      exact .scalar rfl rfl

end Json

/-- **Encoding what has been decoded** gives what the document was taken for. -/
theorem Tree.encode_of_decode {d : Json} {t : Tree}
    (h : decode (.ofJson d) (.str f.name) = (.ok t : Except DecodeFault Tree)) :
    (Value.node t).encode = ofJson (d.taken f) := by
  rw [decode_ofJson] at h
  obtain ⟨members, kind, rfl, -, hv⟩ := Json.eq_of_describedTree h
  exact (Json.written_of_decode hv).encode_of_isBuilt rfl

end LoweringIR
