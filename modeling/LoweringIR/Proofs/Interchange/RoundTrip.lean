import LoweringIR.Document
import LoweringIR.Proofs.Interchange.Decode
import LoweringIR.Proofs.Interchange.Encode
import LoweringIR.Proofs.Interchange.Read
import LoweringIR.Proofs.Rendering.Text

/-!
# Documents give trees back

What is encoded is decoded to itself. The two walks take a value apart in the same way, so the proof
goes along the tree: a node is decoded by building it from its decoded fields, those are the values
of its fields by induction, and building is reading them back. Names are names throughout, also when
one of them is that of a key; repeated names stay repeated, in their order.

Closure records have no place of their own in trees. They can be decoded where their name is known,
which is in the documents of the one family that has kinds with records in them.

## Main definitions

* `Value.RoundTrips` — a value is decoded from what it is encoded to

## Main results

* `Value.roundTrips_node` — every whole well-formed tree makes the round trip
* `Tree.decode_encode` — with its family and with its text in both arrangements
-/

namespace LoweringIR

/-- Only kinds of the high-level form have closure records. -/
theorem Kind.family_of_records {k : Kind} (h : Shape.records ∈ k.schema.map Prod.snd) :
    k.family = .scheme := by
  rcases k with ⟨d, k⟩ | k | k | k
  · cases k <;> simp [schema, CommonKind.schema] at h
  · rfl
  · cases k <;> simp [schema, RegallocKind.schema] at h
  · cases k <;> simp [schema, AsmKind.schema] at h

namespace Value

/-- A value is decoded from what it is encoded to, in documents of a family. -/
def RoundTrips (f : Family) (v : Value) : Prop := decoded f v.encode = .ok v

variable {f : Family}

/-- What is left as it is in both directions makes the round trip. -/
theorem roundTrips_of_leaf {v : Value} (he : v.encodeStep = .leaf v)
    (hd : decodeStep f v = .ok (.leaf v)) : RoundTrips f v := by
  rw [RoundTrips, encode_of_leaf he]
  exact decoded_of_leaf hd

theorem roundTrips_str (s : String) : RoundTrips f (str s) := roundTrips_of_leaf rfl rfl

theorem roundTrips_bool (b : Bool) : RoundTrips f (bool b) := roundTrips_of_leaf rfl rfl

theorem roundTrips_int (n : Int) : RoundTrips f (int n) := roundTrips_of_leaf rfl rfl

theorem mapM_decoded_encode {vs : List Value} (h : ∀ v ∈ vs, RoundTrips f v) :
    (vs.map encode).mapM (decoded f) = .ok vs :=
  mapM_map_eq_pure h

theorem roundTrips_tuple {vs : List Value} (h : ∀ v ∈ vs, RoundTrips f v) :
    RoundTrips f (tuple vs) := by
  rw [RoundTrips, encode_tuple, decoded_list (mapM_decoded_encode h)]

/-- A tuple makes the round trip if what it is made of does. -/
theorem roundTrips_tuple_map {α : Type} {g : α → Value} {as : List α}
    (h : ∀ a ∈ as, RoundTrips f (g a)) : RoundTrips f (tuple (as.map g)) :=
  roundTrips_tuple (List.forall_mem_map.mpr h)

theorem roundTrips_names (ns : List String) : RoundTrips f (tuple (ns.map str)) :=
  roundTrips_tuple_map fun n _ => roundTrips_str n

theorem roundTrips_pair {v w : Value} (hv : RoundTrips f v) (hw : RoundTrips f w) :
    RoundTrips f (tuple [v, w]) :=
  roundTrips_tuple (by simp [hv, hw])

/-- Closure records are described in documents of the high-level form. -/
theorem roundTrips_record (c : Closure) : RoundTrips .scheme (record c) := by
  have hmembers : ((ofClosure c).map encode).mapM (decoded .scheme) = .ok (ofClosure c) :=
    mapM_decoded_encode (by simp [ofClosure, roundTrips_str, roundTrips_names])
  have hdecoded := @decoded_described .scheme .closure _ _ (by decide) rfl hmembers
  have hbuild : (Head.closure.build (ofClosure c) : Except BuildFault Value) = .ok (record c) :=
    congrArg (Value.record <$> ·) c.build_ofClosure
  rw [hbuild] at hdecoded
  rw [RoundTrips, encode_record]
  exact hdecoded

/-- The value of a field makes the round trip if its children do, and if records are known where it
holds some. -/
theorem roundTrips_ofField {x : Field Tree} (hx : ∀ t ∈ x.children, RoundTrips f (node t))
    (hrecords : x.shape = .records → f = .scheme) : RoundTrips f (ofField x) := by
  cases x with
  | name s => exact roundTrips_str s
  | flag b => exact roundTrips_bool b
  | int64 n => exact roundTrips_int n.toInt
  | node t => exact hx t (by simp [Field.children])
  | nodes ts => exact roundTrips_tuple_map hx
  | names ns => exact roundTrips_names ns
  | nameSet ns => exact roundTrips_names ns
  | bindings es =>
    exact roundTrips_tuple_map fun e he =>
      roundTrips_pair (roundTrips_str e.1) (hx e.2 (List.mem_map_of_mem he))
  | locations es =>
    exact roundTrips_tuple_map fun e _ => roundTrips_pair (roundTrips_str e.1) (roundTrips_str e.2)
  | graph es =>
    exact roundTrips_tuple_map fun e _ =>
      roundTrips_pair (roundTrips_str e.1) (roundTrips_names e.2)
  | frames fs => exact roundTrips_tuple_map fun ns _ => roundTrips_names ns
  | records cs =>
    rw [hrecords rfl]
    exact roundTrips_tuple_map fun c _ => roundTrips_record c

/-- **Every whole well-formed tree makes the round trip** in documents of its family. -/
theorem roundTrips_node {t : Tree} (hw : t.WellFormed) (hc : t.Whole)
    (hf : t.family? = some f) : RoundTrips f (node t) := by
  refine hw.induct_whole (P := fun t => t.family? = some f → RoundTrips f (node t)) hc ?_ hf
  intro k fs hw hc ih hf
  obtain rfl : k.family = f := Option.some.inj hf
  have hfields : ∀ x ∈ fs, RoundTrips k.family (ofField x) := by
    intro x hx
    refine roundTrips_ofField (fun t ht => ?_) fun hrecords => ?_
    · have hmem : t ∈ fs.flatMap Field.children := List.mem_flatMap.mpr ⟨x, hx, ht⟩
      exact ih t hmem (hw.fits.family t hmem)
    · exact k.family_of_records (hw.fits.shapes ▸ hrecords ▸ List.mem_map_of_mem hx)
  have hlength : ((fs.map ofField).map encode).length = (Head.node k).fieldNames.length := by
    simpa [Head.fieldNames] using hw.fits.length_eq
  have hmembers := mapM_decoded_encode (List.forall_mem_map.mpr hfields)
  have hdecoded := decoded_described (Family.head?_name k) hlength hmembers
  have hbuild : ((Head.node k).build (fs.map ofField) : Except BuildFault Value) =
      .ok (node (.node k fs)) := congrArg (Value.node <$> ·) (Kind.build_ofField hw.fits)
  rw [hbuild] at hdecoded
  rw [RoundTrips, encode_node]
  exact hdecoded

end Value

namespace Tree

variable {t : Tree} {f : Family}

/-- A node that makes the round trip as a value makes it as a tree. -/
theorem decode_eq_ok {k : Kind} {fs : List (Field Tree)}
    (hv : Value.RoundTrips f (.node (.node k fs))) :
    decode (Value.node (.node k fs)).encode (.str f.name) =
      (.ok (.node k fs) : Except DecodeFault Tree) := by
  have hresult : (Value.decodeWalk f).result (Value.node (.node k fs)).encode =
      (.ok (.node (.node k fs)) : Except DecodeFault Value) := by
    rw [Walk.result_eq_value]
    exact hv
  rw [Value.encode_node, Value.described] at hresult ⊢
  rw [decode, Family.ofValue_name, ofExcept_ok, ok_bind, ofDescription, Value.find?,
    List.find?_cons_of_pos (by simp [Value.isText, Value.kindKey])]
  dsimp only [Option.map_some]
  rw [hresult]
  rfl

/-- **Decoding undoes encoding.** A whole well-formed tree belongs to a family, its encoding is
decoded to that tree in the name of the family, and so to a tree of that family with the same texts.
-/
theorem decode_encode (hw : t.WellFormed) (hc : t.Whole) (hf : t.family? = some f) :
    Document.familyOf t = .ok f ∧
    ∃ u, decode (Value.node t).encode (.str f.name) = (.ok u : Except DecodeFault Tree) ∧ u = t ∧
      Document.familyOf u = .ok f ∧
      ∀ a, ∃ text, t.render a = .ok text ∧ u.render a = .ok text := by
  have hfamily : Document.familyOf t = .ok f := by rw [Document.familyOf, hf]
  have hrender : ∀ a, t.render a = .ok (t.text a) := fun a => render_eq_text hw hc
  have htrip := Value.roundTrips_node hw hc hf
  cases t with
  | blank g n => exact absurd hc (not_whole_blank g n)
  | node k fs =>
    exact ⟨hfamily, _, decode_eq_ok htrip, rfl, hfamily, fun a => ⟨_, hrender a, hrender a⟩⟩

/-- A group of closures around a binding that binds one name twice. The names are ones that could be
taken for something else. -/
def closuresLet : Tree :=
  .node (.scheme .closures)
    [.records [⟨"kind", "", ["Closure", "Closure"]⟩, ⟨"kind", "label", []⟩],
      .node (.node (.scheme .letIn)
        [.bindings [("kind", .node (.common .scheme .symbol) [.name ""]),
            ("kind", .node (.common .scheme .int64) [.int64 (-1)])],
          .node (.node (.common .scheme .symbol) [.name "kind"])])]

theorem decode_closuresLet :
    ∃ u, decode (Value.node closuresLet).encode (.str "scheme") =
      (.ok u : Except DecodeFault Tree) ∧ u = closuresLet := by
  obtain ⟨-, u, hu, heq, -⟩ :=
    decode_encode (t := closuresLet) (f := .scheme) (by decide) (by decide) rfl
  exact ⟨u, hu, heq⟩

end Tree

end LoweringIR
