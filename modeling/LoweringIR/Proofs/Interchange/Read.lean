import LoweringIR.Proofs.Tree.WellFormed

/-!
# Reading the values of fields

A field is a value in one way and is read from values in many. Here is the way there and back: the
value of a field, read by the shape of that field, is the field. Nothing is refused on the way,
because the children of a well-formed node have the family that reading asks for and every number is
in range, and nothing is put in another order, because each collection is read from the front. No
stream is drawn from either, since the collections in the value of a field are tuples; so in every
monad reading it is the result alone.

## Main results

* `Shape.read_ofField` — reading the value of a field
* `Kind.build_ofField` — building a node from the values of fields that fit its kind
* `Closure.build_ofClosure` — building a closure record from the values of its fields
-/

namespace LoweringIR

open Value

/-- The field is a mapping. -/
def Shape.isMapping : Shape → Bool
  | .bindings | .locations | .graph => true
  | _ => false

/-- The field is a sequence. -/
def Shape.isSequence : Shape → Bool
  | .nodes | .names | .nameSet | .frames | .records => true
  | _ => false

variable {m : Type → Type → Type} [∀ ε, Monad (m ε)]

/-! ### Going through tuples -/

namespace Value

variable [∀ ε, LawfulMonad (m ε)] [Draws m] {ε α : Type}

@[simp] theorem draw?_tuple (vs : List Value) :
    ((tuple vs).draw? : m ε (Option (List Value))) = pure (some vs) := by
  simp [draw?, remaining?, leave, items?]

/-- However fast a tuple is gone through, its items are read one after the other. -/
theorem readInTurn_tuple (ws : List Value) (read : Nat → Value → m ε α) (position : Nat)
    (vs : List Value) :
    readInTurn (tuple ws) read position vs =
      (vs.zipIdx position).mapM fun v => read v.2 v.1 := by
  induction vs generalizing position with
  | nil => simp [readInTurn, leave]
  | cons v vs ih => simp [readInTurn, leave, ih]

end Value

/-! ### Reading back -/

namespace Place

variable {p : Place} {α : Type}

/-- Items that are read back wherever they stand are all read back. -/
theorem each_map [∀ ε, LawfulMonad (m ε)] {read : Place → Value → m BuildFault α}
    {g : α → Value} {as : List α} (h : ∀ a ∈ as, ∀ q, read q (g a) = pure a) :
    p.each read (as.map g) = pure as := by
  rw [each, List.zipIdx_map, List.mapM_map, mapM_eq_pure_map (g := Prod.fst), List.zipIdx_map_fst]
  rintro ⟨a, i⟩ ha
  exact h a (List.fst_mem_of_mem_zipIdx ha) _

variable [∀ ε, MonadExceptOf ε (m ε)]

@[simp] theorem name_str (s : String) : (p.name (str s) : m BuildFault String) = pure s := rfl

@[simp] theorem flag_bool (b : Bool) : (p.flag (bool b) : m BuildFault Bool) = pure b := rfl

@[simp] theorem int64_toInt (n : Int64) :
    (p.int64 (int n.toInt) : m BuildFault Int64) = pure n := by
  rw [int64, if_pos ⟨n.minValue_le_toInt, n.toInt_le⟩, Int64.ofInt_toInt]

theorem node_of_family {f : Family} {t : Tree} (h : t.family? = some f) :
    (p.node f (.node t) : m BuildFault Tree) = pure t := by
  rw [node, if_pos h]

@[simp] theorem record_record [Draws m] (c : Closure) :
    (p.record (.record c) : m BuildFault Closure) = pure c := rfl

variable [∀ ε, LawfulMonad (m ε)] [Draws m]

@[simp] theorem sequence_tuple (vs : List Value) :
    (p.sequence (tuple vs) : m BuildFault (List Value)) = pure vs := by
  rw [sequence, draw?_tuple, pure_bind]

@[simp] theorem names_map_str (ns : List String) :
    (p.names (tuple (ns.map str)) : m BuildFault (List String)) = pure ns := by
  rw [names, sequence_tuple, pure_bind]
  exact mapM_map_eq_pure fun n _ => name_str n

@[simp] theorem freeNames_map_str (ns : List String) :
    (p.freeNames (tuple (ns.map str)) : m BuildFault (List String)) = pure ns := by
  rw [freeNames, draw?_tuple, pure_bind]
  exact mapM_map_eq_pure fun n _ => name_str n

theorem nodes_map {f : Family} {ts : List Tree} (h : ∀ t ∈ ts, t.family? = some f) :
    (p.nodes f (tuple (ts.map .node)) : m BuildFault (List Tree)) = pure ts := by
  rw [nodes, sequence_tuple, pure_bind]
  exact each_map fun t ht _ => node_of_family (h t ht)

@[simp] theorem pair_tuple (v w : Value) :
    (p.pair (tuple [v, w]) : m BuildFault (Value × Value)) = pure (v, w) := by
  rw [pair, draw?_tuple, pure_bind]

@[simp] theorem pairs_map (es : List (Value × Value)) :
    (p.pairs (tuple (es.map fun e => tuple [e.1, e.2])) : m BuildFault (List (Value × Value))) =
      pure es := by
  rw [pairs, sequence_tuple, pure_bind]
  · exact each_map fun e _ _ => pair_tuple e.1 e.2
  · exact fun _ h => nomatch h

/-- A mapping whose values are read back wherever they stand is read back, in its order and with
its names as often as they come. -/
theorem mapping_map {read : Place → Value → m BuildFault α} {g : α → Value}
    {es : List (String × α)} (h : ∀ e ∈ es, ∀ q, read q (g e.2) = pure e.2) :
    p.mapping read (tuple (es.map fun e => tuple [str e.1, g e.2])) = pure es := by
  have hpairs : (p.pairs (tuple (es.map fun e => tuple [str e.1, g e.2])) : m BuildFault _) =
      pure (es.map fun e => (str e.1, g e.2)) := by
    have := pairs_map (m := m) (p := p) (es.map fun e => (str e.1, g e.2))
    rwa [List.map_map] at this
  rw [mapping, hpairs, pure_bind]
  refine mapM_map_eq_pure fun e he => ?_
  rw [name_str, pure_bind, h e he, pure_bind]

@[simp] theorem records_map (cs : List Closure) :
    (p.records (tuple (cs.map .record)) : m BuildFault (List Closure)) = pure cs := by
  have hturn := readInTurn_tuple (m := m) (cs.map Value.record)
    (fun i => (p.item (.nth i)).record) 0 (cs.map Value.record)
  have heach : p.each record (cs.map Value.record) = (pure cs : m BuildFault _) :=
    each_map fun c _ _ => record_record c
  simp only [records, remaining?, items?, pure_bind]
  rw [hturn]
  exact heach

end Place

variable [∀ ε, MonadExceptOf ε (m ε)] [∀ ε, LawfulMonad (m ε)] [Draws m]
  {f : Family} {p : Place}

/-- **Reading the value of a field** by its shape gives the field. -/
theorem Shape.read_ofField {x : Field Tree} (h : ∀ t ∈ x.children, t.family? = some f) :
    (x.shape.read f p (ofField x) : m BuildFault (Field Tree)) = pure x := by
  cases x with
  | name s => simp [Field.shape, read, ofField]
  | flag b => simp [Field.shape, read, ofField]
  | int64 n => simp [Field.shape, read, ofField]
  | node t =>
    have ht : t.family? = some f := h t (by simp [Field.children])
    simp [Field.shape, read, ofField, Place.node_of_family ht]
  | nodes ts =>
    have hts : ∀ t ∈ ts, t.family? = some f := h
    rw [Field.shape, read, ofField, Place.nodes_map hts, map_pure]
  | names ns => simp [Field.shape, read, ofField]
  | nameSet ns => simp [Field.shape, read, ofField]
  | bindings es =>
    rw [Field.shape, read, ofField, Place.mapping_map fun e he q => ?_, map_pure]
    exact Place.node_of_family (h e.2 (List.mem_map_of_mem he))
  | locations es =>
    rw [Field.shape, read, ofField, Place.mapping_map fun e _ q => Place.name_str e.2, map_pure]
  | graph es =>
    rw [Field.shape, read, ofField,
      Place.mapping_map (g := fun ns : List String => tuple (ns.map str))
        fun e _ q => Place.names_map_str e.2, map_pure]
  | frames fs =>
    rw [Field.shape, read, ofField, Place.sequence_tuple, pure_bind,
      Place.each_map fun ns _ q => Place.names_map_str ns, pure_bind]
  | records cs => simp [Field.shape, read, ofField]

namespace Kind

variable {k : Kind} {fs : List (Field Tree)}

/-- The values of fields are read back by any schema with their shapes, also where closure records
are read late. -/
theorem readFields_ofField {schema : Schema} (hshapes : fs.map Field.shape = schema.map Prod.snd)
    (hfamily : ∀ t ∈ fs.flatMap Field.children, t.family? = some k.family) :
    (k.readFields schema (fs.map ofField) : m BuildFault (List (Field Tree))) = pure fs := by
  induction fs generalizing schema with
  | nil =>
    rw [List.map_nil, readFields]
    all_goals simp
  | cons x fs ih =>
    obtain _ | ⟨⟨n, s⟩, schema⟩ := schema
    · simp at hshapes
    · simp only [List.map_cons, List.cons.injEq] at hshapes
      obtain ⟨rfl, hshapes⟩ := hshapes
      rw [List.flatMap_cons, List.forall_mem_append] at hfamily
      have hx := Shape.read_ofField (m := m) (p := k.place n) hfamily.1
      have hfs := ih hshapes hfamily.2
      rw [List.map_cons]
      by_cases hrecords : x.shape = .records
      · rw [hrecords] at hx ⊢
        rw [readFields, hfs, pure_bind, hx, pure_bind]
      · rw [readFields, hx, pure_bind, hfs, pure_bind]
        exact hrecords

/-- **Building a node** from the values of fields that fit its kind gives the node with them. -/
theorem build_ofField (h : k.Fits fs) :
    (k.build (fs.map ofField) : m BuildFault Tree) = pure (.node k fs) := by
  rw [build, readFields_ofField h.shapes h.family, pure_bind, check_eq_ok_iff.mpr h.admitted]
  exact pure_bind ..

end Kind

/-- Building a closure record from the values of its fields gives the record. -/
theorem Closure.build_ofClosure (c : Closure) :
    (build (str c.name) (str c.label) (tuple (c.free.map str)) : m BuildFault Closure) =
      pure c := by
  simp [build, textAt]

end LoweringIR
