import LoweringIR.Proofs.Building.Sound

/-!
# What can be built

A caller has values at hand: scalars, whatever collections are made of such values, blanks, and what
has been built from such values before. Arguments may share a stream with each other and with
earlier calls, so a call starts from what is left in the streams, and leaves less in them.

The nodes among the values at hand are the well-formed ones. None of the others can be built, since
whatever a call makes of its arguments fits its kind if it makes anything of them. All of them can,
since a call for the fields that a node has already gives the node back: reading the value of a
field changes nothing about it.

Well-formedness is about fields, in which many a condition is a matter of types. A caller sees the
values of fields, so what well-formedness means for them is said here as well.

## Main definitions

* `Shape.Holds` — what a value is that stands in a field of a shape
* `Value.Constructed` — the values that a caller can have at hand

## Main results

* `Tree.WellFormed.fieldsHold` — the values of the fields of well-formed trees
* `Head.call_fields` — calling for the fields that something has already
* `Tree.constructed_iff_wellFormed` — the nodes that can be built
-/

namespace LoweringIR

/-! ### The values of fields -/

namespace Value

/-- The value is a text. -/
def IsName (v : Value) : Prop := ∃ s, v = str s

/-- The value is a truth value. -/
def IsFlag (v : Value) : Prop := ∃ b, v = bool b

/-- The value is an integer of 64 bits. -/
def IsInt64 (v : Value) : Prop :=
  ∃ n : Int, v = int n ∧ Int64.minValue.toInt ≤ n ∧ n ≤ Int64.maxValue.toInt

/-- The value is a tree of the family. -/
def IsNode (f : Family) (v : Value) : Prop := ∃ t, v = node t ∧ t.family? = some f

/-- The value is a closure record. -/
def IsRecord (v : Value) : Prop := ∃ c, v = record c

/-- The value is a tuple of such items. -/
def IsTuple (P : Value → Prop) (v : Value) : Prop := ∃ vs, v = tuple vs ∧ ∀ w ∈ vs, P w

/-- The value is a pair of a name and of something else. -/
def IsEntry (P : Value → Prop) (v : Value) : Prop := ∃ s w, v = tuple [str s, w] ∧ P w

theorem isTuple_map {α : Type} {P : Value → Prop} {g : α → Value} {as : List α}
    (h : ∀ a ∈ as, P (g a)) : IsTuple P (tuple (as.map g)) :=
  ⟨_, rfl, List.forall_mem_map.mpr h⟩

theorem isTuple_names (ns : List String) : IsTuple IsName (tuple (ns.map str)) :=
  isTuple_map fun n _ => ⟨n, rfl⟩

theorem isInt64_toInt (n : Int64) : IsInt64 (int n.toInt) :=
  ⟨n.toInt, rfl, n.minValue_le_toInt, n.toInt_le⟩

end Value

open Value in
/-- What a value is that stands in a field of this shape, in trees of the family. -/
def Shape.Holds (f : Family) : Shape → Value → Prop
  | .name => IsName
  | .flag => IsFlag
  | .int64 => IsInt64
  | .node => IsNode f
  | .nodes => IsTuple (IsNode f)
  | .names => IsTuple IsName
  | .nameSet => IsTuple IsName
  | .bindings => IsTuple (IsEntry (IsNode f))
  | .locations => IsTuple (IsEntry IsName)
  | .graph => IsTuple (IsEntry (IsTuple IsName))
  | .frames => IsTuple (IsTuple IsName)
  | .records => IsTuple IsRecord

/-- The value of a field is what its shape asks for. -/
theorem Shape.holds_ofField {f : Family} {x : Field Tree}
    (h : ∀ t ∈ x.children, t.family? = some f) : x.shape.Holds f (.ofField x) := by
  cases x with
  | name s => exact ⟨s, rfl⟩
  | flag b => exact ⟨b, rfl⟩
  | int64 n => exact Value.isInt64_toInt n
  | node t => exact ⟨t, rfl, h t (by simp [Field.children])⟩
  | nodes ts => exact Value.isTuple_map fun t ht => ⟨t, rfl, h t ht⟩
  | names ns => exact Value.isTuple_names ns
  | nameSet ns => exact Value.isTuple_names ns
  | bindings es =>
    refine Value.isTuple_map fun e he => ⟨e.1, _, rfl, e.2, rfl, ?_⟩
    exact h e.2 (List.mem_map_of_mem he)
  | locations es => exact Value.isTuple_map fun e _ => ⟨e.1, _, rfl, e.2, rfl⟩
  | graph es => exact Value.isTuple_map fun e _ => ⟨e.1, _, rfl, Value.isTuple_names e.2⟩
  | frames fs => exact Value.isTuple_map fun ns _ => Value.isTuple_names ns
  | records cs => exact Value.isTuple_map fun c _ => ⟨c, rfl⟩

namespace Tree

variable {k : Kind} {fs : List (Field Tree)} {t : Tree}

/-- Every field of a node's kind has a value, and that is what its shape asks for. -/
def FieldsHold (t : Tree) : Prop :=
  ∀ k, t.kind? = some k → ∀ e ∈ k.schema,
    ∃ v, (Value.node t).field? e.1 = some v ∧ e.2.Holds k.family v

/-- A field is found by its name, since no two fields share one. -/
theorem field?_node {i : Nat} (hi : i < k.schema.length) (hi' : i < fs.length) :
    (Value.node (node k fs)).field? k.schema[i].1 = some (.ofField fs[i]) := by
  have hnames : (k.schema.map Prod.fst).Nodup := (Head.node k).nodup_fieldNames
  have hfind : ((k.schema.map Prod.fst).zip fs).find? (fun f => f.1 == k.schema[i].1) =
      some (k.schema[i].1, fs[i]) := by
    rw [List.find?_eq_some_iff_getElem]
    refine ⟨beq_self_eq_true _, i, by simpa using Nat.lt_min.mpr ⟨hi, hi'⟩, by simp, fun j hj => ?_⟩
    have hne : k.schema[j].1 ≠ k.schema[i].1 := by
      intro heq
      have hinj := List.inj_on_of_nodup_map hnames (List.getElem_mem (Nat.lt_trans hj hi))
        (List.getElem_mem hi) heq
      exact Nat.ne_of_lt hj ((List.Nodup.getElem_inj_iff hnames.of_map).mp hinj)
    simpa using hne
  rw [Value.field?, hfind, Option.map_some]

theorem fieldsHold_of_fits (h : k.Fits fs) : FieldsHold (.node k fs) := by
  intro k' hk e he
  obtain rfl := Option.some.inj hk
  obtain ⟨i, hi, rfl⟩ := List.mem_iff_getElem.mp he
  have hi' : i < fs.length := h.length_eq ▸ hi
  have hshape : fs[i].shape = k.schema[i].2 := by
    have := congrArg (fun l : List Shape => l[i]?) h.shapes
    simpa [hi, hi'] using this
  refine ⟨.ofField fs[i], field?_node hi hi', ?_⟩
  rw [← hshape]
  exact Shape.holds_ofField fun t ht =>
    h.family t (List.mem_flatMap.mpr ⟨_, List.getElem_mem hi', ht⟩)

/-- **What a caller sees of a well-formed tree**: the value of every field of every node is what the
shape of the field asks for. -/
theorem WellFormed.fieldsHold (h : t.WellFormed) : t.Everywhere FieldsHold := by
  induction h with
  | @intro t here below ih =>
    refine .intro ?_ ih
    cases t with
    | blank f n => exact fun k hk => nomatch hk
    | node k fs => exact fieldsHold_of_fits here

end Tree

/-- A well-formed tree is of one family throughout. -/
theorem Tree.WellFormed.everywhere_family {t : Tree} (h : t.WellFormed) :
    t.Everywhere fun u => u.family? = t.family? := by
  generalize hf : t.family? = f
  induction h with
  | @intro t here below ih =>
    have ht : t.WellFormed := .intro here below
    exact .intro hf fun u hu => ih u hu ((ht.family_of_mem hu).trans hf)

/-- In a well-formed tree every kind has what it admits. -/
theorem Tree.WellFormed.everywhere_admits {t : Tree} (h : t.WellFormed) :
    t.Everywhere fun u => ∀ k fs, u = .node k fs → k.Admits fs := by
  induction h with
  | @intro t here below ih =>
    refine .intro (fun k fs ht => ?_) ih
    subst ht
    exact Kind.Fits.admitted here

/-! ### The way back -/

namespace Value

/-- The values of the fields of what has been built, in order. -/
def fields : Value → List Value
  | node (.node _ fs) => fs.map ofField
  | record c => ofClosure c
  | _ => []

end Value

/-- **Calling for the fields that something has already** gives it back, however many of them are
given by position and in whatever order the others are named. It draws from no stream. -/
theorem Head.call_fields {m : Type → Type → Type} [∀ ε, Monad (m ε)] [∀ ε, LawfulMonad (m ε)]
    [∀ ε, MonadExceptOf ε (m ε)] [Draws m] {h : Head} {v : Value} (hv : ofValue? v = some h)
    (hw : v.EachTree Tree.WellFormed) {i : Nat} {named : List (String × Value)}
    (hnamed : named.Perm ((h.fieldNames.zip v.fields).drop i)) :
    (h.call ⟨v.fields.take i, named⟩ : m BuildFault Value) = pure v := by
  unfold ofValue? at hv
  split at hv
  · next k fs =>
    obtain rfl := Option.some.inj hv
    have hfits : k.Fits fs := (Value.eachTree_node.mp hw).fits
    have hlength : (fs.map Value.ofField).length = (Head.node k).fieldNames.length := by
      simpa [fieldNames] using hfits.length_eq
    rw [Value.fields] at hnamed ⊢
    rw [call_split hlength hnamed, build, Kind.build_ofField hfits, map_pure]
  · next c =>
    obtain rfl := Option.some.inj hv
    rw [Value.fields] at hnamed ⊢
    rw [call_split rfl hnamed, Value.ofClosure, build, Closure.build_ofClosure, map_pure]
  · cases hv

/-- **One call**, with values in which all trees are well formed, where such values are left in the
streams: what it comes to is of the kind that was called, all trees in it are well formed, and so
they are in what it leaves in the streams. -/
theorem Head.eachTree_of_call {h : Head} {args : Arguments} {s s' : Streams} {v : Value}
    (hpositional : ∀ w ∈ args.positional, w.EachTree Tree.WellFormed)
    (hnamed : ∀ a ∈ args.named, a.2.EachTree Tree.WellFormed)
    (hs : s.Each (Value.EachTree Tree.WellFormed))
    (hcall : (h.call args : Shared BuildFault Value).runFrom s = (.ok v, s')) :
    ofValue? v = some h ∧ v.EachTree Tree.WellFormed ∧
      s'.Each (Value.EachTree Tree.WellFormed) := by
  have hensures := Draws.ensures_shared_iff.mp
    (ensures_call (h := h) Tree.passesUp_wellFormed hpositional hnamed) s hs
  rw [hcall] at hensures
  obtain ⟨hv, hw⟩ := hensures.2 v rfl
  exact ⟨hv, hw, hensures.1⟩

/-! ### Values at hand -/

namespace Value

/-- The values that a caller can have at hand. -/
inductive Constructed : Value → Prop
  | null : Constructed null
  | bool (b : Bool) : Constructed (bool b)
  | int (n : Int) : Constructed (int n)
  | float (x : Binary64) : Constructed (float x)
  | str (s : String) : Constructed (str s)
  | bytes (bs : List UInt8) : Constructed (bytes bs)
  | list {vs : List Value} (h : ∀ v ∈ vs, Constructed v) : Constructed (list vs)
  | tuple {vs : List Value} (h : ∀ v ∈ vs, Constructed v) : Constructed (tuple vs)
  | stream {n : Nat} {vs : List Value} (h : ∀ v ∈ vs, Constructed v) : Constructed (stream n vs)
  | dict {es : List (Value × Value)} (keys : ∀ e ∈ es, Constructed e.1)
    (values : ∀ e ∈ es, Constructed e.2) : Constructed (dict es)
  /-- A blank that has been made. -/
  | blank {f : Option Family} {n : Nat} {args : Arguments} {v : Value}
    (made : Tree.callBlank f n args = .ok v) : Constructed v
  /-- A node or a record that has been built from values at hand, where such values were left in
  the streams. -/
  | built {h : Head} {args : Arguments} {s s' : Streams} {v : Value}
    (positional : ∀ w ∈ args.positional, Constructed w) (named : ∀ a ∈ args.named, Constructed a.2)
    (left : ∀ e ∈ s.left, ∀ w ∈ e.2, Constructed w)
    (called : (h.call args : Shared BuildFault Value).runFrom s = (.ok v, s')) : Constructed v

variable {v : Value} {h : Head}

/-- Whatever is at hand, the trees in it are well formed. -/
theorem Constructed.eachTree (hv : v.Constructed) : v.EachTree Tree.WellFormed := by
  induction hv with
  | list _ ih => exact eachTree_list.mpr ih
  | tuple _ ih => exact eachTree_tuple.mpr ih
  | stream _ ih => exact eachTree_stream.mpr ih
  | dict _ _ ihkeys ihvalues => exact eachTree_dict.mpr fun e he => ⟨ihkeys e he, ihvalues e he⟩
  | blank made =>
    unfold Tree.callBlank at made
    split at made
    · obtain rfl := Except.ok.inj made
      exact eachTree_node.mpr (Tree.wellFormed_blank _ _)
    · cases made
  | built _ _ _ called ihpositional ihnamed ihleft =>
    exact (Head.eachTree_of_call ihpositional ihnamed ihleft called).2.1
  | _ => simp [EachTree, trees]

/-- What has fields at hand can be built, by calling for them. -/
theorem Constructed.of_fields (hv : Head.ofValue? v = some h) (hw : v.EachTree Tree.WellFormed)
    (hfields : ∀ w ∈ v.fields, w.Constructed) : v.Constructed := by
  have hdrop : (h.fieldNames.zip v.fields).drop v.fields.length = [] :=
    List.drop_eq_nil_of_le (by rw [List.length_zip]; exact Nat.min_le_right ..)
  have hcall : (h.call ⟨v.fields.take v.fields.length, []⟩ : Shared BuildFault Value) = pure v :=
    Head.call_fields hv hw (hdrop ▸ List.Perm.refl _)
  have hpositional : ∀ w ∈ v.fields.take v.fields.length, w.Constructed := fun w hw =>
    hfields w (List.mem_of_mem_take hw)
  have hrun := congrArg (fun x => Shared.runFrom x .untouched) hcall
  exact .built hpositional (by simp) (by simp [Streams.untouched]) hrun

theorem constructed_tuple_map {α : Type} {g : α → Value} {as : List α}
    (h : ∀ a ∈ as, (g a).Constructed) : (tuple (as.map g)).Constructed :=
  .tuple (List.forall_mem_map.mpr h)

theorem constructed_names (ns : List String) : (tuple (ns.map str)).Constructed :=
  constructed_tuple_map fun n _ => .str n

theorem constructed_entry {w : Value} (s : String) (hw : w.Constructed) :
    (tuple [str s, w]).Constructed :=
  .tuple (by simpa using ⟨.str s, hw⟩)

/-- Any record can be built, from texts and a tuple of texts. -/
theorem constructed_record (c : Closure) : (record c).Constructed := by
  refine .of_fields rfl (eachTree_record c) ?_
  simpa [fields, ofClosure] using ⟨.str c.name, .str c.label, constructed_names c.free⟩

/-- The value of a field is at hand if its children are. -/
theorem constructed_ofField {x : Field Tree} (hx : ∀ t ∈ x.children, (node t).Constructed) :
    (ofField x).Constructed := by
  cases x with
  | name s => exact .str s
  | flag b => exact .bool b
  | int64 n => exact .int n.toInt
  | node t => exact hx t (by simp [Field.children])
  | nodes ts => exact constructed_tuple_map hx
  | names ns => exact constructed_names ns
  | nameSet ns => exact constructed_names ns
  | bindings es =>
    exact constructed_tuple_map fun e he =>
      constructed_entry e.1 (hx e.2 (List.mem_map_of_mem he))
  | locations es => exact constructed_tuple_map fun e _ => constructed_entry e.1 (.str e.2)
  | graph es => exact constructed_tuple_map fun e _ => constructed_entry e.1 (constructed_names e.2)
  | frames fs => exact constructed_tuple_map fun ns _ => constructed_names ns
  | records cs => exact constructed_tuple_map fun c _ => constructed_record c

/-- Any well-formed tree can be built, from its leaves up. -/
theorem constructed_of_wellFormed {t : Tree} (ht : t.WellFormed) : (node t).Constructed := by
  induction ht with
  | @intro t here below ih =>
    have ht : t.WellFormed := .intro here below
    cases t with
    | blank f n =>
      have made : Tree.callBlank f n ⟨[], []⟩ = .ok (node (.blank f n)) := rfl
      exact .blank made
    | node k fs =>
      refine .of_fields rfl (eachTree_node.mpr ht) (List.forall_mem_map.mpr fun x hx => ?_)
      exact constructed_ofField fun t ht => ih t (List.mem_flatMap.mpr ⟨x, hx, ht⟩)

end Value

/-! ### The nodes that can be built -/

/-- **The nodes that can be built are the well-formed ones**: those of one family throughout, in
which the values of all fields are what their shapes ask for and every kind has what it admits.
Whatever values with well-formed trees a call is given, and whatever such values the streams still
hold, it comes to something of its kind in which all trees are well formed, if it comes to anything.
And a call for the fields that something has already comes to just that. -/
theorem Tree.constructed_iff_wellFormed :
    (∀ t : Tree, (Value.node t).Constructed ↔ t.WellFormed) ∧
    (∀ t : Tree, t.WellFormed →
      t.Everywhere (fun u => u.family? = t.family?) ∧ t.Everywhere FieldsHold ∧
        t.Everywhere fun u => ∀ k fs, u = .node k fs → k.Admits fs) ∧
    (∀ (h : Head) (args : Arguments) (s s' : Streams) (v : Value),
      (∀ w ∈ args.positional, w.EachTree WellFormed) →
      (∀ a ∈ args.named, a.2.EachTree WellFormed) →
      s.Each (Value.EachTree WellFormed) →
      (h.call args : Shared BuildFault Value).runFrom s = (.ok v, s') →
      Head.ofValue? v = some h ∧ v.EachTree WellFormed ∧ s'.Each (Value.EachTree WellFormed)) ∧
    ∀ (h : Head) (v : Value), Head.ofValue? v = some h → v.EachTree WellFormed →
      ∀ (i : Nat) (named : List (String × Value)),
        named.Perm ((h.fieldNames.zip v.fields).drop i) →
        ∀ s : Streams,
          (h.call ⟨v.fields.take i, named⟩ : Shared BuildFault Value).runFrom s = (.ok v, s) := by
  refine ⟨fun t => ⟨fun ht => ?_, Value.constructed_of_wellFormed⟩, fun t ht => ⟨?_, ?_, ?_⟩,
    ?_, ?_⟩
  · exact Value.eachTree_node.mp ht.eachTree
  · exact ht.everywhere_family
  · exact ht.fieldsHold
  · exact ht.everywhere_admits
  · intro h args s s' v hpositional hnamed hs hcall
    exact Head.eachTree_of_call hpositional hnamed hs hcall
  · intro h v hv hw i named hnamed s
    rw [Head.call_fields hv hw hnamed]
    rfl

/-- A procedure that does nothing, under the name of a field. -/
def Tree.emptyLambda : Tree :=
  .node (.scheme .lambda) [.names ["args"], .node (.node (.common .scheme .nop) [])]

/-- A recursive binding that comes from a stream, of which nothing is left then. -/
theorem Tree.constructed_letrec :
    (node (.scheme .letrec)
      [.bindings [("body", emptyLambda)], .node (.blank (some .scheme) 0)]).WellFormed ∧
    ∀ s : Streams,
      ((Head.node (.scheme .letrec)).call
        ⟨[.tuple [.tuple [.str "body", .node emptyLambda]]],
          [("body", .node (.blank (some .scheme) 0))]⟩ : Shared BuildFault Value).runFrom s =
        (.ok (.node (.node (.scheme .letrec)
          [.bindings [("body", emptyLambda)], .node (.blank (some .scheme) 0)])), s) := by
  obtain ⟨-, -, hcall, hback⟩ := constructed_iff_wellFormed
  have hfirst := hcall (.node (.scheme .letrec))
    ⟨[.stream 7 [.list [.str "body", .node emptyLambda]]],
      [("body", .node (.blank (some .scheme) 0))]⟩ .untouched ⟨[(7, [])]⟩
    (.node (.node (.scheme .letrec)
      [.bindings [("body", emptyLambda)], .node (.blank (some .scheme) 0)]))
    (by decide) (by decide) nofun rfl
  obtain ⟨-, hw, -⟩ := hfirst
  exact ⟨Value.eachTree_node.mp hw, fun s => hback _ _ rfl hw 1 _ (List.Perm.refl _) s⟩

end LoweringIR
