import LoweringIR.Proofs.Interchange.Decode
import LoweringIR.Proofs.Interchange.Encode
import LoweringIR.Proofs.Label.Unambiguous
import LoweringIR.Proofs.Rendering.Machine
import LoweringIR.Proofs.Tree.Operands

/-!
# Two walks over a tree

Rendering and the check of labels walk from node to operand, as the kinds say. Encoding walks from
field to field and asks no kind. The two walks know nothing of each other, and yet they should meet
the same nodes in the same order: a label that only one of them met would be in the document of a
program and not in its check, or the other way round.

What the second walk meets is in the document. So the document is read here as a value that nobody
knows the origin of, and the objects in it that have a kind are listed in the order in which one
comes across them. Closure records have a kind as well and are no nodes, so they are left out.

The lists differ in one thing only. A truth value that is quoted is spelled by the quotation and is
no operand of it, while in the document it is an object as any other. To tell it apart one has to
know where an object stands, and so a *visit* is an object with the field that holds it.

## Main definitions

* `Value.Visit` — an object with the field that holds it
* `Value.visits` — the node objects in a value
* `Value.unquoted` — those that are not quoted truth values
* `Value.headingIn?`, `Value.namedIn?` — the labels in objects

## Main results

* `Value.visits_node` — a node is met before what is in its fields
* `Tree.unquoted_visits` — the objects in an encoding are those of the nodes in pre-order
* `Tree.Unquoted.forall_visits` — without quotations there is no difference
* `Tree.preorder_visits` — both walks, with rendering and the check of labels
-/

namespace LoweringIR

namespace Value

/-! ### Walking through fields -/

/-- The text under a key of an object. -/
def textAt? (key : String) : Value → Option String
  | dict es => (find? key es).bind text?
  | _ => none

/-- A node object that is met on a walk through fields. -/
structure Visit where
  /-- The kind of the object and the name of the field that it directly stands in, if it does. -/
  holder? : Option (String × String)
  kind : String
  object : Value

/-- A truth value is met as the datum of a quotation. -/
def Visit.isQuotedTruth (v : Visit) : Bool :=
  v.holder? == some ("Quote", "datum") && v.kind == "Bool"

mutual

/-- The node objects in a value, each before those in its fields, and these in the order of the
fields. Closure records have a kind and are no nodes. -/
def visits : Option (String × String) → Value → List Visit
  | _, list vs => visitsItems vs
  | holder?, dict es =>
    (match textAt? kindKey (dict es) with
      | some kind => if kind = Head.closure.name then [] else [⟨holder?, kind, dict es⟩]
      | none => []) ++ visitsEntries (textAt? kindKey (dict es)) es
  | _, _ => []

/-- The node objects in items. -/
def visitsItems : List Value → List Visit
  | [] => []
  | v :: vs => visits none v ++ visitsItems vs

/-- The node objects in the fields of an object of some kind. -/
def visitsEntries : Option String → List (Value × Value) → List Visit
  | _, [] => []
  | kind?, e :: es => visitsEntry kind? e ++ visitsEntries kind? es

/-- The node objects in a field of an object of some kind. -/
def visitsEntry : Option String → Value × Value → List Visit
  | kind?, (key, v) => visits (kind?.bind fun kind => key.text?.map fun name => (kind, name)) v

end

/-- What is met apart from quoted truth values. -/
def unquoted (vs : List Visit) : List Value :=
  (vs.filter fun v => !v.isQuotedTruth).map Visit.object

variable {holder? : Option (String × String)}

theorem visitsItems_eq (vs : List Value) : visitsItems vs = vs.flatMap (visits none) := by
  induction vs with
  | nil => rw [visitsItems]; rfl
  | cons v vs ih => rw [visitsItems, ih, List.flatMap_cons]

theorem visitsEntries_eq (kind? : Option String) (es : List (Value × Value)) :
    visitsEntries kind? es = es.flatMap fun e =>
      visits (kind?.bind fun kind => e.1.text?.map fun name => (kind, name)) e.2 := by
  induction es with
  | nil => rw [visitsEntries]; rfl
  | cons e es ih => rw [visitsEntries, visitsEntry, ih, List.flatMap_cons]

@[simp] theorem visits_str (s : String) : visits holder? (str s) = [] := by
  rw [visits] <;> simp

@[simp] theorem visits_bool (b : Bool) : visits holder? (bool b) = [] := by
  rw [visits] <;> simp

@[simp] theorem visits_int (n : Int) : visits holder? (int n) = [] := by
  rw [visits] <;> simp

@[simp] theorem visits_list (vs : List Value) :
    visits holder? (list vs) = vs.flatMap (visits none) := by
  rw [visits, visitsItems_eq]

theorem textAt?_kind (kind : String) (names : List String) (vs : List Value) :
    textAt? kindKey (described kind names vs) = some kind := by
  rw [described, textAt?, find?, List.find?_cons_of_pos (by simp [isText, kindKey])]
  rfl

/-- A description is met, unless it is one of a record, and then what is in its fields. -/
theorem visits_described (kind : String) (names : List String) (vs : List Value) :
    visits holder? (described kind names vs) =
      (if kind = Head.closure.name then [] else [⟨holder?, kind, described kind names vs⟩]) ++
      (names.zip vs).flatMap fun e => visits (some (kind, e.1)) e.2 := by
  have hkind := textAt?_kind kind names vs
  rw [described] at hkind ⊢
  rw [visits, hkind, visitsEntries_eq, List.flatMap_cons, visits_str, List.nil_append,
    zipWith_str_eq, List.flatMap_map]
  rfl

/-! ### The objects of an encoding -/

@[simp] theorem visits_encode_tuple (vs : List Value) :
    visits holder? (tuple vs).encode = vs.flatMap fun v => visits none v.encode := by
  rw [encode_tuple, visits_list, List.flatMap_map]

/-- No node is in a closure record. -/
@[simp] theorem visits_encode_record (c : Closure) : visits holder? (record c).encode = [] := by
  rw [encode_record, visits_described, if_pos (show "Closure" = Head.closure.name from rfl)]
  simp [ofClosure, List.flatMap_map]

/-- In a field, the trees in it are met in order. -/
theorem visits_ofField (x : Field Tree) :
    visits holder? (ofField x).encode =
      x.children.flatMap fun u =>
        visits (if x.shape = .node then holder? else none) (node u).encode := by
  cases x <;> simp [ofField, Field.children, Field.shape, List.flatMap_map]

/-- **A node is met before what is in its fields**, and these come in order. -/
theorem visits_node (k : Kind) (fs : List (Field Tree)) :
    visits holder? (node (.node k fs)).encode =
      ⟨holder?, k.name, (node (.node k fs)).encode⟩ ::
        ((k.schema.map Prod.fst).zip fs).flatMap fun e => e.2.children.flatMap fun u =>
          visits (if e.2.shape = .node then some (k.name, e.1) else none) (node u).encode := by
  rw [encode_node, visits_described, if_neg k.name_ne_closure, List.map_map, List.zip_map_right,
    List.flatMap_map, List.singleton_append]
  congr 1
  exact List.flatMap_congr fun e _ => visits_ofField e.2

/-! ### What is apart -/

theorem unquoted_cons_of_neg {v : Visit} {vs : List Visit} (h : ¬ v.isQuotedTruth = true) :
    unquoted (v :: vs) = v.object :: unquoted vs := by
  rw [unquoted, List.filter_cons_of_pos (by simpa using h)]
  rfl

theorem unquoted_flatMap {α : Type} (as : List α) (g : α → List Visit) :
    unquoted (as.flatMap g) = as.flatMap fun a => unquoted (g a) := by
  rw [unquoted, List.filter_flatMap, List.map_flatMap]
  rfl

theorem unquoted_eq_map {vs : List Visit} (h : ∀ v ∈ vs, ¬ v.isQuotedTruth = true) :
    unquoted vs = vs.map Visit.object := by
  rw [unquoted, List.filter_eq_self.mpr fun v hv => by simpa using h v hv]

/-! ### Labels in objects -/

/-- The name that an object gives to a block. -/
def headingIn? (v : Value) : Option String :=
  if v.textAt? kindKey = some "Cfg" then v.textAt? "label" else none

/-- The name that an object defines or refers to. -/
def namedIn? (v : Value) : Option String :=
  if v.textAt? kindKey = some "Label" then v.textAt? "name" else v.headingIn?

end Value

/-- Truth values go by that name in both dialects, and nothing else does. -/
theorem Kind.name_eq_bool_iff {k : Kind} : k.name = "Bool" ↔ ∃ d, k = .common d .bool := by
  rcases k with ⟨d, k⟩ | k | k | k
  all_goals
    cases k <;> simp [name, CommonKind.name, SchemeKind.name, RegallocKind.name, AsmKind.name]

theorem Kind.name_eq_quote_iff {k : Kind} : k.name = "Quote" ↔ k = .scheme .quote := by
  rcases k with ⟨d, k⟩ | k | k | k
  all_goals
    cases k <;> simp [name, CommonKind.name, SchemeKind.name, RegallocKind.name, AsmKind.name]

namespace Tree

open Value (Visit visits unquoted unquoted_flatMap unquoted_cons_of_neg)

variable {t u : Tree} {k : Kind} {fs : List (Field Tree)} {holder? : Option (String × String)}

/-! ### The objects of a tree -/

theorem isQuotedTruth_iff {v : Value} (hw : (node k fs).WellFormed) :
    (⟨holder?, k.name, v⟩ : Visit).isQuotedTruth = true ↔
      holder? = some ("Quote", "datum") ∧ (node k fs).role.isTruth = true := by
  rw [Visit.isQuotedTruth, Bool.and_eq_true, beq_iff_eq, beq_iff_eq, Kind.name_eq_bool_iff,
    isTruth_iff hw]
  simp [kind?]

/-- Nothing is below a truth value. -/
theorem visits_truth (hw : (node k fs).WellFormed) (h : (node k fs).role.isTruth = true) :
    visits holder? (Value.node (node k fs)).encode =
      [⟨holder?, k.name, (Value.node (node k fs)).encode⟩] := by
  obtain ⟨d, hd⟩ := (isTruth_iff hw).mp h
  obtain rfl := Option.some.inj hd
  obtain ⟨b, rfl⟩ := hw.exists_flag
  rw [Value.visits_node]
  rfl

/-- The objects below a node are those below its children, each of which is met apart from quoted
truth values. -/
theorem unquoted_below {β : Tree → List Value} (hw : (node k fs).WellFormed)
    (hbelow : ∀ u ∈ fs.flatMap Field.children, ∀ holder?,
      unquoted (visits holder? (Value.node u).encode) =
        if holder? = some ("Quote", "datum") ∧ u.role.isTruth = true then [] else β u) :
    unquoted (((k.schema.map Prod.fst).zip fs).flatMap fun e => e.2.children.flatMap fun u =>
        visits (if e.2.shape = .node then some (k.name, e.1) else none) (Value.node u).encode) =
      (node k fs).children.flatMap β := by
  -- A quotation has its datum and nothing else. No other node holds anything as a datum of one.
  by_cases hk : k = .scheme .quote
  · subst hk
    obtain ⟨x, rfl, hx⟩ := List.map_eq_singleton_iff.mp hw.fits.shapes
    obtain ⟨u, rfl⟩ := Field.shape_eq_node_iff.mp hx
    have hchildren : (node (.scheme .quote) [.node u]).children =
        [u].filter fun u => !u.role.isTruth := rfl
    have hdatum := hbelow u (by simp [Field.children]) (some ("Quote", "datum"))
    have hvisits : (((Kind.scheme .quote).schema.map Prod.fst).zip [Field.node u]).flatMap
        (fun e => e.2.children.flatMap fun u => visits
          (if e.2.shape = .node then some ((Kind.scheme .quote).name, e.1) else none)
          (Value.node u).encode) =
        visits (some ("Quote", "datum")) (Value.node u).encode :=
      (List.append_nil _).trans (List.append_nil _)
    rw [hvisits, hdatum, hchildren]
    by_cases htruth : u.role.isTruth = true <;> simp [htruth]
  · have hlength : fs.length = (k.schema.map Prod.fst).length := by
      simpa using hw.fits.length_eq
    have hquote : k.name ≠ "Quote" := fun h => hk (Kind.name_eq_quote_iff.mp h)
    calc unquoted (((k.schema.map Prod.fst).zip fs).flatMap fun e => e.2.children.flatMap fun u =>
          visits (if e.2.shape = .node then some (k.name, e.1) else none) (Value.node u).encode)
        = ((k.schema.map Prod.fst).zip fs).flatMap fun e => e.2.children.flatMap β := by
          rw [unquoted_flatMap]
          refine List.flatMap_congr fun e he => ?_
          rw [unquoted_flatMap]
          refine List.flatMap_congr fun u hu => ?_
          have hmem : u ∈ fs.flatMap Field.children :=
            List.mem_flatMap.mpr ⟨e.2, (List.of_mem_zip he).2, hu⟩
          rw [hbelow u hmem, if_neg]
          split <;> simp [hquote]
      _ = ((((k.schema.map Prod.fst).zip fs).map Prod.snd).flatMap Field.children).flatMap β := by
          rw [List.flatMap_map, List.flatMap_assoc]
      _ = (node k fs).children.flatMap β := by
          rw [List.map_snd_zip (Nat.le_of_eq hlength), children_node hk]

/-- **The objects in an encoding are those of the nodes in pre-order**, apart from quoted truth
values. -/
theorem unquoted_visits (hw : t.WellFormed) (hc : t.Whole) (holder? : Option (String × String)) :
    unquoted (visits holder? (Value.node t).encode) =
      if holder? = some ("Quote", "datum") ∧ t.role.isTruth = true then []
      else t.preorder.map fun u => (Value.node u).encode := by
  refine hw.induct_whole (P := fun t => ∀ holder?,
    unquoted (visits holder? (Value.node t).encode) =
      if holder? = some ("Quote", "datum") ∧ t.role.isTruth = true then []
      else t.preorder.map fun u => (Value.node u).encode) hc ?_ holder?
  intro k fs hw hc ih holder?
  by_cases hquoted : holder? = some ("Quote", "datum") ∧ (node k fs).role.isTruth = true
  · rw [if_pos hquoted, visits_truth hw hquoted.2, unquoted,
      List.filter_cons_of_neg (by simpa using (isQuotedTruth_iff hw).mpr hquoted)]
    rfl
  · rw [if_neg hquoted, Value.visits_node,
      unquoted_cons_of_neg fun h => hquoted ((isQuotedTruth_iff hw).mp h),
      unquoted_below hw ih, preorder_eq, List.map_cons, List.map_flatMap]

/-- **Where nothing is quoted, nothing is met by one walk only.** -/
theorem Unquoted.forall_visits (h : t.Unquoted) (hw : t.WellFormed) (hc : t.Whole)
    (hholder : holder? = some ("Quote", "datum") → ¬ t.role.isTruth = true) :
    ∀ v ∈ visits holder? (Value.node t).encode, ¬ v.isQuotedTruth = true := by
  refine hw.induct_whole (P := fun t => t.Unquoted → ∀ holder?,
    (holder? = some ("Quote", "datum") → ¬ t.role.isTruth = true) →
      ∀ v ∈ visits holder? (Value.node t).encode, ¬ v.isQuotedTruth = true) hc ?_ h holder? hholder
  intro k fs hw hc ih h holder? hholder v hv
  rw [Value.visits_node, List.mem_cons, List.mem_flatMap] at hv
  obtain rfl | ⟨⟨name, x⟩, he, hv⟩ := hv
  · intro hquoted
    obtain ⟨hdatum, htruth⟩ := (isQuotedTruth_iff hw).mp hquoted
    exact hholder hdatum htruth
  · obtain ⟨u, hu, hv⟩ := List.mem_flatMap.mp hv
    have hmem : u ∈ fs.flatMap Field.children :=
      List.mem_flatMap.mpr ⟨x, (List.of_mem_zip he).2, hu⟩
    refine ih u hmem (h.of_mem hmem) _ (fun hdatum => ?_) v hv
    -- Only a quotation has a datum, and what is quoted here is among its children.
    have hk : k = .scheme .quote := by
      split at hdatum
      · exact Kind.name_eq_quote_iff.mp (congrArg Prod.fst (Option.some.inj hdatum))
      · cases hdatum
    subst hk
    have hchild : u ∈ (node (.scheme .quote) fs).children := h.here ▸ hmem
    simpa using (List.mem_filter.mp hchild).2

/-! ### Labels -/

/-- An object of assembly has the labels of the node. -/
theorem labels_encode {k : AsmKind} (hw : (node (.asm k) fs).WellFormed) :
    (Value.node (node (.asm k) fs)).encode.headingIn? = Label.heading? (node (.asm k) fs) ∧
      (Value.node (node (.asm k) fs)).encode.namedIn? = Label.named? (node (.asm k) fs) := by
  rw [Value.encode_node, List.map_map]
  cases AsmKind.takes_of_shapes hw.fits.shapes with
  | label n | cfg n instrs =>
    rw [List.map_cons, Function.comp_apply, Value.ofField, Value.encode_str]
    exact ⟨rfl, rfl⟩
  | _ => exact ⟨rfl, rfl⟩

/-- What is gathered from the nodes of assembly is gathered from their objects. -/
theorem filterMap_preorder_encode {f : Tree → Option String} {g : Value → Option String}
    (hw : t.WellFormed) (hc : t.Whole) (hf : t.family? = some .asm)
    (hfg : ∀ k fs, (node (.asm k) fs).WellFormed →
      g (Value.node (node (.asm k) fs)).encode = f (node (.asm k) fs)) :
    t.preorder.filterMap f = (t.preorder.map fun u => (Value.node u).encode).filterMap g := by
  rw [List.filterMap_map]
  refine List.filterMap_congr fun u hu => ?_
  have hwhole : u.Whole := hc.of_mem_preorder hu
  have hfamily : u.family? = some .asm := (hw.family_of_mem_preorder hu).trans hf
  cases u with
  | blank f n => exact absurd hwhole (not_whole_blank f n)
  | node k fs =>
    obtain ⟨k, rfl⟩ := Kind.family_eq_asm_iff.mp (Option.some.inj hfamily)
    exact (hfg k fs (hw.of_mem_preorder hu)).symm

/-! ### Both walks -/

/-- **Both walks meet the same nodes in the same order.** The children of a node are the operands
that its kind names. The encodings of the nodes in pre-order are the objects in the encoding of the
tree, apart from quoted truth values. Rendering enters the nodes in pre-order, to the end, and no
run to the end enters others. In assembly nothing is apart, and the check of labels goes by the
labels in the objects: every block and every reference counts once. -/
theorem preorder_visits (hw : t.WellFormed) (hc : t.Whole) :
    (∀ u ∈ t.preorder, u.children = u.operands) ∧
    (t.preorder.map fun u => (Value.node u).encode) =
      unquoted (visits none (Value.node t).encode) ∧
    (∀ a, Walk.Trace (renderWalk a) (.start t) t.preorder ⟨[], [t.text a]⟩ ∧
      ∀ us s, Walk.Trace (renderWalk a) (.start t) us s → s.tasks = [] → us = t.preorder) ∧
    (t.family? = some .asm →
      let objects := (visits none (Value.node t).encode).map Visit.object
      (t.preorder.map fun u => (Value.node u).encode) = objects ∧
      Label.headings t = objects.filterMap Value.headingIn? ∧
      Label.collect t = Label.firstSeen [] (objects.filterMap Value.namedIn?)) := by
  have hvisits : unquoted (visits none (Value.node t).encode) =
      t.preorder.map fun u => (Value.node u).encode := by
    rw [unquoted_visits hw hc, if_neg (by simp)]
  refine ⟨fun u hu => ?_, hvisits.symm, fun a => ⟨trace_preorder a hw hc, fun us s => ?_⟩, ?_⟩
  · exact WellFormed.children_eq_operands (hw.of_mem_preorder hu)
  · exact Walk.Trace.eq_below (listsBelow_preorder a)
  · intro hf
    have hobjects : (visits none (Value.node t).encode).map Visit.object =
        t.preorder.map fun u => (Value.node u).encode := by
      rw [← hvisits, Value.unquoted_eq_map]
      exact (hw.unquoted hf).forall_visits hw hc nofun
    dsimp only
    rw [hobjects, Label.headings, Label.collect]
    refine ⟨rfl, ?_, congrArg (Label.firstSeen []) ?_⟩
    · exact filterMap_preorder_encode hw hc hf fun k fs hw => (labels_encode hw).1
    · exact filterMap_preorder_encode hw hc hf fun k fs hw => (labels_encode hw).2

/-- A closure record and a quoted truth value. -/
def closuresQuoted : Tree :=
  .node (.scheme .closures)
    [.records [⟨"f", "f$0", ["x"]⟩],
      .node (.node (.common .scheme .block)
        [.nodes [.node (.scheme .quote) [.node (.node (.common .scheme .bool) [.flag true])],
          .node (.common .scheme .symbol) [.name "x"]]])]

/-- The record is not met, and the truth value is met among the objects and not by rendering. In
nested blocks all labels are found among the objects. -/
theorem preorder_visits_closuresQuoted :
    (visits none (Value.node closuresQuoted).encode).map Visit.kind =
      ["Closures", "Begin", "Quote", "Bool", "Symbol"] ∧
    closuresQuoted.preorder.map headName = ["Closures", "Begin", "Quote", "Symbol"] ∧
    (closuresQuoted.preorder.map fun u => (Value.node u).encode) =
      unquoted (visits none (Value.node closuresQuoted).encode) ∧
    (∃ us, Walk.Trace (renderWalk .sorted) (.start closuresQuoted) us
      ⟨[], [closuresQuoted.text .sorted]⟩ ∧ us = closuresQuoted.preorder) ∧
    Label.headings Label.nestedBlocks = ["loop!", "exit-1"] ∧
    Label.headings Label.nestedBlocks =
      ((visits none (Value.node Label.nestedBlocks).encode).map Visit.object).filterMap
        Value.headingIn? := by
  obtain ⟨-, hobjects, hrender, -⟩ := preorder_visits (t := closuresQuoted) (by decide) (by decide)
  obtain ⟨htrace, hunique⟩ := hrender .sorted
  obtain ⟨-, -, -, hasm⟩ := preorder_visits (t := Label.nestedBlocks) (by decide) (by decide)
  obtain ⟨-, hheadings, -⟩ := hasm rfl
  have hkinds : (visits none (Value.node closuresQuoted).encode).map Visit.kind =
      ["Closures", "Begin", "Quote", "Bool", "Symbol"] := by
    simp [closuresQuoted, Value.visits_node, Field.children, Kind.schema, SchemeKind.schema,
      CommonKind.schema, Kind.name, SchemeKind.name, CommonKind.name]
  exact ⟨hkinds, by decide +kernel, hobjects, ⟨_, htrace, hunique _ _ htrace rfl⟩,
    by decide +kernel, hheadings⟩

end Tree

end LoweringIR
