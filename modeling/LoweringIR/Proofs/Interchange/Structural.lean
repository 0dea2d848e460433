import LoweringIR.Proofs.Interchange.Encode
import LoweringIR.Proofs.Walk.Turns

/-!
# Encoding by recursion

What encoding gives can be said by recursion on what is encoded, without a stack: a tuple becomes
the list of its encoded items, a node a dictionary with its kind and its encoded fields, a record
likewise, and everything else stays what it is. `Value.structural` says so, field by field.

That the machine computes this is no more than an instance of what is known of every walk, but for
two things. The fields of a node are values to the machine and have shapes of their own to the
recursion, and a value without parts is done when it is met, while one with parts is met twice, even
if it turns out to have none.

## Main definitions

* `Value.structural` — encoding by recursion

## Main results

* `Value.structural_node` — the fields of a node may be taken for values
* `Value.encode_eq_structural` — the machine computes the recursion, and when it stops
-/

namespace LoweringIR

open Walk (Task State Steps Within)

namespace Value

/-! ### The recursion -/

/-- The encoding of a record: a dictionary with its kind first. -/
def ofRecord (c : Closure) : Value :=
  dict [(str "kind", str "Closure"), (str "name", str c.name), (str "label", str c.label),
    (str "free", list (c.free.map str))]

/-- The encoding of a field whose children are encoded. -/
def ofEncodedField : Field Value → Value
  | .name s => str s
  | .flag b => bool b
  | .int64 n => int n.toInt
  | .node v => v
  | .nodes vs => list vs
  | .names ns => list (ns.map str)
  | .nameSet ns => list (ns.map str)
  | .bindings es => list (es.map fun e => list [str e.1, e.2])
  | .locations es => list (es.map fun e => list [str e.1, str e.2])
  | .graph es => list (es.map fun e => list [str e.1, list (e.2.map str)])
  | .frames fs => list (fs.map fun ns => list (ns.map str))
  | .records rs => list (rs.map ofRecord)

/-- The encoding of a tree. A blank stays what it is. -/
def ofTree : Tree → Value :=
  Tree.fold (fun f n => node (.blank f n)) fun k fs =>
    described k.name (k.schema.map Prod.fst) (fs.map ofEncodedField)

mutual

/-- The encoding of a value by recursion. -/
def structural : Value → Value
  | tuple vs => list (structuralItems vs)
  | node t => ofTree t
  | record c => ofRecord c
  | v => v

/-- The encodings of values. -/
def structuralItems : List Value → List Value
  | [] => []
  | v :: vs => structural v :: structuralItems vs

end

theorem structuralItems_eq (vs : List Value) : structuralItems vs = vs.map structural := by
  induction vs with
  | nil => rw [structuralItems, List.map_nil]
  | cons v vs ih => rw [structuralItems, ih, List.map_cons]

theorem structural_tuple (vs : List Value) : (tuple vs).structural = list (vs.map structural) := by
  rw [structural, structuralItems_eq]

theorem structural_str (s : String) : (str s).structural = str s := by simp [structural]

theorem structural_names (ns : List String) :
    (tuple (ns.map str)).structural = list (ns.map str) := by
  rw [structural_tuple, List.map_map]
  exact congrArg list (List.map_congr_left fun n _ => structural_str n)

/-- A pair of a name and what goes with it is encoded as a list of two. -/
theorem structural_pairs {α : Type} (g : α → Value) (es : List (String × α)) :
    (tuple (es.map fun e => tuple [str e.1, g e.2])).structural =
      list (es.map fun e => list [str e.1, (g e.2).structural]) := by
  simp [structural_tuple, structural_str, Function.comp_def]

/-- A field may be taken for a value before it is encoded, or its children may be encoded where they
stand. -/
theorem structural_ofField (x : Field Tree) :
    (ofField x).structural = ofEncodedField (x.map ofTree) := by
  have hnode : ∀ t : Tree, (node t).structural = ofTree t := fun t => by rw [structural]
  cases x with
  | name s => exact structural_str s
  | flag b => simp [ofField, Field.map, ofEncodedField, structural]
  | int64 n => simp [ofField, Field.map, ofEncodedField, structural]
  | node t => exact hnode t
  | nodes ts => simp [ofField, Field.map, ofEncodedField, structural_tuple, hnode]
  | names ns => exact structural_names ns
  | nameSet ns => exact structural_names ns
  | bindings es =>
    rw [ofField, structural_pairs]
    simp [Field.map, ofEncodedField, hnode]
  | locations es =>
    rw [ofField, structural_pairs]
    simp [Field.map, ofEncodedField, structural_str]
  | graph es =>
    rw [ofField, structural_pairs fun ns : List String => tuple (ns.map str)]
    simp only [structural_names]
    rfl
  | frames fs =>
    rw [ofField, structural_tuple, List.map_map]
    exact congrArg list (List.map_congr_left fun ns _ => structural_names ns)
  | records rs => simp [ofField, Field.map, ofEncodedField, structural_tuple, structural]

/-- **The encoding of a node** has the kind first and then the fields in the order of the schema,
each of them encoded as a value. -/
theorem structural_node (k : Kind) (fs : List (Field Tree)) :
    (node (.node k fs)).structural =
      described k.name (k.schema.map Prod.fst) ((fs.map ofField).map structural) := by
  rw [structural, ofTree, Tree.fold_node, ← ofTree, List.map_map, List.map_map]
  exact congrArg _ (List.map_congr_left fun x _ => (structural_ofField x).symm)

theorem structural_record (c : Closure) :
    (record c).structural =
      described "Closure" ["name", "label", "free"] ((ofClosure c).map structural) := by
  have hrecord : (record c).structural = ofRecord c := by rw [structural]
  rw [hrecord, ofClosure]
  simp only [List.map_cons, List.map_nil, structural_str, structural_names]
  rfl

/-- The recursion follows what the encoding does to a value when it meets it. -/
theorem structural_eq (v : Value) :
    v.structural = match v.encodeStep with
      | .leaf w => w
      | .branch g ms => g.assemble (ms.map structural) := by
  cases v with
  | tuple vs => exact structural_tuple vs
  | record c => exact structural_record c
  | node t =>
    cases t with
    | blank f n => simp [structural, ofTree, encodeStep]
    | node k fs => exact structural_node k fs
  | _ => simp [structural, encodeStep]

/-! ### The machine -/

/-- Encoding is the recursion, by induction on the weight of a value. -/
theorem encode_structural (v : Value) : v.encode = v.structural := by
  induction hn : v.weight using Nat.strongRecOn generalizing v with
  | _ n ih =>
    subst hn
    rw [encode_eq, structural_eq]
    cases hstep : v.encodeStep with
    | leaf w => rfl
    | branch g ms =>
      have hlighter : ∀ m ∈ ms, m.weight < v.weight := fun m hm =>
        encodeWalk.weight_lt_of_mem (congrArg Except.ok hstep) hm
      exact congrArg g.assemble (List.map_congr_left fun m hm => ih _ (hlighter m hm) m rfl)

variable {v : Value} {n : Nat} {s : State Value Value EncodeFrame}

/-- Every value has an encoding. -/
theorem value_structural (v : Value) : encodeWalk.value v = .ok v.structural := by
  rw [value_encodeWalk, encode_structural]

/-- **The machine computes the recursion.** It has the encoding of the value by recursion, with
nothing else on the two stacks, after exactly as many steps as the value takes, one for every part
that has no parts and two for every other. It does not stop before. Whenever it leaves a tuple, a
node or a record, the latest results are the encodings of its parts, all of them and in their
order. -/
theorem encode_eq_structural (v : Value) :
    v.encode = v.structural ∧
    Steps encodeWalk (encodeWalk.turns v) (.start v) ⟨[], [v.structural]⟩ ∧
    ∀ n s, Steps encodeWalk n (.start v) s →
      n ≤ encodeWalk.turns v ∧ (s.tasks = [] ↔ n = encodeWalk.turns v) ∧
      ∀ g arity tasks, s.tasks = .leave g arity :: tasks →
        ∃ item ms, Within encodeWalk v item ∧ item.encodeStep = .branch g ms ∧
          arity = ms.length ∧ (s.results.take arity).reverse = ms.map structural ∧
          item.structural = g.assemble (ms.map structural) := by
  have hend := Walk.steps_of_value (value_structural v) [] []
  refine ⟨encode_structural v, hend, fun n s hs => ?_⟩
  obtain ⟨hle, hdone⟩ := Walk.Steps.count hs hend
  refine ⟨hle, hdone, fun g arity tasks htasks => ?_⟩
  have hcoherent := Walk.Coherent.start.steps hs
  rw [htasks] at hcoherent
  obtain ⟨item, ms, bs, hwithin, henter, harity, hvalues, hresults, -⟩ := hcoherent.leave
  have hstep : item.encodeStep = .branch g ms := Except.ok.inj henter
  rw [mapM_eq_ok_map fun m _ => value_structural m] at hvalues
  refine ⟨item, ms, hwithin, hstep, harity, ?_, ?_⟩
  · rw [hresults, Except.ok.inj hvalues]
  · rw [structural_eq, hstep]

/-- A tuple of a node without fields, a blank, a tuple without items, a record and a list. -/
def mixed : Value :=
  tuple [node (.node (.common .scheme .nop) []), node (.blank none 0), tuple [],
    record ⟨"f", "f.1", ["x"]⟩, list [tuple []]]

/-- What has no parts takes one step, and a container without parts takes two. The blank stays, and
so does the tuple in the list. -/
theorem encode_mixed :
    mixed.encode =
        list [dict [(str "kind", str "Nop")], node (.blank none 0), list [],
          dict [(str "kind", str "Closure"), (str "name", str "f"), (str "label", str "f.1"),
            (str "free", list [str "x"])],
          list [tuple []]] ∧
      Steps encodeWalk 15 (.start mixed) ⟨[], [mixed.encode]⟩ := by
  have hstructural : mixed.structural =
      list [dict [(str "kind", str "Nop")], node (.blank none 0), list [],
        dict [(str "kind", str "Closure"), (str "name", str "f"), (str "label", str "f.1"),
          (str "free", list [str "x"])],
        list [tuple []]] := rfl
  have hturns : encodeWalk.turns mixed = 15 := by decide +kernel
  obtain ⟨hencode, hsteps, -⟩ := encode_eq_structural mixed
  rw [hturns, ← hencode] at hsteps
  exact ⟨hencode.trans hstructural, hsteps⟩

end Value

end LoweringIR
