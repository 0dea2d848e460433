import LoweringIR.Json.Basic
import LoweringIR.Tree.Equality

/-!
# Values

Nodes are built from values that nobody has checked yet: what a document holds, and what a caller
hands in. A value is a scalar, a collection of values, or something already built.

There are four collections, because a field tells some of them apart. Lists, tuples and streams hold
items; a stream has no other use than to be gone through, and since that can be done only once, it
is known by a number. A dictionary pairs keys with values, and gone through as a collection it
yields its keys. Keys may be any values.
-/

namespace LoweringIR

/-- A value. -/
inductive Value where
  | null
  | bool (value : Bool)
  | int (value : Int)
  | float (value : Binary64)
  | str (text : String)
  | bytes (values : List UInt8)
  | list (items : List Value)
  | tuple (items : List Value)
  | stream (number : Nat) (items : List Value)
  | dict (entries : List (Value × Value))
  | node (tree : Tree)
  | record (closure : Closure)
deriving Inhabited

namespace Value

/-! ### Views -/

mutual

/-- The value of a document. -/
def ofJson : Json → Value
  | .null => null
  | .bool b => bool b
  | .int n => int n
  | .float x => float x
  | .str s => str s
  | .arr items => list (ofJsonItems items)
  | .obj members => dict (ofJsonMembers members)

/-- The values of items. -/
def ofJsonItems : List Json → List Value
  | [] => []
  | j :: js => ofJson j :: ofJsonItems js

/-- The entries of members. -/
def ofJsonMembers : List (String × Json) → List (Value × Value)
  | [] => []
  | m :: ms => (str m.1, ofJson m.2) :: ofJsonMembers ms

end

/-- The value of a closure record's fields, in order. -/
def ofClosure (c : Closure) : List Value :=
  [str c.name, str c.label, tuple (c.free.map str)]

/-- The value of a field. Every collection is a tuple. -/
def ofField : Field Tree → Value
  | .name s => str s
  | .flag b => bool b
  | .int64 n => int n.toInt
  | .node t => node t
  | .nodes ts => tuple (ts.map node)
  | .names ns => tuple (ns.map str)
  | .nameSet ns => tuple (ns.map str)
  | .bindings es => tuple (es.map fun e => tuple [str e.1, node e.2])
  | .locations es => tuple (es.map fun e => tuple [str e.1, str e.2])
  | .graph es => tuple (es.map fun e => tuple [str e.1, tuple (e.2.map str)])
  | .frames fs => tuple (fs.map fun ns => tuple (ns.map str))
  | .records rs => tuple (rs.map record)

/-- The value of a field by its name. -/
def field? (name : String) : Value → Option Value
  | node (.node k fs) =>
    (((k.schema.map Prod.fst).zip fs).find? fun f => f.1 == name).map fun f => ofField f.2
  | record c =>
    ((["name", "label", "free"].zip (ofClosure c)).find? fun f => f.1 == name).map Prod.snd
  | _ => none

/-- What a collection yields when it is gone through for the first time. Texts, bytes, nodes and
records are no collections of values. -/
def items? : Value → Option (List Value)
  | list vs => some vs
  | tuple vs => some vs
  | stream _ vs => some vs
  | dict es => some (es.map Prod.fst)
  | _ => none

/-- The value is that text. -/
def isText (s : String) : Value → Bool
  | str t => t == s
  | _ => false

/-- The value of the entry with that text as its key. -/
def find? (key : String) (entries : List (Value × Value)) : Option Value :=
  (entries.find? fun e => e.1.isText key).map Prod.snd

/-! ### Weight

The weight of a value is the number of values and nodes in it, where a node counts as what its
fields are as values. It bounds walks over values. -/

/-- The weight of a field whose children have known weights. -/
def fieldWeight : Field Nat → Nat
  | .name _ => 1
  | .flag _ => 1
  | .int64 _ => 1
  | .node n => n
  | .nodes ns => 1 + ns.sum
  | .names ns => 1 + ns.length
  | .nameSet ns => 1 + ns.length
  | .bindings es => 1 + (es.map fun e => 2 + e.2).sum
  | .locations es => 1 + (es.map fun _ => 3).sum
  | .graph es => 1 + (es.map fun e => 3 + e.2.length).sum
  | .frames fs => 1 + (fs.map fun ns => 1 + ns.length).sum
  | .records rs => 1 + (rs.map fun r => 4 + r.free.length).sum

/-- The weight of a tree. -/
def treeWeight : Tree → Nat :=
  Tree.fold (fun _ _ => 1) fun _ fs => 1 + (fs.map fieldWeight).sum

mutual

/-- The weight of a value. -/
def weight : Value → Nat
  | list vs => 1 + weights vs
  | tuple vs => 1 + weights vs
  | stream _ vs => 1 + weights vs
  | dict es => 1 + entryWeights es
  | node t => treeWeight t
  | record c => 4 + c.free.length
  | _ => 1

/-- The weight of values together. -/
def weights : List Value → Nat
  | [] => 0
  | v :: vs => weight v + weights vs

/-- The weight of entries together. -/
def entryWeights : List (Value × Value) → Nat
  | [] => 0
  | e :: es => weight e.1 + weight e.2 + entryWeights es

end

theorem weights_eq (vs : List Value) : weights vs = (vs.map weight).sum := by
  induction vs with
  | nil => simp [weights]
  | cons v vs ih => simp [weights, ih]

theorem entryWeights_eq (es : List (Value × Value)) :
    entryWeights es = (es.map fun e => e.1.weight + e.2.weight).sum := by
  induction es with
  | nil => simp [entryWeights]
  | cons e es ih => simp [entryWeights, ih]

@[simp] theorem weight_str (s : String) : (str s).weight = 1 := by
  simp [weight]

@[simp] theorem weight_tuple (vs : List Value) :
    (tuple vs).weight = 1 + (vs.map weight).sum := by
  simp [weight, weights_eq]

@[simp] theorem weight_node (t : Tree) : (node t).weight = treeWeight t := by
  simp [weight]

@[simp] theorem weight_record (c : Closure) : (record c).weight = 4 + c.free.length := by
  simp [weight]

private theorem weight_tuple_map {α : Type} {g : α → Value} {f : α → Nat}
    (h : ∀ a, (g a).weight = f a) (as : List α) :
    (tuple (as.map g)).weight = 1 + (as.map f).sum := by
  rw [weight_tuple, List.map_map]
  exact congrArg (fun ns : List Nat => 1 + ns.sum) (List.map_congr_left fun a _ => h a)

private theorem weight_names (ns : List String) :
    (tuple (ns.map str)).weight = 1 + ns.length := by
  rw [weight_tuple_map (f := fun _ => 1) weight_str, List.map_const', List.sum_replicate_nat,
    Nat.mul_one]

/-- The weight of a field as a value is its weight as a field. -/
theorem weight_ofField (x : Field Tree) :
    (ofField x).weight = fieldWeight (x.map treeWeight) := by
  cases x with
  | name | flag | int64 => simp [ofField, fieldWeight, Field.map, weight]
  | node => exact weight_node _
  | nodes => exact weight_tuple_map weight_node _
  | names | nameSet => exact weight_names _
  | bindings es =>
    rw [ofField, weight_tuple_map (f := fun e => 2 + treeWeight e.2)]
    · simp [fieldWeight, Field.map, Function.comp_def]
    · intro e
      simp only [weight_tuple, List.map_cons, weight_str, weight_node, List.map_nil,
        List.sum_cons, List.sum_nil]
      omega
  | locations => exact weight_tuple_map (fun e => by simp) _
  | graph =>
    refine weight_tuple_map (fun e => ?_) _
    rw [weight_tuple]
    simp only [List.map_cons, weight_str, weight_names, List.map_nil, List.sum_cons, List.sum_nil]
    omega
  | frames => exact weight_tuple_map (fun ns => weight_names ns) _
  | records => exact weight_tuple_map weight_record _

theorem treeWeight_node (k : Kind) (fs : List (Field Tree)) :
    treeWeight (.node k fs) = 1 + ((fs.map ofField).map weight).sum := by
  rw [treeWeight, Tree.fold_node, ← treeWeight]
  simp [weight_ofField, Function.comp_def]

end Value

end LoweringIR
