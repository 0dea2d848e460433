import LoweringIR.Value.Basic
import LoweringIR.Walk

/-!
# Encoding

Encoding turns what has been built into what documents hold: a node becomes a dictionary with its
kind first and its fields after it, a record likewise, and a tuple becomes a list. Everything else
is left as it is, blanks included; they have no fields, and a value that is no document stays none.

The walk goes through the fields of a node as values, so the collections in them need no rules of
their own.
-/

namespace LoweringIR.Value

/-- What is put together once its members are encoded. -/
inductive EncodeFrame where
  /-- A list of items. -/
  | items
  /-- A dictionary with a kind and fields. -/
  | fields (kind : String) (names : List String)
deriving DecidableEq, Inhabited

/-- A dictionary with its kind first. -/
def described (kind : String) (names : List String) (values : List Value) : Value :=
  dict ((str "kind", str kind) :: names.zipWith (fun n v => (str n, v)) values)

/-- Puts encoded members together. -/
def EncodeFrame.assemble : EncodeFrame → List Value → Value
  | items, vs => list vs
  | fields kind names, vs => described kind names vs

/-- What a value is to the encoding. -/
def encodeStep : Value → Walk.Entered Value Value EncodeFrame
  | tuple vs => .branch .items vs
  | node (.node k fs) => .branch (.fields k.name (k.schema.map Prod.fst)) (fs.map ofField)
  | record c => .branch (.fields "Closure" ["name", "label", "free"]) (ofClosure c)
  | v => .leaf v

theorem weight_of_encodeStep {v : Value} {g : EncodeFrame} {ms : List Value}
    (h : encodeStep v = .branch g ms) : (ms.map weight).sum < v.weight := by
  unfold encodeStep at h
  split at h
  · cases h
    rw [weight_tuple]
    omega
  · cases h
    rw [weight_node, treeWeight_node]
    omega
  · next c =>
    cases h
    have := weight_ofField (.names c.free)
    simp only [ofField, Field.map, fieldWeight] at this
    simp only [ofClosure, List.map_cons, List.map_nil, List.sum_cons, List.sum_nil, weight_str,
      weight_record, this]
    omega
  · cases h

/-- Encoding as a walk. It never fails. -/
def encodeWalk : Walk (Except Empty) Empty Value Value EncodeFrame where
  enter v := .ok v.encodeStep
  leave g vs := .ok (g.assemble vs)
  weight := weight
  weight_members h := weight_of_encodeStep (Except.ok.inj h)

/-- The encoding of a value. -/
def encode (v : Value) : Value :=
  match encodeWalk.result v with
  | .ok w => w

end LoweringIR.Value
