import LoweringIR.Proofs.Outcome
import LoweringIR.Tree.Encode

/-!
# What encoding makes of a value

Encoding is a walk with a stack of its own. Since the walk cannot fail, what it makes of a value is
said by one equation for each of the three things that have parts, and everything else is left as it
is. These equations are all that is used of the walk from here on.

## Main results

* `Value.encode_tuple`, `encode_node`, `encode_record` — what has parts
* `Value.encode_of_leaf` — what has none
-/

namespace LoweringIR.Value

theorem value_encodeWalk (v : Value) : encodeWalk.value v = .ok v.encode := by
  rw [encode, Walk.result_eq_value]
  split
  · next h => rw [h]

theorem encode_eq (v : Value) :
    v.encode = match v.encodeStep with
      | .leaf w => w
      | .branch g ms => g.assemble (ms.map encode) := by
  have h := encodeWalk.value_eq v
  rw [value_encodeWalk, show encodeWalk.enter v = .ok v.encodeStep from rfl] at h
  cases hs : v.encodeStep with
  | leaf w =>
    rw [hs] at h
    exact Except.ok.inj h
  | branch g ms =>
    rw [hs] at h
    dsimp only at h
    rw [mapM_eq_ok_map fun m _ => value_encodeWalk m] at h
    exact Except.ok.inj h

theorem encode_tuple (vs : List Value) : (tuple vs).encode = list (vs.map encode) := by
  rw [encode_eq]
  rfl

theorem encode_node (k : Kind) (fs : List (Field Tree)) :
    (node (.node k fs)).encode =
      described k.name (k.schema.map Prod.fst) ((fs.map ofField).map encode) := by
  rw [encode_eq]
  rfl

theorem encode_record (c : Closure) :
    (record c).encode =
      described "Closure" ["name", "label", "free"] ((ofClosure c).map encode) := by
  rw [encode_eq]
  rfl

theorem encode_of_leaf {v : Value} (h : v.encodeStep = .leaf v) : v.encode = v := by
  rw [encode_eq, h]

@[simp] theorem encode_str (s : String) : (str s).encode = str s := encode_of_leaf rfl

@[simp] theorem encode_bool (b : Bool) : (bool b).encode = bool b := encode_of_leaf rfl

@[simp] theorem encode_int (n : Int) : (int n).encode = int n := encode_of_leaf rfl

theorem encode_names (ns : List String) : (tuple (ns.map str)).encode = list (ns.map str) := by
  rw [encode_tuple, List.map_map]
  exact congrArg list (List.map_congr_left fun n _ => encode_str n)

theorem encode_pairs {α : Type} (g : α → Value) (es : List (String × α)) :
    (tuple (es.map fun e => tuple [str e.1, g e.2])).encode =
      list (es.map fun e => list [str e.1, (g e.2).encode]) := by
  simp [encode_tuple, Function.comp_def]

end LoweringIR.Value
