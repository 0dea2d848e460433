import LoweringIR.Tree.Call
import LoweringIR.Value.Order
import LoweringIR.Walk

/-!
# Decoding

Decoding is the way back from what documents hold: a dictionary with a kind becomes a node or a
record, a list becomes a tuple, and a dictionary without a kind stays one, since mappings may be
written so. Any other value is left as it is.

A description is checked twice. When it is entered, its kind has to be known and its members have to
be fields of that kind; when it is left, it is built from its decoded members. So a fault of a
description itself comes before the faults inside it, and those come in the order of the document.
-/

namespace LoweringIR

/-- Why a value describes no tree. -/
inductive DecodeFault where
  /-- The family has no name. -/
  | unhashableFamily (type : String)
  /-- No family has this name. -/
  | unknownFamily (got : Value)
  /-- The value is no description. -/
  | missingKind
  /-- No kind of the family has this name. -/
  | unknownKind (got : Value)
  /-- The description has members that are no fields. -/
  | unexpectedFields (kind : String) (names : List Value)
  /-- It has such members, and there is no order in which to name them. -/
  | unorderedFields (fault : ValueFault)
  /-- What is described cannot have the fields it is given. -/
  | malformedArguments (kind : String) (fault : ArgumentFault)
  /-- What is described cannot hold the values it is given. -/
  | malformedShape (kind : String) (fault : ShapeFault)
  /-- A value is out of range. -/
  | range (fault : RangeFault)
  /-- What is described is no tree. -/
  | notTree (kind : String)
deriving Inhabited

namespace DecodeFault

/-- The names of the families in ascending order. -/
def familyNames : List String := Arrangement.sorted.names (Family.all.map Family.name)

/-- The wording of a decoding fault. -/
def message : DecodeFault → String
  | unhashableFamily t => "unhashable type: '" ++ t ++ "'"
  | unknownFamily got =>
    "family must be one of " ++ listLiteral (familyNames.map Text.quoted) ++ ", got " ++ got.literal
  | missingKind => "tree node missing 'kind'"
  | unknownKind got => "unknown node kind " ++ got.literal
  | unexpectedFields kind names =>
    kind ++ " has unexpected fields " ++ listLiteral (Value.literals names)
  | unorderedFields f => f.message
  | malformedArguments kind f => "malformed " ++ kind ++ " node: " ++ f.message
  | malformedShape kind f => "malformed " ++ kind ++ " node: " ++ f.message
  | range f => f.message
  | notTree kind => kind ++ " is not a tree node"

/-- The fault of a description that cannot be built. -/
def ofBuild (kind : String) : BuildFault → DecodeFault
  | .arguments f => malformedArguments kind f
  | .shape f => malformedShape kind f
  | .range f => range f

end DecodeFault

namespace Value

/-- What is put together once its members are decoded. -/
inductive DecodeFrame where
  /-- A tuple of items. -/
  | items
  /-- A dictionary with these keys. -/
  | mapping (keys : List Value)
  /-- What a description with these members describes. -/
  | description (head : Head) (fields : List String)
deriving Inhabited

/-- The key that makes a dictionary a description. -/
def kindKey : String := "kind"

/-- The entries of a description besides its kind. -/
def fieldEntries (entries : List (Value × Value)) : List (Value × Value) :=
  entries.filter fun e => !e.1.isText kindKey

/-- The text of a key. -/
def text? : Value → Option String
  | str s => some s
  | _ => none

/-- Keys in ascending order. Texts are ordered as names are; other keys may have no order. -/
def sortKeys (keys : List Value) : Except ValueFault (List Value) :=
  match keys.mapM text? with
  | some names => .ok ((Arrangement.sorted.names names).map str)
  | none => sortOn pure keys

/-- Texts always have an order. -/
theorem sortKeys_map_str (names : List String) :
    sortKeys (names.map str) = .ok ((Arrangement.sorted.names names).map str) := by
  have h : (names.map str).mapM text? = some names := by
    induction names with
    | nil => rfl
    | cons n ns ih => simp [text?, ih]
  rw [sortKeys, h]

/-- The fault of a description with members that are no fields. -/
def unexpectedFields (kind : String) (keys : List Value) : DecodeFault :=
  match sortKeys keys with
  | .ok names => .unexpectedFields kind names
  | .error e => .unorderedFields e

/-- What a description with this kind and these entries describes, if its members are fields. -/
def describedHead (f : Family) (kind : Value) (entries : List (Value × Value)) :
    Except DecodeFault Head :=
  match kind.text?.bind f.head? with
  | none => .error (.unknownKind kind)
  | some h =>
    let extra := (entries.map Prod.fst).filter fun k => !h.fieldNames.any fun n => k.isText n
    if extra.isEmpty then .ok h else .error (unexpectedFields h.name extra)

/-- What a value is to the decoding. -/
def decodeStep (f : Family) : Value → Except DecodeFault (Walk.Entered Value Value DecodeFrame)
  | list vs => .ok (.branch .items vs)
  | dict es =>
    let fields := fieldEntries es
    match find? kindKey es with
    | none => .ok (.branch (.mapping (fields.map Prod.fst)) (fields.map Prod.snd))
    | some kind =>
      match describedHead f kind fields with
      | .error e => .error e
      | .ok h =>
        .ok (.branch (.description h (fields.filterMap fun e => e.1.text?)) (fields.map Prod.snd))
  | v => .ok (.leaf v)

section

variable {m : Type → Type → Type} [∀ ε, Monad (m ε)] [∀ ε, MonadExceptOf ε (m ε)] [Draws m]

/-- Puts decoded members together. Building what is described goes through streams among them. -/
def DecodeFrame.assemble : DecodeFrame → List Value → m DecodeFault Value
  | items, vs => pure (tuple vs)
  | mapping keys, vs => pure (dict (keys.zip vs))
  | description h fields, vs => Draws.mapError (.ofBuild h.name) (h.call ⟨[], fields.zip vs⟩)

end

/-- Where streams are met once, what a description cannot be built for is all that goes wrong. -/
theorem assemble_description (h : Head) (fields : List String) (vs : List Value) :
    ((DecodeFrame.description h fields).assemble vs : Except DecodeFault Value) =
      Except.mapError (.ofBuild h.name) (h.call ⟨[], fields.zip vs⟩) :=
  rfl

private theorem sum_filter_le (p : Value × Value → Bool) (es : List (Value × Value)) :
    (((es.filter p).map Prod.snd).map weight).sum ≤ entryWeights es := by
  induction es with
  | nil => exact Nat.zero_le _
  | cons e es ih =>
    rw [List.filter_cons, entryWeights]
    split
    · simp only [List.map_cons, List.sum_cons]
      omega
    · omega

theorem weight_of_decodeStep {f : Family} {v : Value} {g : DecodeFrame} {ms : List Value}
    (h : decodeStep f v = .ok (.branch g ms)) : (ms.map weight).sum < v.weight := by
  unfold decodeStep at h
  split at h
  · cases h
    rw [weight, weights_eq]
    omega
  · next es =>
    have key := sum_filter_le (fun e => !e.1.isText kindKey) es
    dsimp only at h
    split at h
    · cases h
      rw [weight]
      exact Nat.lt_of_le_of_lt key (by omega)
    · split at h
      · cases h
      · cases h
        rw [weight]
        exact Nat.lt_of_le_of_lt key (by omega)
  · cases h

variable {m : Type → Type → Type} [∀ ε, Monad (m ε)] [∀ ε, MonadExceptOf ε (m ε)] [Draws m]

/-- Decoding as a walk. -/
def decodeWalk (f : Family) : Walk (m DecodeFault) DecodeFault Value Value DecodeFrame where
  enter := decodeStep f
  leave g vs := g.assemble vs
  weight := weight
  weight_members := weight_of_decodeStep

end Value

/-- The family that a value names. -/
def Family.ofValue : Value → Except DecodeFault Family
  | .list _ => .error (.unhashableFamily "list")
  | .dict _ => .error (.unhashableFamily "dict")
  | v => match v.text?.bind Family.ofName? with
    | some f => .ok f
    | none => .error (.unknownFamily v)

namespace Tree

variable {m : Type → Type → Type} [∀ ε, Monad (m ε)] [∀ ε, MonadExceptOf ε (m ε)] [Draws m]

/-- The tree of a family that a value describes. -/
@[specialize] def ofDescription (f : Family) (v : Value) : m DecodeFault Tree :=
  match v with
  | .dict es =>
    match Value.find? Value.kindKey es with
    | none => throw .missingKind
    | some kind => do
      match ← (Value.decodeWalk f).result v with
      | .node t => pure t
      | _ => throw (.notTree (kind.text?.getD ""))
  | _ => throw .missingKind

/-- The tree that a value describes, in the family that another one names. -/
@[specialize] def decode (v family : Value) : m DecodeFault Tree := do
  ofDescription (← MonadExcept.ofExcept (Family.ofValue family)) v

end Tree

end LoweringIR
