import LoweringIR.Sorting.Runs
import LoweringIR.Tree.Render
import LoweringIR.Value.Literal

/-!
# Comparing values

Values of one kind have an order: numbers by value, whatever their type, texts and bytes by their
elements, lists and tuples by the first pair of unequal items. Values of two kinds have none, and
comparing them is a fault that names both.

Since a comparison can fail, sorting can too, and which pair it fails on is observable. `sortOn`
therefore makes its comparisons in a fixed order, which is that of `Sorting.sort`. An item is always
compared as the smaller one with those before it, and goes behind its equals.
-/

namespace LoweringIR

/-- Why an operation on values fails. -/
inductive ValueFault where
  /-- No order between values of these types. -/
  | incomparable (left right : String)
  /-- A value of this type cannot be gone through. -/
  | notIterable (type : String)
  /-- A value of this type has no first element. -/
  | notSubscriptable (type : String)
  /-- A sequence of this sort is empty. -/
  | outOfRange (sort : String)
  /-- A dictionary has no such key. -/
  | noKey (key : String)
  /-- A value of this type is no pair. -/
  | notUnpackable (type : String)
  /-- A pair has too few items. -/
  | tooFew (count : Nat)
  /-- A pair has too many items. -/
  | tooMany
  /-- A value of this type cannot be a key. -/
  | unhashable (type : String)
  /-- A tree has no text. -/
  | blank (fault : BlankFault)
deriving DecidableEq, Inhabited

/-- The wording of a fault. -/
def ValueFault.message : ValueFault → String
  | .incomparable l r => "'<' not supported between instances of '" ++ l ++ "' and '" ++ r ++ "'"
  | .notIterable t => "'" ++ t ++ "' object is not iterable"
  | .notSubscriptable t => "'" ++ t ++ "' object is not subscriptable"
  | .outOfRange s => s ++ " index out of range"
  | .noKey k => k
  | .notUnpackable t => "cannot unpack non-iterable " ++ t ++ " object"
  | .tooFew n => "not enough values to unpack (expected 2, got " ++ toString n ++ ")"
  | .tooMany => "too many values to unpack (expected 2)"
  | .unhashable t => "unhashable type: '" ++ t ++ "'"
  | .blank e => e.message

namespace Value

/-! ### Equality -/

/-- The number that a value is. Truth values are numbers. -/
def number? : Value → Option Binary64.Magnitude
  | bool b => some (.ratio (if b then 1 else 0) 0)
  | int n => some (.ratio n 0)
  | float x => some x.magnitude
  | _ => none

/-- The two values are the same number. -/
def sameNumber (v w : Value) : Bool :=
  match v.number?, w.number? with
  | some m, some n => m.same n
  | _, _ => false

mutual

/-- The values are equal. Numbers of different types may be, dictionaries with different orders may
be, and lists and tuples never are. A stream is equal to nothing but itself. -/
def same : Value → Value → Bool
  | null, w => match w with
    | null => true
    | _ => false
  | str s, w => w.isText s
  | bytes bs, w => match w with
    | bytes cs => bs == cs
    | _ => false
  | list vs, w => match w with
    | list ws => sameAll vs ws
    | _ => false
  | tuple vs, w => match w with
    | tuple ws => sameAll vs ws
    | _ => false
  | stream n _, w => match w with
    | stream k _ => n == k
    | _ => false
  | dict es, w => match w with
    | dict fs => es.length == fs.length && sameEntries es fs
    | _ => false
  | node t, w => match w with
    | node u => t == u
    | _ => false
  | record c, w => match w with
    | record d => c == d
    | _ => false
  | v, w => sameNumber v w

/-- The values are equal one by one. -/
def sameAll : List Value → List Value → Bool
  | [], ws => ws.isEmpty
  | v :: vs, ws => match ws with
    | [] => false
    | w :: ws => same v w && sameAll vs ws

/-- Every entry has an equal one on the other side. -/
def sameEntries : List (Value × Value) → List (Value × Value) → Bool
  | [], _ => true
  | e :: es, fs => fs.any (fun f => same e.1 f.1 && same e.2 f.2) && sameEntries es fs

end

/-! ### Dictionaries -/

mutual

/-- The type that keeps a value from being a key. -/
def unhashable? : Value → Option String
  | list _ => some "list"
  | dict _ => some "dict"
  | tuple vs => unhashableAmong? vs
  | _ => none

/-- The first type that keeps one of the values from being a key. -/
def unhashableAmong? : List Value → Option String
  | [] => none
  | v :: vs => match unhashable? v with
    | some t => some t
    | none => unhashableAmong? vs

end

/-- Sets an entry. An equal key keeps its place and takes the new value. -/
def putEntry (key value : Value) : List (Value × Value) → List (Value × Value)
  | [] => [(key, value)]
  | e :: es => if same e.1 key then (e.1, value) :: es else e :: putEntry key value es

/-- Sets an entry, if its key can be one. -/
def insertEntry (key value : Value) (entries : List (Value × Value)) :
    Except ValueFault (List (Value × Value)) :=
  match unhashable? key with
  | some t => .error (.unhashable t)
  | none => .ok (putEntry key value entries)

/-! ### Order -/

mutual

/-- The first value is the smaller one. -/
def less : Value → Value → Except ValueFault Bool
  | str s, w => match w with
    | str t => .ok (decide (s < t))
    | w => .error (.incomparable "str" w.typeName)
  | bytes bs, w => match w with
    | bytes cs => .ok (decide (bs < cs))
    | w => .error (.incomparable "bytes" w.typeName)
  | list vs, w => match w with
    | list ws => lessItems vs ws
    | w => .error (.incomparable "list" w.typeName)
  | tuple vs, w => match w with
    | tuple ws => lessItems vs ws
    | w => .error (.incomparable "tuple" w.typeName)
  | v, w => match v.number?, w.number? with
    | some m, some n => .ok (m.less n)
    | _, _ => .error (.incomparable v.typeName w.typeName)

/-- The first sequence comes first: by the first unequal items, or because it ends first. -/
def lessItems : List Value → List Value → Except ValueFault Bool
  | [], ws => .ok !ws.isEmpty
  | v :: vs, ws => match ws with
    | [] => .ok false
    | w :: ws => if same v w then lessItems vs ws else less v w

end

/-! ### Sorting -/

/-- The first value is the smaller one, if there is an order between the two. -/
def precedes (v w : Value) : Bool :=
  match less v w with
  | .ok b => b
  | .error _ => false

/-- Sorts values by keys that are all computed first. Whether a comparison fails, and which one does
first, depends on the comparisons that are made; where the values go does not. -/
def sortOn (key : Value → Except ValueFault Value) (vs : List Value) :
    Except ValueFault (List Value) := do
  let keyed ← vs.mapM fun v => do pure ((← key v), v)
  let _ ← Sorting.sort (fun x y => less x.1 y.1) keyed
  pure ((keyed.mergeSort fun x y => !precedes y.1 x.1).map Prod.snd)

end Value

end LoweringIR
