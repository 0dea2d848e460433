import LoweringIR.Number.Binary64

/-!
# Document values

The data that a document holds. Two decisions separate this type from the usual one.

* The members of an object are a list: their order is part of the value, because binding lists and
  conflict graphs may be written as objects and keep the order of the text.
* A number without a fraction and an exponent is an integer of any size; any other number is a
  double. `1` and `1.0` are different values.

No key occurs twice in the objects that reading produces: `Json.put` is how a member enters one.
-/

namespace LoweringIR

/-- A document value. -/
inductive Json where
  | null
  | bool (value : Bool)
  | int (value : Int)
  | float (value : Binary64)
  | str (text : String)
  | arr (items : List Json)
  | obj (members : List (String × Json))
deriving Inhabited

namespace Json

/-- Sets a member. A key that is present keeps its place and takes the new value; a new key comes
last. -/
def put (key : String) (value : Json) : List (String × Json) → List (String × Json)
  | [] => [(key, value)]
  | m :: ms => if m.1 = key then (key, value) :: ms else m :: put key value ms

/-- The value of a member. -/
def get? (key : String) : List (String × Json) → Option Json
  | [] => none
  | m :: ms => if m.1 = key then some m.2 else get? key ms

@[simp] theorem get?_put_self (key : String) (value : Json) (ms : List (String × Json)) :
    get? key (put key value ms) = some value := by
  induction ms with
  | nil => simp [put, get?]
  | cons m ms ih =>
    by_cases h : m.1 = key
    · simp [put, get?, h]
    · simp [put, get?, h, ih]

mutual

/-- How many containers enclose the innermost value, itself included if it is a container. -/
def depth : Json → Nat
  | .arr items => 1 + depthItems items
  | .obj members => 1 + depthMembers members
  | _ => 0

/-- The greatest depth among items. -/
def depthItems : List Json → Nat
  | [] => 0
  | j :: js => max (depth j) (depthItems js)

/-- The greatest depth among the values of members. -/
def depthMembers : List (String × Json) → Nat
  | [] => 0
  | m :: ms => max (depth m.2) (depthMembers ms)

end

/-- The greatest depth of a value that documents hold. Reading and writing give up at the same
depth, so whatever is written can be read. -/
def depthLimit : Nat := 1000

/-- The greatest number of digits of an integer that is read, its sign not counted. A number with a
fraction or an exponent may have any number of them. -/
def digitLimit : Nat := 4300

end Json

end LoweringIR
