import LoweringIR.Value.Order
import LoweringIR.Value.Stream

/-!
# Forms of values

The text forms, applied to values that have not been checked. Items are whatever going through a
value yields, a text yielding its characters, and each is written as the text of a value: a text is
itself, a tree is rendered, and anything else is its literal.
-/

namespace LoweringIR

/-- A value names no arrangement. -/
structure ArrangementFault where
  got : Value
deriving Inhabited

/-- The wording of the fault. -/
def ArrangementFault.message (f : ArrangementFault) : String :=
  "ordering must be one of " ++
    listLiteral (Arrangement.all.map fun a => Text.quoted a.name) ++ ", got " ++ f.got.literal

/-- The arrangement that a value names. -/
def Arrangement.ofValue (v : Value) : Except ArrangementFault Arrangement :=
  match v with
  | .str s => match Arrangement.ofName? s with
    | some a => .ok a
    | none => .error ⟨v⟩
  | _ => .error ⟨v⟩

/-- The arrangement a text asks for where nothing checks it: only one text asks for sorting. -/
def Arrangement.lenient (s : String) : Arrangement :=
  if s = Arrangement.sorted.name then .sorted else .insertion

namespace Value

/-- The text of a value. -/
def text : Value → Except ValueFault String
  | str s => .ok s
  | node t => (t.render .sorted).mapError .blank
  | v => .ok v.literal

/-- The first element of a value; for a dictionary, the value of the key zero. -/
def first : Value → Except ValueFault Value
  | str s => match s.toList with
    | c :: _ => .ok (str (String.singleton c))
    | [] => .error (.outOfRange "string")
  | bytes bs => match bs with
    | b :: _ => .ok (int b.toNat)
    | [] => .error (.outOfRange "index")
  | list vs => match vs with
    | v :: _ => .ok v
    | [] => .error (.outOfRange "list")
  | tuple vs => match vs with
    | v :: _ => .ok v
    | [] => .error (.outOfRange "tuple")
  | dict es => match es.find? fun e => same e.1 (int 0) with
    | some e => .ok e.2
    | none => .error (.noKey "0")
  | v => .error (.notSubscriptable v.typeName)

/-- What a value yields when it is gone through for the first time: the items of a collection, the
characters of a text, the numbers that bytes are. -/
def elements? : Value → Option (List Value)
  | str s => some (s.toList.map fun c => str (String.singleton c))
  | bytes bs => some (bs.map fun b => int b.toNat)
  | v => v.items?

section

variable {m : Type → Type → Type} [∀ ε, Monad (m ε)] [∀ ε, MonadExceptOf ε (m ε)] [Draws m]

/-- What a value still yields, without going through it. -/
def iterate (v : Value) : m ValueFault (List Value) := do
  match v with
  | stream number items => Draws.remaining number items
  | v => match v.elements? with
    | some vs => pure vs
    | none => throw (.notIterable v.typeName)

/-- Goes through a value to its end. -/
def exhaust (v : Value) : m ValueFault (List Value) := do
  let vs ← v.iterate
  v.leave []
  pure vs

/-- The two elements that a value consists of. That there is no third one is known only once it has
been asked for. -/
def pair (v : Value) : m ValueFault (Value × Value) := do
  if v.elements?.isNone then throw (.notUnpackable v.typeName)
  let vs ← v.iterate
  v.leave (vs.drop 3)
  match vs with
  | [a, b] => pure (a, b)
  | vs => if vs.length < 2 then throw (.tooFew vs.length) else throw .tooMany

/-- What a value yields, laid out by a key. -/
def arrange (a : Arrangement) (key : Value → Except ValueFault Value) (v : Value) :
    m ValueFault (List Value) := do
  let vs ← v.exhaust
  match a with
  | .sorted => MonadExcept.ofExcept (sortOn key vs)
  | .insertion => pure vs

/-- The texts of what a value yields. It is gone through only as fast as texts are found. -/
def texts (v : Value) : m ValueFault (List String) := do
  v.readInTurn (fun _ w => MonadExcept.ofExcept w.text) 0 (← v.iterate)

/-- What a value yields, as texts with a separator between them. -/
def join (items : Value) (separator : String) : m ValueFault String := do
  pure (Form.join (← items.texts) separator)

/-- What a value yields, in an annotation around a tail. -/
def wrap (name : String) (items : Value) (separator : String) (tail : Value) :
    m ValueFault String := do
  let texts ← items.texts
  pure (Form.wrap name texts separator (← MonadExcept.ofExcept tail.text))

/-- An entry of a conflict graph. -/
def conflictEntry (a : Arrangement) (entry : Value) : m ValueFault String := do
  let e ← entry.pair
  let variableName ← MonadExcept.ofExcept e.1.text
  let conflicts ← arrange a pure e.2
  pure (Form.conflictEntry variableName
    (← conflicts.mapM fun v => MonadExcept.ofExcept v.text))

/-- What a value yields, as the entries of a conflict graph around a tail. -/
def conflictGraph (name : String) (graph tail : Value) (a : Arrangement) : m ValueFault String := do
  let entries ← (← arrange a first graph).mapM (conflictEntry a)
  pure (Form.wrap name entries " " (← MonadExcept.ofExcept tail.text))

end

end Value

end LoweringIR
