import LoweringIR.Tree.Build

/-!
# Building by arguments

A node or a record may be built from arguments given by position, by name, or both. Matching them to
the fields comes before anything looks at a value, and its faults have an order of their own: names
first, one after the other, then arguments that are too many, then fields left without one.

What is being built counts as the argument before the first, so it is in every count of positions,
and naming it is giving it twice.
-/

namespace LoweringIR

/-- Arguments by position and by name. -/
structure Arguments where
  positional : List Value
  named : List (String × Value)
deriving Inhabited

/-- A parameter: its name, and the value it takes when no argument is given for it. -/
structure Parameter where
  name : String
  fallback : Option Value
deriving Inhabited

namespace Arguments

/-- The name of what is being built. -/
def selfName : String := "self"

/-- A parameter with the argument given for it so far. -/
abbrev Slot := Parameter × Option Value

/-- The slots after the arguments by position. -/
def slots (ps : List Parameter) (vs : List Value) : List Slot :=
  ps.zipIdx.map fun p => (p.1, vs[p.2]?)

/-- Fills the slot of a name. -/
def fill (owner : String) (ss : List Slot) (a : String × Value) :
    Except ArgumentFault (List Slot) :=
  match ss.find? fun s => s.1.name == a.1 with
  | some (_, none) => .ok (ss.map fun s => if s.1.name == a.1 then (s.1, some a.2) else s)
  | some (_, some _) => .error (.repeated owner a.1)
  | none => .error (if a.1 = selfName then .repeated owner a.1 else .unexpected owner a.1)

/-- The value of every parameter in order. -/
def bind (owner : String) (ps : List Parameter) (args : Arguments) :
    Except ArgumentFault (List Value) := do
  let ss ← args.named.foldlM (fill owner) (slots ps args.positional)
  if ps.length < args.positional.length then
    let least := (ps.filter fun p => p.fallback.isNone).length
    throw (.tooMany owner (least + 1) (ps.length + 1) (args.positional.length + 1))
  let missing := ss.filter fun s => s.2.isNone && s.1.fallback.isNone
  if missing.isEmpty then
    pure (ss.filterMap fun s => s.2 <|> s.1.fallback)
  else
    throw (.missing owner (missing.map fun s => s.1.name))

end Arguments

namespace Head

/-- The parameters of what a head builds: its fields. The free variables of a record may be left out. -/
def parameters (h : Head) : List Parameter :=
  h.fieldNames.map fun n =>
    ⟨n, if h = .closure ∧ n = "free" then some (.tuple []) else none⟩

variable {m : Type → Type → Type} [∀ ε, Monad (m ε)] [∀ ε, MonadExceptOf ε (m ε)] [Draws m]

/-- Builds from one value for every parameter. -/
def build (h : Head) (values : List Value) : m BuildFault Value :=
  match h, values with
  | node k, values => .node <$> k.build values
  | closure, [name, label, free] => .record <$> Closure.build name label free
  | closure, _ => throw (.arguments (.missing h.name h.fieldNames))

/-- Builds from arguments. -/
def call (h : Head) (args : Arguments) : m BuildFault Value := do
  let values ← MonadExcept.ofExcept ((args.bind h.name h.parameters).mapError .arguments)
  h.build values

end Head

/-- The blank with a number. It takes no arguments. -/
def Tree.callBlank (f : Option Family) (number : Nat) (args : Arguments) :
    Except BuildFault Value :=
  if args.positional.isEmpty && args.named.isEmpty then .ok (.node (.blank f number))
  else .error (.arguments (.notAny (blankName f)))

end LoweringIR
