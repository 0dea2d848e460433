import LoweringIR.Tree.Fault
import LoweringIR.Tree.Register
import LoweringIR.Value.Stream

/-!
# Building nodes

A node is built from values, one for every field of its kind. Each value is read by the shape of its
field alone: a collection may come in any form that can be gone through, and is stored as a list;
what is named, counted or bound in it is checked item by item, from the front. Only then come the
few conditions that belong to a kind, such as that an address has a register in it.

Fields are read in order, except that closure records are read after the fields behind them.

Reading goes through the collections it is given, so it is written for all monads in which streams
can be drawn from. In `Except` each stream yields what it was made of.
-/

namespace LoweringIR

/-! ### Reading values -/

variable {m : Type → Type → Type} [∀ ε, Monad (m ε)] [∀ ε, MonadExceptOf ε (m ε)] [Draws m]

namespace Place

/-- The value at a place is not what the place asks for. -/
def refuse {α : Type} (p : Place) (wanted : Wanted) (got : Value) : m BuildFault α :=
  throw (.shape (.unwanted p wanted got))

/-- A name. -/
def name (p : Place) : Value → m BuildFault String
  | .str s => pure s
  | v => p.refuse .names v

/-- A truth value. -/
def flag (p : Place) : Value → m BuildFault Bool
  | .bool b => pure b
  | v => p.refuse .boolean v

/-- An integer that fits in 64 bits. -/
def int64 (p : Place) : Value → m BuildFault Int64
  | .int n =>
    if Int64.minValue.toInt ≤ n ∧ n ≤ Int64.maxValue.toInt then pure (.ofInt n)
    else throw (.range (.tooWide p n))
  | v => throw (.range (.notInteger p v))

/-- A tree of a family. -/
def node (p : Place) (f : Family) : Value → m BuildFault Tree
  | .node t => if t.family? = some f then pure t else p.refuse (.node f) (.node t)
  | v => p.refuse (.node f) v

/-- The items of a collection. -/
def sequence (p : Place) (v : Value) : m BuildFault (List Value) := do
  match ← v.draw? with
  | some vs => pure vs
  | none => p.refuse .sequence v

/-- Reads items one by one, each at its own place. -/
def each {α : Type} (p : Place) (read : Place → Value → m BuildFault α) (vs : List Value) :
    m BuildFault (List α) :=
  vs.zipIdx.mapM fun v => read (p.item (.nth v.2)) v.1

/-- The two items of a pair. -/
def pair (p : Place) (v : Value) : m BuildFault (Value × Value) := do
  match ← v.draw? with
  | some [a, b] => pure (a, b)
  | _ => p.refuse .pair v

/-- The pairs of a mapping: the entries of a dictionary, or the items of a collection of pairs. -/
def pairs (p : Place) : Value → m BuildFault (List (Value × Value))
  | .dict es => pure es
  | v => do p.each pair (← p.sequence v)

/-- Reads a mapping: the name and then the value of each pair. -/
def mapping {α : Type} (p : Place) (read : Place → Value → m BuildFault α) (v : Value) :
    m BuildFault (List (String × α)) := do
  (← p.pairs v).mapM fun e => do
    let n ← p.name e.1
    pure (n, ← read (p.item (.key n)) e.2)

/-- A sequence of trees of a family. -/
def nodes (p : Place) (f : Family) (v : Value) : m BuildFault (List Tree) := do
  p.each (fun q => q.node f) (← p.sequence v)

/-- A sequence of names. -/
def names (p : Place) (v : Value) : m BuildFault (List String) := do
  (← p.sequence v).mapM p.name

/-- The free variables of a closure record. -/
def freeNames (p : Place) (v : Value) : m BuildFault (List String) := do
  match ← v.draw? with
  | some vs => vs.mapM p.name
  | none => p.refuse .nameSequence v

end Place

/-- A text in a closure record. -/
def Closure.textAt (field : String) : Value → m BuildFault String
  | .str s => pure s
  | v => Place.refuse ⟨"Closure", field, none⟩ .string v

/-- Builds a closure record. -/
def Closure.build (name label free : Value) : m BuildFault Closure := do
  let n ← textAt "name" name
  let l ← textAt "label" label
  pure ⟨n, l, ← Place.freeNames ⟨"Closure", "free", none⟩ free⟩

namespace Place

/-- A closure record, or the three values that it is built from. -/
def record (p : Place) (v : Value) : m BuildFault Closure :=
  match v with
  | .record c => pure c
  | .dict _ => p.refuse .closure v
  | _ => do
    match ← v.draw? with
    | none => p.refuse .closure v
    | some [name, label, free] => Closure.build name label free
    | some _ => p.refuse .triple v

/-- A sequence of closure records. A dictionary is none. It is gone through only as fast as records
are read. -/
def records (p : Place) (v : Value) : m BuildFault (List Closure) :=
  match v with
  | .dict _ => p.refuse .sequence v
  | _ => do
    match ← v.remaining? with
    | none => p.refuse .sequence v
    | some vs => v.readInTurn (fun i => record (p.item (.nth i))) 0 vs

/-! Where streams are met once, reading a collection is matching on its items. -/

theorem sequence_eq (p : Place) (v : Value) :
    (p.sequence v : Except BuildFault (List Value)) =
      match v.items? with
      | some vs => .ok vs
      | none => p.refuse .sequence v := by
  simp only [sequence, Value.draw?_eq, bind, Except.bind]
  cases v.items? <;> rfl

theorem pair_eq (p : Place) (v : Value) :
    (p.pair v : Except BuildFault (Value × Value)) =
      match v.items? with
      | some [a, b] => .ok (a, b)
      | _ => p.refuse .pair v := by
  simp only [pair, Value.draw?_eq, bind, Except.bind]
  split <;> rfl

theorem freeNames_eq (p : Place) (v : Value) :
    (p.freeNames v : Except BuildFault (List String)) =
      match v.items? with
      | some vs => vs.mapM p.name
      | none => p.refuse .nameSequence v := by
  simp only [freeNames, Value.draw?_eq, bind, Except.bind]

theorem record_eq (p : Place) (v : Value) :
    (p.record v : Except BuildFault Closure) =
      match v with
      | .record c => .ok c
      | .dict _ => p.refuse .closure v
      | _ => match v.items? with
        | none => p.refuse .closure v
        | some [name, label, free] => Closure.build name label free
        | some _ => p.refuse .triple v := by
  unfold record
  split <;> simp [Value.draw?_eq, bind, Except.bind, pure, Except.pure]

theorem records_eq (p : Place) (v : Value) :
    (p.records v : Except BuildFault (List Closure)) =
      match v with
      | .dict _ => p.refuse .sequence v
      | _ => p.sequence v >>= p.each record := by
  unfold records
  split
  · rfl
  · rw [sequence_eq, Value.remaining?_eq]
    simp only [bind, Except.bind]
    cases v.items? with
    | none => rfl
    | some vs => exact Value.readInTurn_eq ..

end Place

/-- Reads a value by the shape of its field. -/
def Shape.read (s : Shape) (f : Family) (p : Place) (v : Value) : m BuildFault (Field Tree) :=
  match s with
  | .name => .name <$> p.name v
  | .flag => .flag <$> p.flag v
  | .int64 => .int64 <$> p.int64 v
  | .node => .node <$> p.node f v
  | .nodes => .nodes <$> p.nodes f v
  | .names => .names <$> p.names v
  | .nameSet => .nameSet <$> p.names v
  | .bindings => .bindings <$> p.mapping (fun q => q.node f) v
  | .locations => .locations <$> p.mapping (fun _ => p.name) v
  | .graph => .graph <$> p.mapping (fun q => q.names) v
  | .frames => do pure (.frames (← p.each Place.names (← p.sequence v)))
  | .records => .records <$> p.records v

/-! ### Building a node -/

namespace Kind

/-- Where a field of a kind is. -/
def place (k : Kind) (field : String) : Place := ⟨k.name, field, none⟩

/-- Reads one value for every field of a schema, in order, but closure records only after the fields
behind them. -/
def readFields (k : Kind) : Schema → List Value → m BuildFault (List (Field Tree))
  | (n, .records) :: fields, v :: vs => do
    let rest ← readFields k fields vs
    let x ← Shape.records.read k.family (k.place n) v
    pure (x :: rest)
  | (n, s) :: fields, v :: vs => do
    let x ← s.read k.family (k.place n) v
    let rest ← readFields k fields vs
    pure (x :: rest)
  | _, _ => pure []

/-- A child has to be a register. -/
def checkRegister (k : Kind) (field : String) (t : Tree) : Except BuildFault Unit :=
  match t with
  | .node (.asm .reg) _ => .ok ()
  | _ => (k.place field).refuse .register (.node t)

/-- A child has to be a label. -/
def checkLabel (k : Kind) (field : String) (t : Tree) : Except BuildFault Unit :=
  match t with
  | .node (.asm .label) _ => .ok ()
  | _ => (k.place field).refuse .label (.node t)

/-- The tree is a lambda of the high-level form. -/
def isSchemeLambda : Tree → Bool
  | .node (.scheme .lambda) _ => true
  | _ => false

/-- The tree is a lambda of the register-allocation form. -/
def isRegallocLambda : Tree → Bool
  | .node (.regalloc .lambda) _ => true
  | _ => false

/-- The conditions of a kind on fields that have been read. -/
def check (k : Kind) (fields : List (Field Tree)) : Except BuildFault Unit :=
  match k, fields with
  | asm .reg, [.name n] =>
    if registerNames.contains n then .ok () else .error (.range (.badRegister n))
  | asm .deref, [.node base, .int64 _] => k.checkRegister "reg" base
  | asm .derefLabel, [.node base, .node label] => do
    k.checkRegister "reg" base
    k.checkLabel "label" label
  | asm .derefRegister, [.node base, .node index] => do
    k.checkRegister "base" base
    k.checkRegister "index" index
  | scheme .letrec, [.bindings es, .node _] =>
    es.forM fun e =>
      if isSchemeLambda e.2 then .ok ()
      else .error (.shape (.boundNotLambda k.name e.1 (.node e.2)))
  | regalloc .letrec, [.nodes ts, .node _] =>
    ts.zipIdx.forM fun t =>
      if isRegallocLambda t.1 then .ok ()
      else .error (.shape (.entryNotLambda ((k.place "lambdas").item (.nth t.2)) (.node t.1)))
  | _, _ => .ok ()

/-- Builds a node from one value for every field. -/
def build (k : Kind) (values : List Value) : m BuildFault Tree := do
  let fields ← k.readFields k.schema values
  MonadExcept.ofExcept (k.check fields)
  pure (.node k fields)

end Kind

end LoweringIR
