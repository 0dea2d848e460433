import LoweringIR.Value.Basic

/-!
# Going through streams

A stream is gone through once. What has been taken from it is gone for everybody who holds the same
stream, and if whoever goes through it gives up half-way, the rest is still there.

What reads values is therefore written for any kind of monad in which streams can be drawn from.
There are two of them. In `Except` nothing is remembered: a stream always yields what it was made
of, which is right as long as nobody meets a stream twice. In `Shared` what is left of a stream is
kept, also when reading fails.
-/

namespace LoweringIR

/-- Monads in which streams can be drawn from, one for every type of failures. A stream is given by
its number and the items it was made of. -/
class Draws (m : Type → Type → Type) where
  /-- What a stream still has. -/
  remaining {ε : Type} : Nat → List Value → m ε (List Value)
  /-- Leaves so much in a stream. -/
  leave {ε : Type} : Nat → List Value → m ε Unit
  /-- Says otherwise why something failed. -/
  mapError {ε ε' α : Type} : (ε → ε') → m ε α → m ε' α

/-! ### Streams that are met once -/

instance : Draws Except where
  remaining _ items := pure items
  leave _ _ := pure ()
  mapError := Except.mapError

/-! ### Streams that are shared -/

/-- What is left of the streams that somebody has drawn from. -/
structure Streams where
  left : List (Nat × List Value)
deriving Inhabited

namespace Streams

/-- Nobody has drawn from any stream. -/
def untouched : Streams := ⟨[]⟩

/-- What is left of a stream. -/
def remaining (s : Streams) (number : Nat) (items : List Value) : List Value :=
  match s.left.find? fun e => e.1 == number with
  | some e => e.2
  | none => items

/-- Leaves so much in a stream. -/
def leave (s : Streams) (number : Nat) (items : List Value) : Streams :=
  ⟨(number, items) :: s.left.filter fun e => e.1 != number⟩

/-- What has been left in a stream is what remains of it. -/
@[simp] theorem remaining_leave (s : Streams) (number : Nat) (items made : List Value) :
    (s.leave number items).remaining number made = items := by
  simp [remaining, leave]

/-- Drawing from a stream leaves the others as they are. -/
theorem remaining_leave_of_ne (s : Streams) {number other : Nat} (h : other ≠ number)
    (items made : List Value) :
    (s.leave number items).remaining other made = s.remaining other made := by
  have hb : (number == other) = false := by simp [Ne.symm h]
  have hf : (s.left.filter fun e => e.1 != number).find? (fun e => e.1 == other) =
      s.left.find? fun e => e.1 == other := by
    rw [List.find?_filter]
    congr 1
    funext e
    by_cases he : e.1 = other
    · simp [he, h]
    · simp [he]
  simp [remaining, leave, hb, hf]

end Streams

/-- Reading with what is left of streams kept, whether it fails or not. -/
abbrev Shared (ε : Type) : Type → Type := ExceptT ε (StateM Streams)

instance : Draws Shared where
  remaining number items := do pure ((← get).remaining number items)
  leave number items := modify fun s => s.leave number items
  mapError := ExceptT.adapt

/-! ### Collections -/

namespace Value

variable {m : Type → Type → Type} {ε α : Type} [Monad (m ε)] [Draws m]

/-- Leaves so much in a collection. Only a stream has less afterwards. -/
def leave (rest : List Value) : Value → m ε Unit
  | stream number _ => Draws.leave number rest
  | _ => pure ()

/-- What a collection still yields, without going through it. -/
def remaining? : Value → m ε (Option (List Value))
  | stream number items => some <$> Draws.remaining number items
  | v => pure v.items?

/-- Goes through a collection to its end. -/
def draw? (v : Value) : m ε (Option (List Value)) := do
  let items ← v.remaining?
  v.leave []
  pure items

/-- Goes through the items of a collection, starting at a position, only as fast as they are read.
If reading an item fails, the items behind it are left. -/
def readInTurn (source : Value) (read : Nat → Value → m ε α) (position : Nat) :
    List Value → m ε (List α)
  | [] => do
    source.leave []
    pure []
  | v :: vs => do
    source.leave vs
    let a ← read position v
    let rest ← readInTurn source read (position + 1) vs
    pure (a :: rest)

@[simp] theorem leave_eq (rest : List Value) (v : Value) :
    (v.leave rest : Except ε Unit) = .ok () := by
  cases v <;> rfl

@[simp] theorem remaining?_eq (v : Value) :
    (v.remaining? : Except ε (Option (List Value))) = .ok v.items? := by
  cases v <;> rfl

/-- A collection that is met once yields its items. -/
@[simp] theorem draw?_eq (v : Value) :
    (v.draw? : Except ε (Option (List Value))) = .ok v.items? := by
  simp [draw?, bind, Except.bind, pure, Except.pure]

/-- Where nothing is remembered, it does not matter how fast a collection is gone through. -/
theorem readInTurn_eq (source : Value) (read : Nat → Value → Except ε α) (position : Nat)
    (vs : List Value) :
    readInTurn source read position vs =
      (vs.zipIdx position).mapM fun v => read v.2 v.1 := by
  induction vs generalizing position with
  | nil => simp [readInTurn, bind, Except.bind]
  | cons v vs ih =>
    rw [readInTurn, leave_eq, List.zipIdx_cons, List.mapM_cons, ih]
    rfl

end Value

end LoweringIR
