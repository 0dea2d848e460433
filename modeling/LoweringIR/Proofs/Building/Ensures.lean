import LoweringIR.Proofs.Interchange.Read

/-!
# What reading ensures

Reading is written for all monads in which streams can be drawn from, so what it ensures is said for
all of them at once. `Draws.Logic` is the little logic that this takes. It speaks of what a
computation may return, and of nothing if it fails, but where streams are shared it also keeps an
account of what is left in them: a computation may count on every value in a stream to satisfy `P`,
and whether it fails or not, it has to leave the streams so.

There are two models. In `Except` streams are met once and there is nothing to keep. In `Shared` the
account is the invariant of the state.

## Main definitions

* `Draws.Logic` — the laws of `Ensures P x Q`: if all streams hold values in `P`, whatever `x`
  returns is in `Q`

## Main results

* `Draws.ensures_except_iff`, `Draws.ensures_shared_iff` — what that means in the two models
* `Draws.Logic.mapM` — what holds of every result holds of the results of a list
-/

namespace LoweringIR

/-- Every value that is left in a stream satisfies `P`. -/
def Streams.Each (P : Value → Prop) (s : Streams) : Prop := ∀ e ∈ s.left, ∀ v ∈ e.2, P v

namespace Streams

variable {P : Value → Prop} {s : Streams} {items : List Value}

theorem Each.remaining (hs : s.Each P) (number : Nat) (h : ∀ v ∈ items, P v) :
    ∀ v ∈ s.remaining number items, P v := by
  unfold Streams.remaining
  split
  · next e he => exact hs e (List.mem_of_find?_eq_some he)
  · exact h

theorem Each.leave (hs : s.Each P) (number : Nat) (h : ∀ v ∈ items, P v) :
    (s.leave number items).Each P := by
  intro e he
  rcases List.mem_cons.mp he with rfl | he
  · exact h
  · exact hs e (List.mem_of_mem_filter he)

end Streams

namespace Shared

variable {ε α β : Type}

/-- What a computation on shared streams comes to, and what it leaves of them. -/
def runFrom (x : Shared ε α) (s : Streams) : Except ε α × Streams :=
  (ExceptT.run x : StateM Streams (Except ε α)).run s

theorem runFrom_bind (x : Shared ε α) (f : α → Shared ε β) (s : Streams) :
    (x >>= f : Shared ε β).runFrom s =
      match x.runFrom s with
      | (.ok a, s') => (f a).runFrom s'
      | (.error e, s') => (.error e, s') := by
  simp only [runFrom, ExceptT.run_bind, StateT.run_bind]
  rcases (ExceptT.run x : StateM Streams (Except ε α)).run s with ⟨_ | a, s'⟩ <;> rfl

theorem result_map (x : Shared ε α) (f : α → β) (s : Streams) :
    ((f <$> x : Shared ε β).runFrom s).1 = f <$> (x.runFrom s).1 := by
  rw [map_eq_pure_bind, runFrom_bind]
  rcases x.runFrom s with ⟨_ | a, s'⟩ <;> rfl

/-- Where a computation returns something, what is done before does so too. -/
theorem ok_of_bind {x : Shared ε α} {f : α → Shared ε β} {s : Streams} {b : β}
    (h : ((x >>= f : Shared ε β).runFrom s).1 = .ok b) :
    ∃ a, (x.runFrom s).1 = .ok a ∧ ((f a).runFrom (x.runFrom s).2).1 = .ok b := by
  rw [runFrom_bind] at h
  rcases hx : x.runFrom s with ⟨e | a, s'⟩
  · rw [hx] at h
    cases h
  · rw [hx] at h
    exact ⟨a, rfl, h⟩

end Shared

/-- A logic for what computations return that draw from streams. -/
class Draws.Logic (m : Type → Type → Type) [∀ ε, Monad (m ε)] [∀ ε, MonadExceptOf ε (m ε)]
    [Draws m] where
  /-- If all streams hold values in `P` only, and where they are shared will do so afterwards, what
  the computation returns is in `Q`. -/
  Ensures {ε α : Type} (P : Value → Prop) (x : m ε α) (Q : α → Prop) : Prop
  protected pure {ε α : Type} {P : Value → Prop} {Q : α → Prop} {a : α} (h : Q a) :
    Ensures P (Pure.pure a : m ε α) Q
  protected bind {ε α β : Type} {P : Value → Prop} {Q : α → Prop} {R : β → Prop} {x : m ε α}
    {f : α → m ε β} (hx : Ensures P x Q) (hf : ∀ a, Q a → Ensures P (f a) R) :
    Ensures P (x >>= f) R
  protected throw {ε α : Type} {P : Value → Prop} {Q : α → Prop} (e : ε) :
    Ensures P (MonadExcept.throw e : m ε α) Q
  protected remaining {ε : Type} {P : Value → Prop} (number : Nat) {items : List Value}
    (h : ∀ v ∈ items, P v) :
    Ensures P (Draws.remaining number items : m ε (List Value)) fun vs => ∀ v ∈ vs, P v
  protected leave {ε : Type} {P : Value → Prop} (number : Nat) {items : List Value}
    (h : ∀ v ∈ items, P v) : Ensures P (Draws.leave number items : m ε Unit) fun _ => True

namespace Draws

export Logic (Ensures)

/-! ### Models -/

instance : Logic Except where
  Ensures _ x Q := ∀ a, x = .ok a → Q a
  pure h _ ha := Except.ok.inj ha ▸ h
  bind hx hf b hb := by
    obtain ⟨a, ha, hb⟩ := bind_eq_ok_iff.mp hb
    exact hf a (hx a ha) b hb
  throw _ _ ha := nomatch ha
  remaining _ _ h _ ha := Except.ok.inj ha ▸ h
  leave _ _ _ _ _ := trivial

instance : Logic Shared where
  Ensures P x Q := ∀ s : Streams, s.Each P →
    (x.runFrom s).2.Each P ∧ ∀ a, (x.runFrom s).1 = .ok a → Q a
  pure h s hs := ⟨hs, fun _ ha => Except.ok.inj ha ▸ h⟩
  bind {_ _ _ _ _ _ x f} hx hf s hs := by
    obtain ⟨hs', hx⟩ := hx s hs
    rw [Shared.runFrom_bind]
    rcases hrun : x.runFrom s with ⟨_ | a, s'⟩
    · rw [hrun] at hs'
      exact ⟨hs', fun _ h => nomatch h⟩
    · rw [hrun] at hs' hx
      exact hf a (hx a rfl) s' hs'
  throw e s hs := ⟨hs, fun _ ha => nomatch ha⟩
  remaining number items h s hs := ⟨hs, fun _ ha => Except.ok.inj ha ▸ hs.remaining number h⟩
  leave number items h s hs := ⟨hs.leave number h, fun _ _ => trivial⟩

section

variable {ε α : Type} {P : Value → Prop} {Q : α → Prop}

theorem ensures_except_iff {x : Except ε α} : Ensures P x Q ↔ ∀ a, x = .ok a → Q a := Iff.rfl

theorem ensures_shared_iff {x : Shared ε α} :
    Ensures (m := Shared) P x Q ↔
      ∀ s : Streams, s.Each P → (x.runFrom s).2.Each P ∧ ∀ a, (x.runFrom s).1 = .ok a → Q a :=
  Iff.rfl

end

/-! ### Laws -/

namespace Logic

variable {m : Type → Type → Type} [∀ ε, Monad (m ε)] [∀ ε, LawfulMonad (m ε)]
  [∀ ε, MonadExceptOf ε (m ε)] [Draws m] [Logic m] {ε α β : Type} {P : Value → Prop}
  {Q : α → Prop} {R : β → Prop} {x : m ε α}

protected theorem mono (hx : Ensures P x Q) {Q' : α → Prop} (h : ∀ a, Q a → Q' a) :
    Ensures P x Q' := by
  rw [← bind_pure x]
  exact Logic.bind hx fun a ha => Logic.pure (h a ha)

protected theorem map {f : α → β} (hx : Ensures P x Q) (h : ∀ a, Q a → R (f a)) :
    Ensures P (f <$> x) R := by
  rw [map_eq_pure_bind]
  exact Logic.bind hx fun a ha => Logic.pure (h a ha)

omit [∀ ε, LawfulMonad (m ε)] in
protected theorem ofExcept {x : Except ε α} (hx : ∀ a, x = .ok a → Q a) :
    Ensures P (MonadExcept.ofExcept x : m ε α) Q := by
  cases x with
  | error e => exact Logic.throw e
  | ok a => exact Logic.pure (hx a rfl)

/-- What holds of the result of every member holds of all results. -/
protected theorem mapM {f : α → m ε β} {as : List α} (h : ∀ a ∈ as, Ensures P (f a) R) :
    Ensures P (as.mapM f) fun bs => ∀ b ∈ bs, R b := by
  induction as with
  | nil =>
    rw [List.mapM_nil]
    exact Logic.pure (by simp)
  | cons a as ih =>
    rw [List.mapM_cons]
    refine Logic.bind (h a (List.mem_cons_self ..)) fun b hb => ?_
    refine Logic.bind (ih fun a ha => h a (List.mem_cons_of_mem _ ha)) fun bs hbs => ?_
    exact Logic.pure (List.forall_mem_cons.mpr ⟨hb, hbs⟩)

end Logic

end Draws

end LoweringIR
