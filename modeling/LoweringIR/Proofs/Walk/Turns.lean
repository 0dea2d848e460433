import LoweringIR.Proofs.Outcome
import LoweringIR.Proofs.Walk.Frame

/-!
# How long a walk takes

An item that is finished at once takes one step. Any other takes two, one to put its members on the
stack and one to put their results together, and in between the steps of its members. So the length
of a walk can be told from the item that it begins with, if the item has a value, and it does not
depend on what lies below the item on either stack.

The machine has no choice. So wherever it stands on the way, it gets to the same end, and it has
exactly those steps left that it has not taken yet.

## Main definitions

* `Walk.turns` — the number of steps that an item takes

## Main results

* `Walk.steps_of_value` — an item with a value is gone through in so many steps
* `Walk.Steps.rest`, `Walk.Steps.count` — where a run stands on its way to the end
-/

namespace LoweringIR.Walk

variable {ε α β γ : Type} {w : Walk (Except ε) ε α β γ} {a : α} {b : β} {g : γ} {ms : List α}
  {m n : Nat} {results : List β} {s s' s'' : State α β γ}

/-- The number of steps that an item takes, with everything below it. -/
def turns (w : Walk (Except ε) ε α β γ) (a : α) : Nat :=
  match _h : w.enter a with
  | .ok (.branch _ ms) => 2 + (ms.attach.map fun k => turns w k.1).sum
  | _ => 1
termination_by w.weight a
decreasing_by exact w.weight_lt_of_mem _h k.2

theorem turns_of_leaf (h : w.enter a = .ok (.leaf b)) : w.turns a = 1 := by
  rw [turns]
  split
  · next h' => rw [h] at h'; cases h'
  · rfl

theorem turns_of_branch (h : w.enter a = .ok (.branch g ms)) :
    w.turns a = 2 + (ms.map w.turns).sum := by
  rw [turns]
  split
  · next h' =>
    rw [h] at h'
    cases h'
    rw [List.attach_map_val]
  · next hne => exact absurd h (hne g ms)

/-- A run may go on where another one has got to. -/
theorem Steps.trans (h : Steps w m s s') (h' : Steps w n s' s'') : Steps w (m + n) s s'' := by
  induction h with
  | refl => rwa [Nat.zero_add]
  | @head m s t s' first rest ih =>
    rw [Nat.add_right_comm]
    exact .head first (ih h')

theorem Step.steps (h : Step w s s') : Steps w 1 s s' := .head h .refl

/-! ### Items with a value -/

/-- Items that are gone through one by one are gone through one after the other. -/
theorem steps_map_enter {bs : List β}
    (h : ∀ k ∈ ms, ∀ b, w.value k = .ok b → ∀ tasks results,
      Steps w (w.turns k) ⟨.enter k :: tasks, results⟩ ⟨tasks, b :: results⟩)
    (hms : ms.mapM w.value = .ok bs) (tasks : List (Task α γ)) (results : List β) :
    Steps w (ms.map w.turns).sum ⟨ms.map .enter ++ tasks, results⟩
      ⟨tasks, bs.reverse ++ results⟩ := by
  induction ms generalizing bs results with
  | nil =>
    obtain rfl := Except.ok.inj hms
    exact .refl
  | cons k ms ih =>
    rw [List.mapM_cons] at hms
    obtain ⟨b, hb, hms⟩ := bind_eq_ok_iff.mp hms
    obtain ⟨cs, hcs, hms⟩ := bind_eq_ok_iff.mp hms
    obtain rfl : b :: cs = bs := Except.ok.inj hms
    have hfirst := h k (List.mem_cons_self ..) b hb (ms.map .enter ++ tasks) results
    have hrest := ih (fun l hl => h l (List.mem_cons_of_mem _ hl)) hcs (b :: results)
    simpa using hfirst.trans hrest

/-- **An item with a value** is gone through in as many steps as it takes, and leaves its value on
top of what was there. -/
theorem steps_of_value (h : w.value a = .ok b) (tasks : List (Task α γ)) (results : List β) :
    Steps w (w.turns a) ⟨.enter a :: tasks, results⟩ ⟨tasks, b :: results⟩ := by
  induction hn : w.weight a using Nat.strongRecOn generalizing a b tasks results with
  | _ n ih =>
    subst hn
    cases he : w.enter a with
    | error e => rw [value_eq, he] at h; cases h
    | ok x =>
      cases x with
      | leaf c =>
        obtain rfl := Except.ok.inj ((value_of_leaf he).symm.trans h)
        rw [turns_of_leaf he]
        exact (Step.leaf he).steps
      | branch g ms =>
        rw [value_eq, he] at h
        dsimp only at h
        split at h
        · cases h
        · next bs hbs =>
          have hlength : bs.reverse.length = ms.length := by
            rw [List.length_reverse, length_of_mapM hbs]
          have hmembers := steps_map_enter (fun k hk c hc tasks results =>
            ih _ (w.weight_lt_of_mem he hk) hc tasks results rfl) hbs
            (.leave g ms.length :: tasks) results
          have hleave : Step w ⟨.leave g ms.length :: tasks, bs.reverse ++ results⟩
              ⟨tasks, b :: (bs.reverse ++ results).drop ms.length⟩ := by
            refine .leave ?_
            rwa [List.take_left' hlength, List.reverse_reverse]
          rw [List.drop_left' hlength] at hleave
          rw [turns_of_branch he, show 2 + (ms.map w.turns).sum = (ms.map w.turns).sum + 1 + 1 by
            omega]
          exact .head (.branch he) (hmembers.trans hleave.steps)

/-! ### On the way -/

/-- **Wherever a run stands**, it has those steps to its end left that it has not taken. -/
theorem Steps.rest (hs : Steps w m s s') (hend : Steps w n s ⟨[], results⟩) :
    ∃ k, m + k = n ∧ Steps w k s' ⟨[], results⟩ := by
  induction hs generalizing n with
  | refl => exact ⟨n, Nat.zero_add n, hend⟩
  | @head m s t s' first rest ih =>
    cases hend with
    | refl => exact absurd first not_step_nil
    | @head n _ t' _ first' rest' =>
      obtain rfl := first.unique first'
      obtain ⟨k, hk, hend⟩ := ih rest'
      exact ⟨k, by omega, hend⟩

/-- A run to the end has one length, and no run is longer. -/
theorem Steps.count (hs : Steps w m s s') (hend : Steps w n s ⟨[], results⟩) :
    m ≤ n ∧ (s'.tasks = [] ↔ m = n) := by
  obtain ⟨k, hk, hrest⟩ := hs.rest hend
  refine ⟨by omega, fun hnil => ?_, fun hm => ?_⟩
  · cases hrest with
    | refl => omega
    | @head k _ t _ first rest =>
      obtain ⟨tasks, results'⟩ := s'
      obtain rfl : tasks = [] := hnil
      exact absurd first not_step_nil
  · obtain rfl : k = 0 := by omega
    cases hrest
    rfl

end LoweringIR.Walk
