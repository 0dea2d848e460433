import LoweringIR.Walk

/-!
# The machine step by step

`Walk.run` runs the machine to its end. Here is one step of it, in which exactly one task is taken
off the stack, so that what happens on the way and how long it takes can be spoken of. Running is
nothing but taking steps: a step does not change what the machine runs to, no state has two
successors, and with nothing left to do the machine stops.

## Main definitions

* `Walk.Step`, `Walk.Steps` — one step, and a number of steps

## Main results

* `Walk.Step.run_eq`, `Walk.Step.unique`, `Walk.not_step_nil`
-/

namespace LoweringIR.Walk

variable {ε α β γ : Type} {w : Walk (Except ε) ε α β γ} {s s' s'' : State α β γ} {n : Nat}

/-- One step of the machine: the task on top of the stack is taken off and done. -/
inductive Step (w : Walk (Except ε) ε α β γ) : State α β γ → State α β γ → Prop
  /-- An item that is finished at once leaves its result. -/
  | leaf {a : α} {b : β} {tasks : List (Task α γ)} {results : List β}
      (h : w.enter a = .ok (.leaf b)) : Step w ⟨.enter a :: tasks, results⟩ ⟨tasks, b :: results⟩
  /-- Any other item is replaced by its members. -/
  | branch {a : α} {g : γ} {ms : List α} {tasks : List (Task α γ)} {results : List β}
      (h : w.enter a = .ok (.branch g ms)) :
      Step w ⟨.enter a :: tasks, results⟩ (.branch g ms tasks results)
  /-- A frame puts the latest results together. -/
  | leave {g : γ} {arity : Nat} {b : β} {tasks : List (Task α γ)} {results : List β}
      (h : w.leave g (results.take arity).reverse = .ok b) :
      Step w ⟨.leave g arity :: tasks, results⟩ ⟨tasks, b :: results.drop arity⟩

/-- So many steps of the machine. -/
inductive Steps (w : Walk (Except ε) ε α β γ) : Nat → State α β γ → State α β γ → Prop
  | refl {s : State α β γ} : Steps w 0 s s
  | head {n : Nat} {s s' s'' : State α β γ} (first : Step w s s') (rest : Steps w n s' s'') :
      Steps w (n + 1) s s''

/-- A step does not change what the machine runs to. -/
theorem Step.run_eq (h : Step w s s') : w.run s = w.run s' := by
  cases h with
  | leaf h => rw [run_cons_enter, h]
  | branch h => rw [run_cons_enter, h]
  | leave h => rw [run_cons_leave, h]

/-- The machine does not choose. -/
theorem Step.unique (h : Step w s s') (h' : Step w s s'') : s' = s'' := by
  cases h with
  | leaf h =>
    cases h' with
    | leaf h' => rw [h] at h'; cases h'; rfl
    | branch h' => rw [h] at h'; cases h'
  | branch h =>
    cases h' with
    | leaf h' => rw [h] at h'; cases h'
    | branch h' => rw [h] at h'; cases h'; rfl
  | leave h =>
    cases h' with
    | leave h' => rw [h] at h'; cases h'; rfl

/-- With nothing left to do the machine stops. -/
theorem not_step_nil {results : List β} : ¬ Step w ⟨[], results⟩ s := nofun

theorem Steps.run_eq (h : Steps w n s s') : w.run s = w.run s' := by
  induction h with
  | refl => rfl
  | head first _ ih => rw [first.run_eq, ih]

end LoweringIR.Walk
