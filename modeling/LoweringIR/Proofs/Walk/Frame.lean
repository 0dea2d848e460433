import LoweringIR.Proofs.Walk.Step

/-!
# What a frame is left with

The machine takes results off its stack by number alone: a frame that is left gets as many of the
latest results as it has members. That they are the results of its own members, and not of a
neighbour's, is a property of the two stacks together, and it holds of every walk.

The invariant says how the machine came to stand where it stands. Whatever lies on the stack of
tasks above a frame are the last members of the item that the frame belongs to, and what lies on the
stack of results above those that were there when the item was entered are the values of the first
members. Below the frame is the machine as it was before the item was entered, for which the same
holds. So a machine with a frame on top has the values of all its members at hand.

## Main definitions

* `Walk.Within` — what is entered on the way
* `Walk.Coherent` — the invariant of the two stacks

## Main results

* `Walk.Coherent.step`, `Walk.Coherent.steps` — what one step preserves, and what a run does
* `Walk.Coherent.leave` — a frame is left with the values of its own members
-/

namespace LoweringIR.Walk

variable {ε α β γ : Type} {w : Walk (Except ε) ε α β γ} {a item : α} {b : β} {g : γ} {arity n : Nat}
  {tasks : List (Task α γ)} {results : List β} {s s' : State α β γ}

/-- An item is entered on the way if it is the one the walk begins with or a member of another one
that is. -/
inductive Within (w : Walk (Except ε) ε α β γ) (a : α) : α → Prop
  | root : Within w a a
  | member {item k : α} {g : γ} {ms : List α} (h : Within w a item)
      (enter : w.enter item = .ok (.branch g ms)) (hk : k ∈ ms) : Within w a k

/-- The two stacks of the machine belong together. -/
inductive Coherent (w : Walk (Except ε) ε α β γ) (a : α) : List (Task α γ) → List β → Prop
  /-- Nothing has been done. -/
  | start : Coherent w a [.enter a] []
  /-- Nothing is left to do. -/
  | done {b : β} (value : w.value a = .ok b) : Coherent w a [] [b]
  /-- An item was entered. The first of its members have their values, the last are to be entered.
  -/
  | frame {item : α} {g : γ} {before after : List α} {bs : List β} {tasks : List (Task α γ)}
      {results : List β} (below : Coherent w a (.enter item :: tasks) results)
      (enter : w.enter item = .ok (.branch g (before ++ after)))
      (values : before.mapM w.value = .ok bs) :
      Coherent w a (after.map .enter ++ .leave g (before ++ after).length :: tasks)
        (bs.reverse ++ results)

theorem mapM_concat {f : α → Except ε β} {as : List α} {bs : List β} (h : as.mapM f = .ok bs)
    (hb : f a = .ok b) : (as ++ [a]).mapM f = .ok (bs ++ [b]) := by
  rw [List.mapM_append, h]
  simp [hb, bind, Except.bind, pure, Except.pure]

theorem value_of_leaf (h : w.enter a = .ok (.leaf b)) : w.value a = .ok b := by
  rw [value_eq, h]

theorem value_of_branch {ms : List α} {bs : List β} (h : w.enter a = .ok (.branch g ms))
    (hms : ms.mapM w.value = .ok bs) : w.value a = w.leave g bs := by
  rw [value_eq, h]
  dsimp only
  rw [hms]

namespace Coherent

/-- What is about to be entered is entered on the way. -/
theorem within (h : Coherent w a (.enter item :: tasks) results) : Within w a item := by
  generalize hts : Task.enter item :: tasks = ts at h
  induction h generalizing item tasks with
  | start =>
    obtain ⟨rfl, -⟩ := by simpa using hts
    exact .root
  | done => cases hts
  | @frame owner g before after bs rest results below enter values ih =>
    cases after with
    | nil => cases hts
    | cons k after =>
      obtain ⟨rfl, -⟩ := by simpa using hts
      exact .member (ih rfl) enter (by simp)

/-- An item whose value is known is as good as entered and left. -/
theorem advance (h : Coherent w a (.enter item :: tasks) results) (hb : w.value item = .ok b) :
    Coherent w a tasks (b :: results) := by
  generalize hts : Task.enter item :: tasks = ts at h
  cases h with
  | start =>
    obtain ⟨rfl, rfl⟩ := by simpa using hts
    exact .done hb
  | done => cases hts
  | @frame owner g before after bs rest results below enter values =>
    cases after with
    | nil => cases hts
    | cons k after =>
      obtain ⟨rfl, rfl⟩ := by simpa using hts
      rw [← List.singleton_append, ← List.append_assoc] at enter
      have h := Coherent.frame below enter (mapM_concat values hb)
      simpa using h

/-- **A frame is left with the values of its own members**, all of them and in their order. -/
theorem leave (h : Coherent w a (.leave g arity :: tasks) results) :
    ∃ item ms bs, Within w a item ∧ w.enter item = .ok (.branch g ms) ∧ arity = ms.length ∧
      ms.mapM w.value = .ok bs ∧ (results.take arity).reverse = bs ∧
      Coherent w a (.enter item :: tasks) (results.drop arity) := by
  generalize hts : Task.leave g arity :: tasks = ts at h
  cases h with
  | start | done => cases hts
  | @frame item g before after bs rest results below enter values =>
    cases after with
    | cons k after => cases hts
    | nil =>
      obtain ⟨⟨rfl, rfl⟩, rfl⟩ := by simpa using hts
      have hlength := length_of_mapM values
      rw [List.append_nil] at enter
      refine ⟨item, before, bs, below.within, enter, rfl, values, ?_, ?_⟩
      · rw [List.take_left' (by simpa using hlength), List.reverse_reverse]
      · rwa [List.drop_left' (by simpa using hlength)]

/-- **What one step preserves.** -/
theorem step (h : Coherent w a s.tasks s.results) (hs : Step w s s') :
    Coherent w a s'.tasks s'.results := by
  cases hs with
  | leaf enter => exact h.advance (value_of_leaf enter)
  | @branch item g ms tasks results enter =>
    exact .frame h (show w.enter item = .ok (.branch g ([] ++ ms)) from enter) rfl
  | leave hleave =>
    obtain ⟨item, ms, bs, -, enter, -, values, hbs, hbelow⟩ := h.leave
    rw [hbs] at hleave
    exact hbelow.advance ((value_of_branch enter values).trans hleave)

/-- **What a run preserves.** -/
theorem steps (h : Coherent w a s.tasks s.results) (hs : Steps w n s s') :
    Coherent w a s'.tasks s'.results := by
  induction hs with
  | refl => exact h
  | head first _ ih => exact ih (h.step first)

end Coherent

end LoweringIR.Walk
