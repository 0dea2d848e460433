import LoweringIR.Proofs.Walk.Step

/-!
# What a run enters

A walk is meant to go through everything below the item it begins with, each item before its members
and the members from left to right. Whether it does is a question about a run as a whole, so here a
run is taken together with the items that it enters.

The stack of tasks tells in advance which they will be: read from the top, it lists the items that
are still to be entered, and below each of them is what will be entered before the next one has its
turn. A step takes the first item off this list or leaves the list alone. So what a run has entered
and what it will enter are together the same list at any time.

## Main definitions

* `Walk.Trace` — a run with the items that it enters
* `Walk.ListsBelow`, `Walk.due` — the items below an item, and those that are still to be entered

## Main results

* `Walk.Step.due_enter`, `Walk.Step.due_leave` — what one step does to the list
* `Walk.Trace.due_eq` — what a run preserves
* `Walk.trace_of_value` — an item that has a value is gone through, with everything below it
-/

namespace LoweringIR.Walk

variable {ε α β γ : Type} {w : Walk (Except ε) ε α β γ} {a : α} {g : γ} {arity n : Nat}
  {tasks : List (Task α γ)} {results : List β} {s s' s'' : State α β γ} {as as' : List α}
  {below : α → List α}

/-- A run of the machine, with the items that it enters, in order. -/
inductive Trace (w : Walk (Except ε) ε α β γ) : State α β γ → List α → State α β γ → Prop
  /-- Nothing is done. -/
  | refl {s : State α β γ} : Trace w s [] s
  /-- First an item is entered. -/
  | enter {a : α} {tasks : List (Task α γ)} {results : List β} {as : List α}
      {s s' : State α β γ} (first : Step w ⟨.enter a :: tasks, results⟩ s)
      (rest : Trace w s as s') : Trace w ⟨.enter a :: tasks, results⟩ (a :: as) s'
  /-- First a frame is left. -/
  | leave {g : γ} {arity : Nat} {tasks : List (Task α γ)} {results : List β} {as : List α}
      {s s' : State α β γ} (first : Step w ⟨.leave g arity :: tasks, results⟩ s)
      (rest : Trace w s as s') : Trace w ⟨.leave g arity :: tasks, results⟩ as s'

/-- Every run enters some items. -/
theorem Steps.exists_trace (h : Steps w n s s') : ∃ as, Trace w s as s' := by
  induction h with
  | refl => exact ⟨[], .refl⟩
  | @head n s t s' first rest ih =>
    obtain ⟨as, hrest⟩ := ih
    obtain ⟨tasks, results⟩ := s
    cases tasks with
    | nil => exact absurd first not_step_nil
    | cons task tasks =>
      cases task with
      | enter a => exact ⟨a :: as, .enter first hrest⟩
      | leave g arity => exact ⟨as, .leave first hrest⟩

/-- A run does not change what the machine runs to. -/
theorem Trace.run_eq (h : Trace w s as s') : w.run s = w.run s' := by
  induction h with
  | refl => rfl
  | enter first _ ih => rw [first.run_eq, ih]
  | leave first _ ih => rw [first.run_eq, ih]

/-- A run may go on where another one has got to. -/
theorem Trace.trans (h : Trace w s as s') (h' : Trace w s' as' s'') :
    Trace w s (as ++ as') s'' := by
  induction h with
  | refl => exact h'
  | enter first _ ih => exact .enter first (ih h')
  | leave first _ ih => exact .leave first (ih h')

/-- A list of all that is below an item: the item first, then what is below its members. -/
structure ListsBelow (w : Walk (Except ε) ε α β γ) (below : α → List α) : Prop where
  leaf : ∀ {a b}, w.enter a = .ok (.leaf b) → below a = [a]
  branch : ∀ {a g ms}, w.enter a = .ok (.branch g ms) → below a = a :: ms.flatMap below

/-- The items that are still to be entered, with those below them. -/
def due (below : α → List α) : List (Task α γ) → List α
  | [] => []
  | .enter a :: tasks => below a ++ due below tasks
  | .leave _ _ :: tasks => due below tasks

theorem due_map_enter (below : α → List α) (ms : List α) (tasks : List (Task α γ)) :
    due below (ms.map .enter ++ tasks) = ms.flatMap below ++ due below tasks := by
  induction ms with
  | nil => rfl
  | cons m ms ih =>
    rw [List.map_cons, List.cons_append, due, ih, List.flatMap_cons, List.append_assoc]

/-- **Entering an item** takes it off the list. -/
theorem Step.due_enter (hb : ListsBelow w below) (h : Step w ⟨.enter a :: tasks, results⟩ s) :
    due below (.enter a :: tasks) = a :: due below s.tasks := by
  cases h with
  | leaf h => rw [due, hb.leaf h, List.singleton_append]
  | branch h =>
    rw [State.branch, due_map_enter, due, due, hb.branch h, List.cons_append]

/-- **Leaving a frame** does not change the list. -/
theorem Step.due_leave (h : Step w ⟨.leave g arity :: tasks, results⟩ s) :
    due below (.leave g arity :: tasks) = due below s.tasks := by
  cases h
  rw [due]

/-- **What a run preserves.** The items that it has entered and those that are still to be entered
are those that were to be entered before it. -/
theorem Trace.due_eq (hb : ListsBelow w below) (h : Trace w s as s') :
    due below s.tasks = as ++ due below s'.tasks := by
  induction h with
  | refl => rfl
  | enter first rest ih => rw [first.due_enter hb, ih, List.cons_append]
  | leave first rest ih => rw [first.due_leave, ih]

/-- A run to the end enters all that is below the item that it begins with, and nothing else. -/
theorem Trace.eq_below (hb : ListsBelow w below) (h : Trace w (.start a) as s)
    (hs : s.tasks = []) : as = below a := by
  have hdue := h.due_eq hb
  rw [hs] at hdue
  simpa [State.start, due] using hdue.symm

/-! ### Items with a value -/

/-- Items that are gone through one by one are gone through one after the other. -/
theorem trace_map_enter {ms : List α} {bs : List β}
    (h : ∀ m ∈ ms, ∀ b, w.value m = .ok b → ∀ tasks results,
      Trace w ⟨.enter m :: tasks, results⟩ (below m) ⟨tasks, b :: results⟩)
    (hms : ms.mapM w.value = .ok bs) (tasks : List (Task α γ)) (results : List β) :
    Trace w ⟨ms.map .enter ++ tasks, results⟩ (ms.flatMap below) ⟨tasks, bs.reverse ++ results⟩ := by
  induction ms generalizing bs results with
  | nil =>
    obtain rfl := Except.ok.inj hms
    exact .refl
  | cons m ms ih =>
    rw [List.mapM_cons] at hms
    cases hm : w.value m with
    | error e => simp [hm, bind, Except.bind] at hms
    | ok b =>
      cases hs : ms.mapM w.value with
      | error e => simp [hm, hs, bind, Except.bind] at hms
      | ok cs =>
        obtain rfl : b :: cs = bs := by
          simpa [hm, hs, bind, Except.bind, pure, Except.pure] using hms
        have hrest := ih (fun k hk => h k (List.mem_cons_of_mem _ hk)) hs (b :: results)
        simpa using (h m (List.mem_cons_self ..) b hm _ results).trans hrest

/-- **An item that has a value** is gone through, with everything below it, and leaves its value. -/
theorem trace_of_value (hb : ListsBelow w below) {b : β} (h : w.value a = .ok b)
    (tasks : List (Task α γ)) (results : List β) :
    Trace w ⟨.enter a :: tasks, results⟩ (below a) ⟨tasks, b :: results⟩ := by
  induction hn : w.weight a using Nat.strongRecOn generalizing a b tasks results with
  | _ n ih =>
    subst hn
    rw [value_eq] at h
    cases he : w.enter a with
    | error e => simp [he] at h
    | ok x =>
      rw [he] at h
      cases x with
      | leaf c =>
        obtain rfl := Except.ok.inj h
        rw [hb.leaf he]
        exact .enter (.leaf he) .refl
      | branch g ms =>
        cases hms : ms.mapM w.value with
        | error e => simp [hms] at h
        | ok bs =>
          simp only [hms] at h
          have hlength : bs.reverse.length = ms.length := by
            rw [List.length_reverse, length_of_mapM hms]
          have hmembers := trace_map_enter (fun m hm c hc tasks results =>
            ih _ (w.weight_lt_of_mem he hm) hc tasks results rfl) hms
            (.leave g ms.length :: tasks) results
          have hleave : Step w ⟨.leave g ms.length :: tasks, bs.reverse ++ results⟩
              ⟨tasks, b :: (bs.reverse ++ results).drop ms.length⟩ := by
            refine .leave ?_
            rwa [List.take_left' hlength, List.reverse_reverse]
          rw [List.drop_left' hlength] at hleave
          rw [hb.branch he]
          refine .enter (.branch he) ?_
          simpa [State.branch] using hmembers.trans (.leave hleave .refl)

end LoweringIR.Walk
