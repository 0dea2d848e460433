import LoweringIR.Instances

/-!
# Walks with an explicit stack

Trees nest deeper than a call stack should, so they are taken apart and put together by a machine.
Its stack holds two kinds of task: an item still to be entered, and a frame still to be left once
the results of its members are there. Entering an item either finishes it at once or replaces it by
its members, above the frame that will put their results together; leaving a frame takes those
results off and puts one back. Only leaving a frame may have effects besides failure.

The members are taken in order and each may fail, so a walk has a first failure. `Walk.value` is the
same computation by recursion: enter, take the members from left to right, leave. That the machine
computes it, failures included, is `Walk.run_start`.

## Termination

An item has a weight, and entering it yields members that together weigh less. An item on the stack
counts for twice its weight and a frame for one, so a step that does not shrink the stack makes it
lighter. The weights exist only for this argument; running the machine never computes them.
-/

namespace LoweringIR

/-- What an item turns out to be when it is entered. -/
inductive Walk.Entered (α β γ : Type) where
  /-- It is finished. -/
  | leaf (result : β)
  /-- Its members come first; `frame` says how their results are put together. -/
  | branch (frame : γ) (members : List α)

/-- How a walk treats items of type `α`, with results in `β`, frames in `γ` and failures in `ε`.
What leaving a frame does besides is up to the monad `m`. -/
structure Walk (m : Type → Type) (ε α β γ : Type) where
  enter : α → Except ε (Walk.Entered α β γ)
  leave : γ → List β → m β
  weight : α → Nat
  weight_members : ∀ {a : α} {g : γ} {ms : List α},
    enter a = .ok (.branch g ms) → (ms.map weight).sum < weight a

namespace Walk

variable {m : Type → Type} {ε α β γ : Type}

/-! ### The machine -/

/-- What is left to do: an item to enter, or a frame to leave with results of `arity` members. -/
inductive Task (α γ : Type) where
  | enter (item : α)
  | leave (frame : γ) (arity : Nat)

/-- The machine between two steps. The results so far are kept with the latest one first. -/
structure State (α β γ : Type) where
  tasks : List (Task α γ)
  results : List β

namespace State

/-- The machine before its first step. -/
def start (a : α) : State α β γ := ⟨[.enter a], []⟩

/-- An item is replaced by its members, above the frame that will put their results together. -/
def branch (frame : γ) (members : List α) (rest : List (Task α γ)) (results : List β) :
    State α β γ :=
  ⟨members.map .enter ++ .leave frame members.length :: rest, results⟩

end State

/-! ### Termination -/

/-- The weight of a task. -/
def taskWeight (w : Walk m ε α β γ) : Task α γ → Nat
  | .enter a => 2 * w.weight a
  | .leave _ _ => 1

/-- The weight of a stack. -/
def stackWeight (w : Walk m ε α β γ) (tasks : List (Task α γ)) : Nat :=
  (tasks.map w.taskWeight).sum

@[simp] theorem stackWeight_nil (w : Walk m ε α β γ) : w.stackWeight [] = 0 := rfl

@[simp] theorem stackWeight_cons (w : Walk m ε α β γ) (t : Task α γ) (ts : List (Task α γ)) :
    w.stackWeight (t :: ts) = w.taskWeight t + w.stackWeight ts := by
  simp [stackWeight]

@[simp] theorem stackWeight_append (w : Walk m ε α β γ) (ts us : List (Task α γ)) :
    w.stackWeight (ts ++ us) = w.stackWeight ts + w.stackWeight us := by
  simp [stackWeight]

@[simp] theorem stackWeight_map_enter (w : Walk m ε α β γ) (ms : List α) :
    w.stackWeight (ms.map .enter) = 2 * (ms.map w.weight).sum := by
  induction ms with
  | nil => rfl
  | cons k ms ih => simp [ih, taskWeight, Nat.mul_add]

/-- Replacing an item by its members makes the stack lighter. -/
theorem stackWeight_branch_lt (w : Walk m ε α β γ) {a : α} {g : γ} {ms : List α}
    (h : w.enter a = .ok (.branch g ms)) (rest : List (Task α γ)) (results : List β) :
    w.stackWeight (State.branch g ms rest results).tasks < w.stackWeight (.enter a :: rest) := by
  have := w.weight_members h
  simp only [State.branch, stackWeight_append, stackWeight_map_enter, stackWeight_cons, taskWeight]
  omega

/-- Runs the machine until its stack is empty. -/
@[specialize] def run [Monad m] [MonadExceptOf ε m] (w : Walk m ε α β γ) (s : State α β γ) :
    m (List β) :=
  match _ht : s.tasks with
  | [] => pure s.results
  | .enter a :: rest =>
    match _he : w.enter a with
    | .error e => throw e
    | .ok (.leaf b) => run w ⟨rest, b :: s.results⟩
    | .ok (.branch g ms) => run w (.branch g ms rest s.results)
  | .leave g n :: rest => do
    let b ← w.leave g (s.results.take n).reverse
    run w ⟨rest, b :: s.results.drop n⟩
termination_by (w.stackWeight s.tasks, s.tasks.length)
decreasing_by
  · rw [_ht, List.length_cons, stackWeight_cons]
    simp only [Prod.lex_def]
    omega
  · rw [_ht]
    exact Prod.Lex.left _ _ (w.stackWeight_branch_lt _he _ _)
  · rw [_ht, List.length_cons, stackWeight_cons]
    simp only [Prod.lex_def]
    omega

/-- The result of a walk from an item. -/
@[specialize] def result [Monad m] [MonadExceptOf ε m] [Inhabited β] (w : Walk m ε α β γ) (a : α) :
    m β := do
  let results ← w.run (.start a)
  pure (results.headD default)

/-! ### The same computation by recursion -/

theorem weight_le_sum (w : Walk m ε α β γ) {k : α} {ms : List α} (hk : k ∈ ms) :
    w.weight k ≤ (ms.map w.weight).sum := by
  induction ms with
  | nil => cases hk
  | cons l ms ih =>
    rw [List.map_cons, List.sum_cons]
    rcases List.mem_cons.mp hk with rfl | hk
    · exact Nat.le_add_right _ _
    · exact Nat.le_trans (ih hk) (Nat.le_add_left _ _)

theorem weight_lt_of_mem (w : Walk m ε α β γ) {a k : α} {g : γ} {ms : List α}
    (h : w.enter a = .ok (.branch g ms)) (hk : k ∈ ms) : w.weight k < w.weight a :=
  Nat.lt_of_le_of_lt (w.weight_le_sum hk) (w.weight_members h)

/-- Enters an item, takes its members from left to right, and leaves it. -/
def value (w : Walk (Except ε) ε α β γ) (a : α) : Except ε β :=
  match _h : w.enter a with
  | .error e => .error e
  | .ok (.leaf b) => .ok b
  | .ok (.branch g ms) =>
    match ms.attach.mapM fun k => value w k.1 with
    | .error e => .error e
    | .ok results => w.leave g results
termination_by w.weight a
decreasing_by exact w.weight_lt_of_mem _h k.2

theorem value_eq (w : Walk (Except ε) ε α β γ) (a : α) :
    w.value a =
      match w.enter a with
      | .error e => .error e
      | .ok (.leaf b) => .ok b
      | .ok (.branch g ms) =>
        match ms.mapM w.value with
        | .error e => .error e
        | .ok results => w.leave g results := by
  rw [value]
  split
  · next h => rw [h]
  · next h => rw [h]
  · next g ms h =>
    rw [h, List.mapM_subtype (g := w.value) (fun _ _ => rfl), List.unattach_attach]

/-! ### The machine computes the recursion -/

theorem run_nil (w : Walk (Except ε) ε α β γ) (results : List β) :
    w.run ⟨[], results⟩ = .ok results := by
  rw [run]
  rfl

theorem run_cons_enter (w : Walk (Except ε) ε α β γ) (a : α) (rest : List (Task α γ))
    (results : List β) :
    w.run ⟨.enter a :: rest, results⟩ =
      match w.enter a with
      | .error e => .error e
      | .ok (.leaf b) => w.run ⟨rest, b :: results⟩
      | .ok (.branch g ms) => w.run (.branch g ms rest results) := by
  rw [run]
  dsimp only
  split
  · next h => rw [h]; rfl
  · next h => rw [h]
  · next h => rw [h]

theorem run_cons_leave (w : Walk (Except ε) ε α β γ) (g : γ) (n : Nat) (rest : List (Task α γ))
    (results : List β) :
    w.run ⟨.leave g n :: rest, results⟩ =
      match w.leave g (results.take n).reverse with
      | .error e => .error e
      | .ok b => w.run ⟨rest, b :: results.drop n⟩ := by
  rw [run]
  dsimp only [bind, Except.bind]
  cases w.leave g (results.take n).reverse <;> rfl

/-- Entering items one after the other takes their values from left to right. -/
private theorem run_enters (w : Walk (Except ε) ε α β γ) {ms : List α}
    (ih : ∀ k ∈ ms, ∀ (rest : List (Task α γ)) (results : List β),
      w.run ⟨.enter k :: rest, results⟩ =
        match w.value k with
        | .error e => .error e
        | .ok b => w.run ⟨rest, b :: results⟩)
    (rest : List (Task α γ)) (results : List β) :
    w.run ⟨ms.map .enter ++ rest, results⟩ =
      match ms.mapM w.value with
      | .error e => .error e
      | .ok bs => w.run ⟨rest, bs.reverse ++ results⟩ := by
  induction ms generalizing results with
  | nil => rfl
  | cons k ms ihm =>
    rw [List.map_cons, List.cons_append, ih k (List.mem_cons_self ..), List.mapM_cons]
    cases w.value k with
    | error e => rfl
    | ok b =>
      simp only [bind, Except.bind]
      rw [ihm fun k hk => ih k (List.mem_cons_of_mem _ hk)]
      cases ms.mapM w.value with
      | error e => rfl
      | ok bs => simp [pure, Except.pure]

theorem length_of_mapM {f : α → Except ε β} {ms : List α} {bs : List β}
    (h : ms.mapM f = .ok bs) : bs.length = ms.length := by
  induction ms generalizing bs with
  | nil => cases h; rfl
  | cons k ms ih =>
    rw [List.mapM_cons] at h
    cases hk : f k with
    | error e => simp [hk, bind, Except.bind] at h
    | ok b =>
      cases hs : ms.mapM f with
      | error e => simp [hk, hs, bind, Except.bind] at h
      | ok cs =>
        simp only [hk, hs, bind, Except.bind, pure, Except.pure, Except.ok.injEq] at h
        rw [← h, List.length_cons, ih hs, List.length_cons]

/-- Entering an item pushes its value. -/
theorem run_enter (w : Walk (Except ε) ε α β γ) (a : α) (rest : List (Task α γ))
    (results : List β) :
    w.run ⟨.enter a :: rest, results⟩ =
      match w.value a with
      | .error e => .error e
      | .ok b => w.run ⟨rest, b :: results⟩ := by
  induction hn : w.weight a using Nat.strongRecOn generalizing a rest results with
  | _ n ih =>
    subst hn
    rw [run_cons_enter, value_eq]
    cases he : w.enter a with
    | error e => rfl
    | ok x =>
      cases x with
      | leaf b => rfl
      | branch g ms =>
        dsimp only [State.branch]
        rw [w.run_enters fun k hk rest results =>
          ih _ (w.weight_lt_of_mem he hk) k rest results rfl]
        cases hv : ms.mapM w.value with
        | error e => rfl
        | ok bs =>
          dsimp only
          rw [run_cons_leave, ← length_of_mapM hv]
          simp only [← @List.length_reverse _ bs, List.take_left, List.reverse_reverse,
            List.drop_left]

/-- **The machine computes the recursion**, failures included. -/
theorem run_start (w : Walk (Except ε) ε α β γ) (a : α) :
    w.run (.start a) = (w.value a).map fun b => [b] := by
  rw [State.start, run_enter]
  cases w.value a with
  | error e => rfl
  | ok b => exact w.run_nil [b]

theorem result_eq_value [Inhabited β] (w : Walk (Except ε) ε α β γ) (a : α) :
    w.result a = w.value a := by
  rw [result, run_start]
  cases w.value a <;> rfl

end Walk

end LoweringIR
