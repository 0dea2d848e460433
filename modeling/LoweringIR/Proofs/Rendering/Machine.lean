import LoweringIR.Proofs.Rendering.Text
import LoweringIR.Proofs.Walk.Trace
import LoweringIR.Tree.Preorder

/-!
# Rendering step by step

The machine that renders a tree has two stacks: what is still to be done, and the texts of what has
been. A node is taken up twice, first to put its children above itself and then to turn their texts
into its own, and the second time it relies on the texts it needs lying on top, as many as it has
children and in their order.

That they do is the invariant `Ready`. It reads the stack of tasks from the top as a plan: a tree
that is still to be entered will have left its text when it is gone, so the tasks below it may count
on that text, and a node that is to be left has to find what it counts on. The invariant fixes the
number of steps as well: a tree takes two for every node in it.

## Main definitions

* `Tree.occurrences` — the number of nodes that rendering meets
* `Tree.Ready` — the invariant of the two stacks

## Main results

* `Tree.Ready.step` — what one step preserves
* `Tree.Ready.steps` — what a run preserves
* `Tree.render_eq_recursion` — the machine computes the recursion in two steps a node
* `Tree.trace_preorder` — the machine enters the nodes in pre-order
-/

namespace LoweringIR.Tree

open Walk (Task State Step Steps)

variable {a : Arrangement} {t u : Tree} {goal results : List String} {s s' : State Tree String Tree}
  {task : Task Tree Tree} {tasks : List (Task Tree Tree)}

theorem size_lt_of_mem_children (h : u ∈ t.children) : u.size < t.size :=
  (renderWalk .sorted).weight_lt_of_mem (a := t) rfl h

/-- The number of nodes in a tree that are met when one goes from children to children, every
occurrence counted. -/
def occurrences (t : Tree) : Nat :=
  1 + (t.children.attach.map fun u => occurrences u.1).sum
termination_by t.size
decreasing_by exact size_lt_of_mem_children u.2

theorem occurrences_eq (t : Tree) :
    t.occurrences = 1 + (t.children.map occurrences).sum := by
  rw [occurrences, List.attach_map_val]

/-! ### The invariant -/

/-- The texts on one stack are those that the tasks on the other count on, and carrying the tasks
out will leave `goal`. -/
def Ready (a : Arrangement) (goal : List String) : List (Task Tree Tree) → List String → Prop
  | [], results => results = goal
  | .enter t :: tasks, results =>
    t.WellFormed ∧ t.Whole ∧ Ready a goal tasks (t.text a :: results)
  | .leave t arity :: tasks, results =>
    (results.take arity).reverse = t.children.map (text a) ∧ arity = t.children.length ∧
      t.format a (t.children.map (text a)) = .ok (t.text a) ∧
      Ready a goal tasks (t.text a :: results.drop arity)

/-- The number of steps that a task takes, with everything it puts on the stack. -/
def turns : Task Tree Tree → Nat
  | .enter t => 2 * t.occurrences
  | .leave _ _ => 1

/-- The number of steps that are left. -/
def remaining (tasks : List (Task Tree Tree)) : Nat := (tasks.map turns).sum

theorem ready_map_enter {ts : List Tree} (hts : ∀ t ∈ ts, t.WellFormed ∧ t.Whole)
    (h : Ready a goal tasks ((ts.map (text a)).reverse ++ results)) :
    Ready a goal (ts.map .enter ++ tasks) results := by
  induction ts generalizing results with
  | nil => exact h
  | cons t ts ih =>
    obtain ⟨hw, hc⟩ := hts t (List.mem_cons_self ..)
    refine ⟨hw, hc, ih (fun u hu => hts u (List.mem_cons_of_mem _ hu)) ?_⟩
    simpa using h

theorem remaining_branch (t : Tree) (tasks : List (Task Tree Tree)) (results : List String) :
    remaining (State.branch t t.children tasks results).tasks + 1 =
      remaining (.enter t :: tasks) := by
  have henter : ∀ ts : List Tree,
      ((ts.map .enter).map turns).sum = 2 * (ts.map occurrences).sum := by
    intro ts
    induction ts with
    | nil => rfl
    | cons t ts ih =>
      simp only [List.map_cons, List.sum_cons, ih, turns]
      omega
  simp only [remaining, State.branch, List.map_append, List.map_cons, List.sum_append_nat,
    List.sum_cons, henter, turns, occurrences_eq t]
  omega

/-- **What one step preserves.** While something is left to do, the next step can be taken, it keeps
the invariant, and it is one step less. -/
theorem Ready.step (h : Ready a goal (task :: tasks) results) :
    ∃ s', Step (renderWalk a) ⟨task :: tasks, results⟩ s' ∧ Ready a goal s'.tasks s'.results ∧
      remaining s'.tasks + 1 = remaining (task :: tasks) := by
  cases task with
  | enter t =>
    obtain ⟨hw, hc, hrest⟩ := h
    refine ⟨_, .branch rfl, ready_map_enter (fun u hu => ?_) ?_, remaining_branch t tasks results⟩
    · exact ⟨hw.of_mem_children hu, hc.of_mem_children hu⟩
    · refine ⟨?_, rfl, format_eq_text hw hc, ?_⟩
      · rw [List.take_left' (by simp), List.reverse_reverse]
      · rwa [List.drop_left' (by simp)]
  | leave t arity =>
    obtain ⟨htexts, -, hformat, hrest⟩ := h
    refine ⟨_, .leave (b := t.text a) ?_, hrest, ?_⟩
    · rw [htexts]
      exact hformat
    · simp [remaining, turns, Nat.add_comm]

/-- **What a run preserves**, for any number of steps. -/
theorem Ready.steps {n : Nat} (hs : Steps (renderWalk a) n s s')
    (h : Ready a goal s.tasks s.results) :
    Ready a goal s'.tasks s'.results ∧ remaining s'.tasks + n = remaining s.tasks := by
  induction hs with
  | refl => exact ⟨h, rfl⟩
  | @head n s t s' first rest ih =>
    obtain ⟨tasks, results⟩ := s
    cases tasks with
    | nil => exact absurd first Walk.not_step_nil
    | cons task tasks =>
      obtain ⟨t', ht', hready, hcount⟩ := Ready.step h
      obtain rfl := first.unique ht'
      obtain ⟨hgoal, hleft⟩ := ih hready
      exact ⟨hgoal, by dsimp only; omega⟩

/-- A run that is ready gets to its goal in as many steps as are left. -/
theorem Ready.reaches (h : Ready a goal tasks results) :
    Steps (renderWalk a) (remaining tasks) ⟨tasks, results⟩ ⟨[], goal⟩ := by
  induction hn : remaining tasks generalizing tasks results with
  | zero =>
    cases tasks with
    | nil =>
      obtain rfl : results = goal := h
      exact .refl
    | cons task tasks =>
      obtain ⟨s', -, -, hcount⟩ := h.step
      omega
  | succ n ih =>
    cases tasks with
    | nil => simp [remaining] at hn
    | cons task tasks =>
      obtain ⟨⟨tasks', results'⟩, hstep, hready, hcount⟩ := h.step
      exact .head hstep (ih hready (by dsimp only at hcount; omega))

/-! ### The machine computes the recursion -/

/-- What a node finds when it is left: the texts of its children in order, as many as it has
children, which put every text beside the child it comes from and make the text of the node. -/
structure Served (a : Arrangement) (t : Tree) (arity : Nat) (results : List String) : Prop where
  arity_eq : arity = t.children.length
  arity_le : arity ≤ results.length
  texts : (results.take arity).reverse = t.children.map (text a)
  format : t.format a (results.take arity).reverse = .ok (t.text a)
  /-- A quotation apart, all members of a node are its children. -/
  beside : ∀ k fs, t = node k fs → k ≠ .scheme .quote →
    Field.accompanyAll (fs.map (Field.map role)) (results.take arity).reverse =
      fs.map (Field.map fun u => (u.role, u.text a))

theorem Ready.served {arity : Nat} (h : Ready a goal (.leave t arity :: tasks) results) :
    Served a t arity results := by
  obtain ⟨htexts, harity, hformat, -⟩ := h
  have hlength := congrArg List.length htexts
  simp only [List.length_reverse, List.length_take, List.length_map] at hlength
  refine ⟨harity, by omega, htexts, by rw [htexts, hformat], ?_⟩
  rintro k fs rfl hk
  rw [htexts, accompanyAll_text hk]
  exact List.map_congr_left fun x _ => Field.map_congr fun u _ => part_eq a u

/-- **The machine computes the recursion.** The text of a tree is what its node makes of the texts
of its children; rendering gives that text, and the machine has it, with nothing else on the two
stacks, after exactly two steps for every node. It does not stop before, and whenever it leaves a
node, the node is served. -/
theorem render_eq_recursion (a : Arrangement) (hw : t.WellFormed) (hc : t.Whole) :
    (∀ u : Tree, u.WellFormed → u.Whole →
      u.format a (u.children.map (text a)) = .ok (u.text a)) ∧
    t.render a = .ok (t.text a) ∧
    Steps (renderWalk a) (2 * t.occurrences) (.start t) ⟨[], [t.text a]⟩ ∧
    ∀ n s, Steps (renderWalk a) n (.start t) s →
      (renderWalk a).run s = .ok [t.text a] ∧
      (s.tasks = [] ↔ n = 2 * t.occurrences) ∧
      ∀ u arity tasks, s.tasks = .leave u arity :: tasks → Served a u arity s.results := by
  have hstart : Ready a [t.text a] (State.start t : State Tree String Tree).tasks
      (State.start t : State Tree String Tree).results := ⟨hw, hc, rfl⟩
  have hturns : remaining (State.start t : State Tree String Tree).tasks = 2 * t.occurrences :=
    rfl
  have hreach : Steps (renderWalk a) (2 * t.occurrences) (.start t) ⟨[], [t.text a]⟩ :=
    hturns ▸ hstart.reaches
  refine ⟨fun u => format_eq_text, render_eq_text hw hc, hreach, fun n s hs => ?_⟩
  obtain ⟨hready, hcount⟩ := hstart.steps hs
  refine ⟨?_, ?_, ?_⟩
  · rw [← hs.run_eq, hreach.run_eq, Walk.run_nil]
  · rw [hturns] at hcount
    cases htasks : s.tasks with
    | nil =>
      rw [htasks] at hcount
      simpa [remaining] using hcount
    | cons task tasks =>
      rw [htasks] at hready hcount
      obtain ⟨s', -, -, hless⟩ := hready.step
      simp only [reduceCtorEq, false_iff]
      omega
  · rintro u arity tasks htasks
    rw [htasks] at hready
    exact hready.served

/-- A binding with a quoted truth value as its value. -/
def letQuoted : Tree :=
  .node (.scheme .letIn)
    [.bindings [("x", .node (.scheme .quote) [.node (.node (.common .scheme .bool) [.flag true])])],
      .node (.node (.common .scheme .block)
        [.nodes [.node (.common .scheme .symbol) [.name "x"], .node (.common .scheme .nop) []]])]

/-- Five nodes are met in the binding, the quoted truth value not among them. -/
theorem render_letQuoted :
    letQuoted.render .sorted = .ok "(let ([x '#t])\n (begin \n  x\n  (nop)))" ∧
      Steps (renderWalk .sorted) 10 (.start letQuoted)
        ⟨[], ["(let ([x '#t])\n (begin \n  x\n  (nop)))"]⟩ := by
  have htext : letQuoted.text .sorted = "(let ([x '#t])\n (begin \n  x\n  (nop)))" := by
    decide +kernel
  have hcount : 2 * letQuoted.occurrences = 10 := by decide +kernel
  obtain ⟨-, hrender, hsteps, -⟩ :=
    render_eq_recursion .sorted (t := letQuoted) (by decide) (by decide)
  rw [htext] at hrender hsteps
  rw [hcount] at hsteps
  exact ⟨hrender, hsteps⟩

/-! ### The order of rendering -/

/-- Below a node are its children, and what is below them. -/
theorem listsBelow_preorder (a : Arrangement) : Walk.ListsBelow (renderWalk a) preorder where
  leaf h := by cases h
  branch h := by
    cases h
    exact preorder_eq _

/-- Rendering gets to the end of a tree that has a text, and on the way it enters the nodes in
pre-order. -/
theorem trace_preorder (a : Arrangement) (hw : t.WellFormed) (hc : t.Whole) :
    Walk.Trace (renderWalk a) (.start t) t.preorder ⟨[], [t.text a]⟩ := by
  have hstart : Ready a [t.text a] (State.start t : State Tree String Tree).tasks
      (State.start t : State Tree String Tree).results := ⟨hw, hc, rfl⟩
  obtain ⟨ts, htrace⟩ := hstart.reaches.exists_trace
  rwa [htrace.eq_below (listsBelow_preorder a) rfl] at htrace

end LoweringIR.Tree
