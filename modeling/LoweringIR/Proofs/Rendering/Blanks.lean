import LoweringIR.Proofs.Rendering.Machine
import LoweringIR.Proofs.Tree.Position
import LoweringIR.Proofs.Walk.Frame
import Mathlib.Logic.Relation

/-!
# Rendering a tree with blanks

A blank has no text, so a tree with blanks is not rendered. Which blank is it that stops the
machine? The machine leaves children before parents, and a fault met on the way up could be that of
any of them. But a blank has no children: it is left as soon as it has been entered. So the order in
which trees are entered decides, and that is pre-order. Up to the first blank the machine goes
through whole trees, each of which leaves its text, and the blank that it stops at is the first in
pre-order.

A node that is left before has the texts of all its children, since each of them was put together
before it. So there is nothing else that the machine could stop at.

## Main definitions

* `Tree.Reaches` — a tree is come upon when one goes from children to children
* `Tree.FirstBlank` — the first blank in pre-order, with all that comes before it
* `Tree.StopsAt` — the machine enters some trees and a blank, and is about to leave the blank

## Main results

* `Tree.mem_preorder_iff`, `Tree.whole_iff` — pre-order and wholeness in terms of what is reached
* `Tree.FirstBlank.stopsAt` — the machine gets as far as the first blank
* `Tree.served_or_blank` — what a run finds whenever it leaves something
* `Tree.render_error_iff_blank` — rendering fails on blanks only, and on the first
-/

namespace LoweringIR.Tree

open Walk (Task State Steps Trace)

variable {a : Arrangement} {t u : Tree} {f : Option Family} {n : Nat} {before : List Tree}

/-! ### What is reached -/

/-- Induction on trees, with the hypothesis for every child. -/
theorem induct_children {P : Tree → Prop} (step : ∀ t, (∀ u ∈ t.children, P u) → P t) (t : Tree) :
    P t := by
  induction t using induct with
  | blank f n => exact step _ nofun
  | node k fs ih =>
    refine step _ fun u hu => ?_
    obtain ⟨x, hx, hux⟩ := List.mem_flatMap.mp ((node k fs).children_sublist_members.subset hu)
    exact ih x hx u hux

/-- One tree is come upon when one goes from another to its children, from those to theirs, and so
on. -/
def Reaches : Tree → Tree → Prop := Relation.ReflTransGen fun t u => u ∈ t.children

/-- Pre-order lists what is reached. -/
theorem mem_preorder_iff : u ∈ t.preorder ↔ t.Reaches u := by
  constructor
  · intro h
    induction t using induct_children with
    | step t ih =>
      rw [preorder_eq, List.mem_cons, List.mem_flatMap] at h
      obtain rfl | ⟨v, hv, hu⟩ := h
      · exact .refl
      · exact .head hv (ih v hv hu)
  · intro h
    induction h using Relation.ReflTransGen.head_induction_on with
    | refl =>
      rw [preorder_eq]
      exact List.mem_cons_self ..
    | head hv _ ih =>
      rw [preorder_eq]
      exact List.mem_cons_of_mem _ (List.mem_flatMap.mpr ⟨_, hv, ih⟩)

/-- A tree that is not whole reaches a blank. What is no child holds none. -/
theorem exists_blank_of_not_whole (h : ¬ t.Whole) : ∃ f n, t.Reaches (blank f n) := by
  induction t using induct_children with
  | step t ih =>
    cases t with
    | blank f n => exact ⟨f, n, .refl⟩
    | node k fs =>
      obtain ⟨v, hv, hvc⟩ := exists_child_not_whole h
      obtain ⟨f, n, hreach⟩ := ih v hv hvc
      exact ⟨f, n, .head hv hreach⟩

/-- A tree is whole if no blank is reached. -/
theorem whole_iff : t.Whole ↔ ∀ f n, ¬ t.Reaches (blank f n) := by
  constructor
  · intro hc f n hreach
    exact not_whole_blank f n (hc.of_mem_preorder (mem_preorder_iff.mpr hreach))
  · intro h
    by_contra hc
    obtain ⟨f, n, hreach⟩ := exists_blank_of_not_whole hc
    exact h f n hreach

/-! ### The first blank -/

/-- A blank is the first of some trees in pre-order, after nodes that are known. -/
def FirstIn (f : Option Family) (n : Nat) (before ts : List Tree) : Prop :=
  (∀ u ∈ before, u.kind?.isSome) ∧ ∃ after, ts.flatMap preorder = before ++ blank f n :: after

/-- The first blank of a tree in pre-order, after nodes that are known. -/
def FirstBlank (t : Tree) (before : List Tree) (f : Option Family) (n : Nat) : Prop :=
  FirstIn f n before [t]

/-- Where there are blanks there is a first. -/
theorem exists_firstBlank (h : t.Reaches (blank f n)) :
    ∃ before g m, t.FirstBlank before g m := by
  have hsome : (t.preorder.find? fun u => u.kind?.isNone).isSome :=
    List.find?_isSome.mpr ⟨_, mem_preorder_iff.mpr h, rfl⟩
  obtain ⟨b, hb⟩ := Option.isSome_iff_exists.mp hsome
  obtain ⟨hblank, before, after, hsplit, hbefore⟩ := List.find?_eq_some_iff_append.mp hb
  cases b with
  | node k fs => simp [kind?] at hblank
  | blank g m =>
    refine ⟨before, g, m, fun u hu => ?_, after, by simpa using hsplit⟩
    simpa using hbefore u hu

/-- The first blank of several trees is that of the first tree, or there is none in it. -/
theorem FirstIn.cons_cases {ts : List Tree} (h : FirstIn f n before (t :: ts)) :
    t.FirstBlank before f n ∨
      ((∀ u ∈ t.preorder, u.kind?.isSome) ∧
        ∃ rest, before = t.preorder ++ rest ∧ FirstIn f n rest ts) := by
  obtain ⟨hbefore, after, hsplit⟩ := h
  rw [List.flatMap_cons, List.append_eq_append_iff] at hsplit
  obtain ⟨rest, rfl, hts⟩ | ⟨below, ht, hts⟩ := hsplit
  · rw [List.forall_mem_append] at hbefore
    exact .inr ⟨hbefore.1, rest, rfl, hbefore.2, after, hts⟩
  · cases below with
    | nil =>
      rw [List.append_nil] at ht
      subst ht
      exact .inr ⟨hbefore, [], by simp, nofun, after, by simpa using hts.symm⟩
    | cons b below =>
      obtain ⟨rfl, -⟩ := List.cons.inj hts
      exact .inl ⟨hbefore, below, by simpa using ht⟩

/-- The first blank of a tree is the tree itself, or the first among its children. -/
theorem FirstBlank.cases (h : t.FirstBlank before f n) :
    (before = [] ∧ t = blank f n) ∨
      ∃ rest, before = t :: rest ∧ FirstIn f n rest t.children := by
  obtain ⟨hbefore, after, hsplit⟩ := h
  rw [List.flatMap_cons, List.flatMap_nil, List.append_nil, preorder_eq] at hsplit
  cases before with
  | nil =>
    obtain ⟨rfl, -⟩ := List.cons.inj hsplit
    exact .inl ⟨rfl, rfl⟩
  | cons u rest =>
    obtain ⟨rfl, hbelow⟩ := List.cons.inj hsplit
    exact .inr ⟨rest, rfl, fun v hv => hbefore v (List.mem_cons_of_mem _ hv), after, hbelow⟩

/-! ### As far as the first blank -/

/-- The machine is about to leave a blank, having entered it last. -/
def StopsAt (a : Arrangement) (f : Option Family) (n : Nat) (before : List Tree)
    (s : State Tree String Tree) : Prop :=
  ∃ tasks results, Trace (renderWalk a) s (before ++ [blank f n])
    ⟨.leave (blank f n) 0 :: tasks, results⟩

/-- A machine that stops at a blank fails for it. -/
theorem StopsAt.run_eq {s : State Tree String Tree} (h : StopsAt a f n before s) :
    (renderWalk a).run s = .error ⟨f⟩ := by
  obtain ⟨tasks, results, htrace⟩ := h
  rw [htrace.run_eq, Walk.run_cons_leave]
  rfl

theorem value_eq_text (hw : t.WellFormed) (hc : t.Whole) :
    (renderWalk a).value t = .ok (t.text a) := by
  rw [← Walk.result_eq_value]
  exact render_eq_text hw hc

/-- A tree without blanks is gone through on the way to one. -/
theorem StopsAt.of_preorder {tasks : List (Task Tree Tree)} {results : List String}
    (hw : t.WellFormed) (hc : t.Whole)
    (h : StopsAt a f n before ⟨tasks, t.text a :: results⟩) :
    StopsAt a f n (t.preorder ++ before) ⟨.enter t :: tasks, results⟩ := by
  obtain ⟨tasks', results', hrest⟩ := h
  have htrace :=
    Walk.trace_of_value (listsBelow_preorder a) (value_eq_text hw hc) tasks results
  exact ⟨tasks', results', by simpa using htrace.trans hrest⟩

/-- Among trees that each lead to their first blank, the machine gets as far as the first of all. -/
theorem FirstIn.stopsAt {ts : List Tree} (hw : ∀ u ∈ ts, u.WellFormed)
    (ih : ∀ u ∈ ts, ∀ before, u.FirstBlank before f n → ∀ tasks results,
      StopsAt a f n before ⟨.enter u :: tasks, results⟩)
    (h : FirstIn f n before ts) (tasks : List (Task Tree Tree)) (results : List String) :
    StopsAt a f n before ⟨ts.map .enter ++ tasks, results⟩ := by
  induction ts generalizing before results with
  | nil =>
    obtain ⟨-, after, hsplit⟩ := h
    simp at hsplit
  | cons t ts ihts =>
    obtain hfirst | ⟨hnodes, rest, rfl, hrest⟩ := h.cons_cases
    · exact ih t (List.mem_cons_self ..) before hfirst _ results
    · have hc : t.Whole := whole_iff.mpr fun g m hreach => by
        have := hnodes _ (mem_preorder_iff.mpr hreach)
        simp [kind?] at this
      exact .of_preorder (hw t (List.mem_cons_self ..)) hc
        (ihts (fun u hu => hw u (List.mem_cons_of_mem _ hu))
          (fun u hu => ih u (List.mem_cons_of_mem _ hu)) hrest _)

/-- **The machine gets as far as the first blank**: it enters what comes before it and the blank
itself, and is about to leave the blank. -/
theorem FirstBlank.stopsAt (hw : t.WellFormed) (h : t.FirstBlank before f n)
    (tasks : List (Task Tree Tree)) (results : List String) :
    StopsAt a f n before ⟨.enter t :: tasks, results⟩ := by
  induction hw generalizing before tasks results with
  | @intro t here below ih =>
    obtain ⟨rfl, rfl⟩ | ⟨rest, rfl, hrest⟩ := h.cases
    · exact ⟨tasks, results, .enter (.branch rfl) .refl⟩
    · have hmem := t.children_sublist_members.subset
      obtain ⟨tasks', results', htrace⟩ :=
        hrest.stopsAt (fun u hu => below u (hmem hu))
          (fun u hu before h tasks results => ih u (hmem hu) h tasks results)
          (.leave t t.children.length :: tasks) results
      exact ⟨tasks', results', .enter (.branch rfl) htrace⟩

/-- **A tree with blanks** is not rendered, because of the first. -/
theorem FirstBlank.render_eq (hw : t.WellFormed) (h : t.FirstBlank before f n) :
    t.render a = .error ⟨f⟩ := by
  have hrun := (h.stopsAt (a := a) hw [] []).run_eq
  rw [render, Walk.result, State.start, hrun]
  rfl

/-! ### What is left on the way -/

theorem reaches_of_within (h : Walk.Within (renderWalk a) t u) : t.Reaches u := by
  induction h with
  | root => exact .refl
  | member _ enter hk ih =>
    cases enter
    exact ih.tail hk

theorem WellFormed.of_reaches (hw : t.WellFormed) (h : t.Reaches u) : u.WellFormed :=
  hw.of_mem_preorder (mem_preorder_iff.mpr h)

/-- A tree with a text is whole. -/
theorem whole_of_value {text : String} (hw : u.WellFormed)
    (h : (renderWalk a).value u = .ok text) : u.Whole := by
  by_contra hc
  rw [← Walk.result_eq_value] at h
  cases h.symm.trans (render_eq_error hw hc)

/-- A node is whole if its children are. -/
theorem whole_of_children {k : Kind} {fs : List (Field Tree)}
    (h : ∀ v ∈ (node k fs).children, v.Whole) : (node k fs).Whole := by
  by_contra hc
  obtain ⟨v, hv, hvc⟩ := exists_child_not_whole hc
  exact hvc (h v hv)

/-- **Whenever something is left**, it has been reached, and it is a blank or a node that finds the
texts of all its children. -/
theorem served_or_blank {steps arity : Nat} {s : State Tree String Tree}
    {tasks : List (Task Tree Tree)} (hw : t.WellFormed)
    (hs : Steps (renderWalk a) steps (.start t) s) (h : s.tasks = .leave u arity :: tasks) :
    t.Reaches u ∧ (Served a u arity s.results ∨ ∃ f n, u = blank f n ∧ arity = 0) := by
  have hcoherent := Walk.Coherent.start.steps hs
  rw [h] at hcoherent
  obtain ⟨item, ms, bs, hwithin, henter, rfl, hvalues, hbs, -⟩ := hcoherent.leave
  cases henter
  have hreach := reaches_of_within hwithin
  refine ⟨hreach, ?_⟩
  have hwu := hw.of_reaches hreach
  have hchildren : ∀ v ∈ u.children, v.Whole := fun v hv => by
    obtain ⟨text, htext⟩ := exists_of_mapM_eq_ok hvalues hv
    exact whole_of_value (hwu.of_mem_children hv) htext
  cases u with
  | blank f n => exact .inr ⟨f, n, rfl, rfl⟩
  | node k fs =>
    have htexts : (s.results.take (node k fs).children.length).reverse =
        (node k fs).children.map (text a) := by
      rw [hbs]
      refine Except.ok.inj (hvalues.symm.trans (mapM_eq_ok_map fun v hv => ?_))
      exact value_eq_text (hwu.of_mem_children hv) (hchildren v hv)
    have hready : Ready a ((node k fs).text a :: s.results.drop (node k fs).children.length)
        [.leave (node k fs) (node k fs).children.length] s.results :=
      ⟨htexts, rfl, format_eq_text hwu (whole_of_children hchildren), rfl⟩
    exact .inl hready.served

/-- **Rendering fails on blanks only, and on the first.** A well-formed tree, of any family and
however deep, is not rendered if and only if a blank is reached from it. Then the machine goes
through all that comes before the first blank in pre-order and stops when it is to leave that very
blank, which gives the message its name. Otherwise the tree has its text. Nothing else can stop the
machine: whatever is left on the way is a blank, or a node that finds the texts it needs. -/
theorem render_error_iff_blank (a : Arrangement) (hw : t.WellFormed) :
    ((∃ e, t.render a = .error e) ↔ ∃ f n, t.Reaches (blank f n)) ∧
    ((∃ f n, t.Reaches (blank f n)) → ∃ before f n, t.FirstBlank before f n) ∧
    (∀ before f n, t.FirstBlank before f n →
      t.render a = .error ⟨f⟩ ∧ (⟨f⟩ : BlankFault).message = (blank f n).headName ∧
      StopsAt a f n before (.start t)) ∧
    ((∀ f n, ¬ t.Reaches (blank f n)) → t.render a = .ok (t.text a)) ∧
    ∀ steps s u arity tasks, Steps (renderWalk a) steps (.start t) s →
      s.tasks = .leave u arity :: tasks →
      t.Reaches u ∧ (Served a u arity s.results ∨ ∃ f n, u = blank f n ∧ arity = 0) := by
  have hok : (∀ f n, ¬ t.Reaches (blank f n)) → t.render a = .ok (t.text a) := fun h =>
    render_eq_text hw (whole_iff.mpr h)
  refine ⟨⟨?_, ?_⟩, ?_, fun before f n h => ?_, hok, fun steps s u arity tasks => ?_⟩
  · rintro ⟨e, he⟩
    by_contra h
    push Not at h
    cases he.symm.trans (hok h)
  · rintro ⟨f, n, hreach⟩
    obtain ⟨before, g, m, hfirst⟩ := exists_firstBlank hreach
    exact ⟨_, hfirst.render_eq hw⟩
  · rintro ⟨f, n, hreach⟩
    exact exists_firstBlank hreach
  · exact ⟨h.render_eq hw, rfl, h.stopsAt hw [] []⟩
  · exact served_or_blank hw

/-- A binding whose value has a blank in the middle of a block, with another blank as its body. -/
def letUnfinished : Tree :=
  .node (.scheme .letIn)
    [.bindings [("x", .node (.common .scheme .block)
      [.nodes [.node (.common .scheme .nop) [], blank (some .scheme) 1,
        .node (.common .scheme .nop) []]])],
      .node (blank (some .scheme) 2)]

/-- The blank in the block is the one that stops the machine, and the last thing in the block is not
entered any more. -/
theorem render_letUnfinished :
    letUnfinished.WellFormed ∧ letUnfinished.Reaches (blank (some .scheme) 2) ∧
      letUnfinished.render .sorted = .error ⟨some .scheme⟩ ∧
      (⟨some .scheme⟩ : BlankFault).message = "SchemeNode" ∧
      StopsAt .sorted (some .scheme) 1
        [letUnfinished,
          .node (.common .scheme .block)
            [.nodes [.node (.common .scheme .nop) [], blank (some .scheme) 1,
              .node (.common .scheme .nop) []]],
          .node (.common .scheme .nop) []] (.start letUnfinished) := by
  have hw : letUnfinished.WellFormed := by decide
  obtain ⟨-, -, hfirst, -⟩ := render_error_iff_blank .sorted hw
  obtain ⟨hrender, hmessage, hstops⟩ := hfirst
    [letUnfinished,
      .node (.common .scheme .block)
        [.nodes [.node (.common .scheme .nop) [], blank (some .scheme) 1,
          .node (.common .scheme .nop) []]],
      .node (.common .scheme .nop) []] (some .scheme) 1
    ⟨by decide, [.node (.common .scheme .nop) [], blank (some .scheme) 2],
      by simp [preorder_eq, children, letUnfinished, Field.children]⟩
  exact ⟨hw, .single (by simp [children, letUnfinished, Field.children]), hrender, hmessage, hstops⟩

end LoweringIR.Tree
