import LoweringIR.Proofs.Arrangement
import LoweringIR.Proofs.Rendering.Text
import Mathlib.Data.List.Forall2

/-!
# Sorted text is canonical

A set of names, a set of bindings, a conflict graph and a set of frames have no order of their own,
but a tree holds them in one. Two trees that differ in nothing but these orders, in any of their
nodes and at any depth, have one sorted text.

`Tree.Rearranged` says what it is to differ in nothing else. It does not take the way through single
exchanges: at every node the children are rearranged first, each in its place, and then the
collections of the node may be put in another order, with the rearranged children moving along. The
text of a node is treated in the same two steps. Rearranged children have equal parts, by induction,
and equal parts in another order are laid out equally, by the laws of sorting.

Sorting looks only at names, so a name that is bound twice keeps the order of its bindings in the
text. Rearranging therefore asks of a collection that is put in another order that its names are
distinct. Sets of names may have repetitions, since equal names cannot be told apart.

## Main definitions

* `Field.Reordered` — the unordered collection of a field in another order
* `Tree.Rearranged` — the unordered collections of a tree in other orders, at any depth

## Main results

* `Field.Reordered.arrange_sorted` — the collection of a field is laid out equally
* `Tree.Rearranged.text_sorted`, `Tree.render_sorted_eq` — the whole tree is
-/

namespace LoweringIR

/-! ### Fields -/

/-- The collection of a field in another order, if it is unordered. Entries change places only where
no name has two of them. -/
inductive Field.Reordered {α : Type} : Field α → Field α → Prop
  | refl (x : Field α) : Reordered x x
  | nameSet {ns ms : List String} (h : ns.Perm ms) : Reordered (.nameSet ns) (.nameSet ms)
  | bindings {es ds : List (String × α)} (h : es.Perm ds) (names : (es.map Prod.fst).Nodup) :
      Reordered (.bindings es) (.bindings ds)
  | locations {es ds : List (String × String)} (h : es.Perm ds)
      (names : (es.map Prod.fst).Nodup) : Reordered (.locations es) (.locations ds)
  /-- The conflicts of every variable change places, and then maybe the variables. -/
  | graph {es ds fs : List (String × List String)}
      (inner : List.Forall₂ (fun e d => e.1 = d.1 ∧ e.2.Perm d.2) es ds) (outer : ds.Perm fs)
      (names : ds ≠ fs → (ds.map Prod.fst).Nodup) : Reordered (.graph es) (.graph fs)
  | frames {fs gs : List (List String)} (h : fs.Perm gs) : Reordered (.frames fs) (.frames gs)

namespace Field.Reordered

variable {α β : Type} {x y : Field α}

theorem map (g : α → β) (h : x.Reordered y) : (x.map g).Reordered (y.map g) := by
  cases h with
  | refl => exact .refl _
  | nameSet h => exact .nameSet h
  | bindings h names =>
    refine .bindings (h.map _) ?_
    rwa [List.map_map]
  | locations h names => exact .locations h names
  | graph inner outer names => exact .graph inner outer names
  | frames h => exact .frames h

theorem children_perm (h : x.Reordered y) : x.children.Perm y.children := by
  cases h with
  | bindings h _ => exact h.map _
  | _ => exact .refl _

theorem map_names_sorted {es ds : List (String × List String)}
    (h : List.Forall₂ (fun e d => e.1 = d.1 ∧ e.2.Perm d.2) es ds) :
    es.map (fun e => (e.1, Arrangement.sorted.names e.2)) =
      ds.map fun e => (e.1, Arrangement.sorted.names e.2) := by
  induction h with
  | nil => rfl
  | cons hed _ ih => simp [hed.1, Arrangement.names_eq_of_perm hed.2, ih]

/-- The collection of a field is laid out equally in every order. -/
theorem arrange_sorted (h : x.Reordered y) : x.arrange .sorted = y.arrange .sorted := by
  cases h with
  | refl => rfl
  | nameSet h => rw [arrange, arrange, Arrangement.names_eq_of_perm h]
  | bindings h names => rw [arrange, arrange, Arrangement.entries_eq_of_perm h names]
  | locations h names => rw [arrange, arrange, Arrangement.entries_eq_of_perm h names]
  | @graph es ds fs inner outer names =>
    have houter : Arrangement.sorted.entries (ds.map fun e => (e.1, Arrangement.sorted.names e.2)) =
        Arrangement.sorted.entries (fs.map fun e => (e.1, Arrangement.sorted.names e.2)) := by
      by_cases hdf : ds = fs
      · rw [hdf]
      · refine Arrangement.entries_eq_of_perm (outer.map _) ?_
        rw [List.map_map]
        exact names hdf
    rw [arrange, arrange, Arrangement.graph_eq, Arrangement.graph_eq, map_names_sorted inner,
      houter]
  | frames h => rw [arrange, arrange, Arrangement.frames_eq_of_perm h]

end Field.Reordered

/-! ### Trees -/

namespace Tree

/-- The unordered collections of a tree in other orders, at any depth. Where a child stands,
`pairs` has the child and what becomes of it. -/
inductive Rearranged : Tree → Tree → Prop
  | blank (f : Option Family) (n : Nat) : Rearranged (.blank f n) (.blank f n)
  | node (k : Kind) {pairs : List (Field (Tree × Tree))} {fs : List (Field Tree)}
      (children : ∀ x ∈ pairs, ∀ p ∈ x.children, Rearranged p.1 p.2)
      (fields : List.Forall₂ Field.Reordered (pairs.map (Field.map Prod.snd)) fs) :
      Rearranged (.node k (pairs.map (Field.map Prod.fst))) (.node k fs)

variable {k : Kind} {t u : Tree}

/-- Every order is one of the orders of a tree. -/
theorem Rearranged.refl (t : Tree) : Rearranged t t := by
  induction t using induct with
  | blank f n => exact .blank f n
  | node k fs ih =>
    have hself : ∀ f : Tree × Tree → Tree, (∀ t, f (t, t) = t) →
        (fs.map (Field.map fun t => (t, t))).map (Field.map f) = fs :=
      fun f hf => Field.map_map_eq_self fun _ _ t _ => hf t
    have h : Rearranged
        (.node k ((fs.map (Field.map fun t => (t, t))).map (Field.map Prod.fst))) (.node k fs) := by
      refine .node k ?_ ?_
      · intro x hx p hp
        obtain ⟨y, hy, rfl⟩ := List.mem_map.mp hx
        rw [Field.children_map] at hp
        obtain ⟨t, ht, rfl⟩ := List.mem_map.mp hp
        exact ih y hy t ht
      · rw [hself Prod.snd fun _ => rfl]
        exact List.forall₂_same.mpr fun x _ => .refl x
    rwa [hself Prod.fst fun _ => rfl] at h

theorem Role.of_bool_cons_cons {α : Type} (d : Dialect) (x y : Field α) (fs : List (Field α)) :
    Role.of (.common d .bool) (x :: y :: fs) = .plain := by
  cases x <;> rfl

theorem Role.of_reordered {α : Type} {fs gs : List (Field α)}
    (h : List.Forall₂ Field.Reordered fs gs) : Role.of k fs = Role.of k gs := by
  rcases k with ⟨d, k⟩ | k | k | k
  · cases k with
    | bool =>
      rcases h with _ | ⟨h, _ | _⟩
      · rfl
      · cases h <;> rfl
      · rw [of_bool_cons_cons, of_bool_cons_cons]
    | _ => rfl
  · rfl
  · rfl
  · cases k <;> rfl

theorem map_arrange_of_reordered {α β : Type} {fs gs : List (Field α)} (g : α → β)
    (h : List.Forall₂ Field.Reordered fs gs) :
    (fs.map (Field.map g)).map (Field.arrange .sorted) =
      (gs.map (Field.map g)).map (Field.arrange .sorted) := by
  induction h with
  | nil => rfl
  | cons hxy _ ih => simp only [List.map_cons, (hxy.map g).arrange_sorted, ih]

theorem flatMap_children_perm {α : Type} {fs gs : List (Field α)}
    (h : List.Forall₂ Field.Reordered fs gs) :
    (fs.flatMap Field.children).Perm (gs.flatMap Field.children) := by
  induction h with
  | nil => exact .refl _
  | cons hxy _ ih => exact hxy.children_perm.append ih

/-- **Rearranging keeps the sorted text**, and what else a parent may know of a tree. -/
theorem Rearranged.part_sorted (h : Rearranged t u) : t.part .sorted = u.part .sorted := by
  induction h with
  | blank f n => rfl
  | @node k pairs fs children fields ih =>
    have hparts : (pairs.map (Field.map Prod.fst)).map (Field.map (part .sorted)) =
        (pairs.map (Field.map Prod.snd)).map (Field.map (part .sorted)) := by
      rw [List.map_map, List.map_map]
      refine List.map_congr_left fun x hx => ?_
      rw [Function.comp_apply, Function.comp_apply, Field.map_map, Field.map_map]
      exact Field.map_congr fun p hp => ih x hx p hp
    have hrole : Role.of k (pairs.map (Field.map Prod.fst)) = Role.of k fs := by
      rw [Role.of_map, ← Role.of_reordered fields, Role.of_map]
    rw [part_node, part_node, hrole, hparts, map_arrange_of_reordered _ fields]

theorem Rearranged.whole (h : Rearranged t u) : t.Whole ↔ u.Whole := by
  induction h with
  | blank f n => rfl
  | @node k pairs fs children fields ih =>
    simp only [whole_node_iff, ← (flatMap_children_perm fields).mem_iff,
      Field.flatMap_children_map, List.forall_mem_map, List.mem_flatMap]
    constructor
    · rintro h p ⟨x, hx, hp⟩
      exact (ih x hx p hp).mp (h p ⟨x, hx, hp⟩)
    · rintro h p ⟨x, hx, hp⟩
      exact (ih x hx p hp).mpr (h p ⟨x, hx, hp⟩)

theorem Rearranged.family_eq (h : Rearranged t u) : t.family? = u.family? := by
  cases h <;> rfl

/-- **Sorted text is canonical.** Trees that differ only in the order of their unordered collections
have one sorted text, or none for one reason. -/
theorem render_sorted_eq (h : Rearranged t u) (ht : t.WellFormed) (hu : u.WellFormed) :
    t.render .sorted = u.render .sorted := by
  by_cases hc : t.Whole
  · rw [render_eq_text ht hc, render_eq_text hu (h.whole.mp hc), text, text, h.part_sorted]
  · rw [render_eq_error ht hc, render_eq_error hu (mt h.whole.mpr hc), h.family_eq]

/-- Two bindings around nothing. -/
def letPair (first second : String × Tree) : Tree :=
  .node (.scheme .letIn) [.bindings [first, second], .node (.node (.common .scheme .nop) [])]

/-- Local names around nothing. -/
def localNames (names : List String) : Tree :=
  .node (.common .scheme .locals) [.nameSet names, .node (.node (.common .scheme .nop) [])]

theorem letPair_rearranged :
    Rearranged (letPair ("b", localNames ["y", "x"]) ("a", localNames []))
      (letPair ("a", localNames []) ("b", localNames ["x", "y"])) := by
  let nop : Tree := .node (.common .scheme .nop) []
  have hnames : Rearranged (localNames ["y", "x"]) (localNames ["x", "y"]) := by
    refine @Rearranged.node _ [.nameSet ["y", "x"], .node (nop, nop)] _ ?_ ?_
    · simp only [Field.children, List.forall_mem_cons]
      exact ⟨List.forall_mem_nil _, ⟨.refl nop, List.forall_mem_nil _⟩, List.forall_mem_nil _⟩
    · exact .cons (.nameSet (.swap ..)) (.cons (.refl _) .nil)
  refine @Rearranged.node _
    [.bindings [("b", localNames ["y", "x"], localNames ["x", "y"]),
      ("a", localNames [], localNames [])], .node (nop, nop)] _ ?_ ?_
  · simp only [Field.children, List.forall_mem_cons, List.map_cons, List.map_nil]
    exact ⟨⟨hnames, .refl _, List.forall_mem_nil _⟩, ⟨.refl nop, List.forall_mem_nil _⟩,
      List.forall_mem_nil _⟩
  · exact .cons (.bindings (.swap ..) (by decide)) (.cons (.refl _) .nil)

/-- Two bindings change places, and so do the names below one of them. -/
theorem render_letPair :
    (letPair ("b", localNames ["y", "x"]) ("a", localNames [])).render .sorted =
      (letPair ("a", localNames []) ("b", localNames ["x", "y"])).render .sorted :=
  render_sorted_eq letPair_rearranged (by decide) (by decide)

end Tree

end LoweringIR
