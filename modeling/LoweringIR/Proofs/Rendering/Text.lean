import LoweringIR.Proofs.Tree.WellFormed
import LoweringIR.Tree.Render

/-!
# The text of a tree

Rendering goes from children to parents and hands every node the texts of its children as a list,
which the node has to take apart again. Here the text of a tree is defined by recursion on the tree
alone: the text of a child stands in the field, and in the entry of the field, that the child stands
in. There is no list to take apart, so nothing can come to stand in the wrong place.

The two agree: a node that fits its kind makes of the list what the recursion makes of its fields
(`format_text`), and so a well-formed tree without blanks is rendered as its text. A tree with a
blank is not rendered at all. Since all blanks of a well-formed tree are of its family, it does not
matter which of them is met first.

## Main definitions

* `Tree.text` — the text of a tree by recursion

## Main results

* `Tree.format_text` — what a node makes of the texts of its children
* `Tree.render_eq_text`, `Tree.render_eq_error` — what rendering gives
-/

namespace LoweringIR

/-! ### The recursion -/

namespace Tree

/-- The role of a node of some kind, whatever stands in the places of its children. -/
def Role.of {α : Type} : Kind → List (Field α) → Role
  | .asm .label, _ => .label
  | .common _ .bool, [.flag b] => .truth b
  | _, _ => .plain

/-- The role and the text of a tree. -/
def part (a : Arrangement) : Tree → Part :=
  fold (fun _ _ => (.plain, "")) fun k fs => (.of k fs, k.write (fs.map (Field.arrange a)))

/-- The text of a tree. A blank counts as the empty text. -/
def text (a : Arrangement) (t : Tree) : String := (t.part a).2

variable {a : Arrangement} {k : Kind} {fs : List (Field Tree)} {t : Tree}

theorem role_node (k : Kind) (fs : List (Field Tree)) : (node k fs).role = .of k fs := by
  unfold Role.of
  split <;> simp_all [role]

/-- A node keeps its role as long as a flag stays what it is and nothing else becomes one. -/
theorem Role.of_map_fields {α β : Type} {g : Field α → Field β}
    (hg : ∀ x b, g x = .flag b ↔ x = .flag b) (k : Kind) (fs : List (Field α)) :
    Role.of k (fs.map g) = .of k fs := by
  have hfs : ∀ b, fs.map g = [.flag b] ↔ fs = [.flag b] := by
    intro b
    simp [List.map_eq_singleton_iff, hg]
  unfold Role.of
  split
  · rfl
  · next d b heq => rw [(hfs b).mp heq]
  · next hlabel hbool =>
    split
    · exact (hlabel rfl).elim
    · next d b => exact (hbool d b rfl ((hfs b).mpr rfl)).elim
    · rfl

theorem Role.of_map {α β : Type} (g : α → β) (k : Kind) (fs : List (Field α)) :
    Role.of k (fs.map (Field.map g)) = .of k fs :=
  of_map_fields (fun x b => by cases x <;> simp [Field.map]) k fs

theorem part_eq (a : Arrangement) (t : Tree) : t.part a = (t.role, t.text a) := by
  refine Prod.ext ?_ rfl
  cases t with
  | blank f n => simp [part, role]
  | node k fs => simp [part, role_node, Role.of_map]

@[simp] theorem text_blank (f : Option Family) (n : Nat) : (blank f n).text a = "" := by
  simp [text, part]

theorem part_node (a : Arrangement) (k : Kind) (fs : List (Field Tree)) :
    (node k fs).part a =
      (.of k fs, k.write ((fs.map (Field.map (part a))).map (Field.arrange a))) := by
  rw [part, fold_node, ← part, Role.of_map]

theorem text_node (a : Arrangement) (k : Kind) (fs : List (Field Tree)) :
    (node k fs).text a = k.write ((fs.map (Field.map (part a))).map (Field.arrange a)) := by
  rw [text, part_node]

/-! ### What a node makes of the texts of its children -/

end Tree

namespace Field

variable {α β γ : Type}

/-- Putting companions beside children does not look at the children. -/
theorem accompany_map_left [Inhabited β] (g : α → γ) (x : Field α) (bs : List β) :
    (x.map g).accompany bs = (x.accompany bs).map (Prod.map g id) := by
  cases x with
  | bindings es =>
    simp only [accompany, map, bindings.injEq]
    induction es generalizing bs with
    | nil => simp
    | cons e es ih => cases bs <;> simp_all
  | _ => simp [accompany, map, List.zip_map_left]

theorem accompanyAll_map_left [Inhabited β] (g : α → γ) (xs : List (Field α)) (bs : List β) :
    accompanyAll (xs.map (map g)) bs = (accompanyAll xs bs).map (map (Prod.map g id)) := by
  induction xs generalizing bs with
  | nil => rfl
  | cons x xs ih => simp [accompanyAll, accompany_map_left, ih]

/-- A sequence of one shape that is a node is a node. -/
theorem eq_node_of_shapes {fs : List (Field α)} (h : fs.map shape = [.node]) :
    ∃ a, fs = [.node a] := by
  obtain ⟨x, rfl, hx⟩ := List.map_eq_singleton_iff.mp h
  cases x <;> simp_all [shape]

end Field

namespace Tree

variable {a : Arrangement} {k : Kind} {fs : List (Field Tree)} {t : Tree}

theorem children_node (hk : k ≠ .scheme .quote) :
    (node k fs).children = fs.flatMap Field.children := by
  unfold children
  split <;> simp_all

/-- Every child gets the text that is its own. -/
theorem accompanyAll_text (hk : k ≠ .scheme .quote) :
    Field.accompanyAll (fs.map (Field.map role)) ((node k fs).children.map (text a)) =
      fs.map (Field.map (part a)) := by
  rw [children_node hk, Field.accompanyAll_map_left, Field.accompanyAll_map, List.map_map]
  refine List.map_congr_left fun x _ => ?_
  rw [Function.comp_apply, Field.map_map]
  exact Field.map_congr fun t _ => (part_eq a t).symm

/-- **A node makes of the texts of its children what the recursion makes of its fields.** -/
theorem format_text (h : k.Fits fs) :
    (node k fs).format a ((node k fs).children.map (text a)) = .ok ((node k fs).text a) := by
  by_cases hk : k = .scheme .quote
  · subst hk
    obtain ⟨t, rfl⟩ := Field.eq_node_of_shapes h.shapes
    have hchildren : (node (.scheme .quote) [.node t]).children =
        [t].filter fun u => !u.role.isTruth := by
      simp [children, Field.children]
    rw [hchildren, text_node, format]
    cases hr : t.role with
    | truth b =>
      -- A quoted truth value is no child, but then its text is not asked for either.
      simp only [List.filter, List.map, Field.map, part_eq, hr, Role.isTruth, Bool.not_true]
      rfl
    | label | plain =>
      simp only [List.filter, List.map, Field.map, part_eq, hr, Role.isTruth, Bool.not_false]
      rfl
  · rw [format, accompanyAll_text hk, text_node]

/-! ### What rendering gives -/

theorem format_eq_text (hw : t.WellFormed) (hc : t.Whole) :
    t.format a (t.children.map (text a)) = .ok (t.text a) := by
  cases t with
  | blank f n => exact absurd hc (not_whole_blank f n)
  | node k fs => exact format_text hw.fits

/-- A well-formed tree without blanks is rendered as its text. -/
theorem render_eq_text (hw : t.WellFormed) (hc : t.Whole) : t.render a = .ok (t.text a) := by
  induction hw with
  | @intro t here below ih =>
    have hchildren : ∀ u ∈ t.children, u.render a = .ok (u.text a) := fun u hu =>
      ih u (t.children_sublist_members.subset hu) (hc.of_mem_children hu)
    rw [render_eq, mapM_eq_ok_map hchildren]
    exact format_eq_text (.intro here below) hc

theorem mem_children_of_mem_members {u : Tree} (hu : u ∈ t.members)
    (hr : u.role.isTruth = false) : u ∈ t.children := by
  unfold children
  split
  · exact hu
  · exact List.mem_filter.mpr ⟨hu, by simp [hr]⟩
  · exact hu

/-- A truth value has no place for a blank. -/
theorem whole_of_isTruth (h : t.role.isTruth = true) : t.Whole := by
  unfold role at h
  split at h <;> simp_all [Role.isTruth, Field.children]

/-- What is no child of a quotation holds no blank. -/
theorem exists_child_not_whole (hc : ¬ (node k fs).Whole) :
    ∃ u ∈ (node k fs).children, ¬ u.Whole := by
  simp only [whole_node_iff, Classical.not_forall] at hc
  obtain ⟨u, hu, huc⟩ := hc
  have hr : u.role.isTruth = false := by
    rw [← Bool.not_eq_true]
    exact fun h => huc (whole_of_isTruth h)
  exact ⟨u, mem_children_of_mem_members hu hr, huc⟩

/-- A well-formed tree with a blank is not rendered, and all that is said of the blank is its
family. -/
theorem render_eq_error (hw : t.WellFormed) (hc : ¬ t.Whole) :
    t.render a = .error ⟨t.family?⟩ := by
  induction hw with
  | @intro t here below ih =>
    have hw : t.WellFormed := .intro here below
    cases t with
    | blank f n => simp [render_eq, children, format, family?, pure, Except.pure]
    | node k fs =>
      obtain ⟨u, hu, huc⟩ := exists_child_not_whole hc
      have herror : ∀ v ∈ (node k fs).children, ¬ v.Whole →
          v.render a = .error ⟨(node k fs).family?⟩ := fun v hv hvc => by
        have hmem := (node k fs).children_sublist_members.subset hv
        rw [ih v hmem hvc, hw.family_of_mem hmem]
      rw [render_eq, mapM_eq_error _ ⟨u, hu, herror u hu huc⟩]
      intro v hv
      by_cases hvc : v.Whole
      · have hmem := (node k fs).children_sublist_members.subset hv
        exact .inl ⟨_, render_eq_text (below v hmem) hvc⟩
      · exact .inr (herror v hv hvc)

end Tree

end LoweringIR
