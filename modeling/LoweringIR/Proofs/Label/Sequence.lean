import LoweringIR.Proofs.Label.Unambiguous

/-!
# The labels of a tree in order

The check takes the labels of a program from walks with a stack. Here they are listed by recursion
on the tree alone: a node has its own label, if it has one, before the labels of its children, and
these are taken from left to right. No stack is left that could hold them in another order.

This list is all that the check reads. Trees with the same labels in the same order pass the check
together or fail it together, for one reason and with one record, however different they are
otherwise.

## Main definitions

* `Tree.labels` — the labels of a tree, in pre-order
* `Tree.blockNames` — the names that head blocks, in pre-order
* `Tree.labelNames` — all names in a tree, each where it comes first

## Main results

* `Tree.labels_eq_preorder` — what the walks gather is this list
* `Label.headings_eq`, `Label.collect_eq` — the names that the check goes through
* `Label.check_congr`, `Label.emit_congr` — the check depends on the labels alone
-/

namespace LoweringIR

/-! ### The label of a node -/

/-- The label that is a node's own. Only assembly has labels. -/
def Kind.piece? {α : Type} : Kind → List (Field α) → Option Piece
  | .asm k, fs => k.piece? fs
  | _, _ => none

/-- The label of a node does not depend on its children. -/
theorem Kind.piece?_map {α β : Type} (g : α → β) (k : Kind) (fs : List (Field α)) :
    k.piece? (fs.map (Field.map g)) = k.piece? fs := by
  cases k with
  | common | scheme | regalloc => rfl
  | asm k =>
    cases k
    case cfg =>
      cases fs with
      | nil => rfl
      | cons x fs => cases x <;> rfl
    case label =>
      match fs with
      | [] => rfl
      | [x] => cases x <;> rfl
      | x :: _ :: _ => cases x <;> rfl
    all_goals rfl

/-- The name in a label. -/
def Piece.name? : Piece → Option String
  | heading n => some n
  | reference n => some n
  | verbatim _ => none

namespace Tree

variable {k : Kind} {fs : List (Field Tree)} {t : Tree}

theorem piece?_node (k : Kind) (fs : List (Field Tree)) : (node k fs).piece? = k.piece? fs := by
  cases k <;> rfl

/-! ### The list -/

/-- The labels of a tree: its own, if it has one, and then those of its children from left to right.
-/
def labels : Tree → List Piece :=
  fold (fun _ _ => []) fun k fs => (k.piece? fs).toList ++ (fs.flatMap Field.children).flatten

/-- The names that head blocks, in pre-order and as often as they do. -/
def blockNames (t : Tree) : List String := t.labels.filterMap Piece.heading?

/-- The names that head blocks or are referred to, each where it comes first in pre-order. -/
def labelNames (t : Tree) : List String := (t.labels.filterMap Piece.name?).eraseDups

@[simp] theorem labels_blank (f : Option Family) (n : Nat) : (blank f n).labels = [] := by
  simp [labels]

theorem labels_node (k : Kind) (fs : List (Field Tree)) :
    (node k fs).labels = (k.piece? fs).toList ++ (fs.flatMap Field.children).flatMap labels := by
  rw [labels, fold_node, ← labels, Kind.piece?_map, Field.flatMap_children_map]
  rfl

/-! ### The walk -/

/-- A truth value has no labels. -/
theorem labels_of_isTruth (h : t.role.isTruth = true) : t.labels = [] := by
  unfold role at h
  split at h
  · cases h
  · rw [labels_node]
    rfl
  · cases h

/-- What a quotation keeps out of walks has no labels. -/
theorem flatMap_labels_children (k : Kind) (fs : List (Field Tree)) :
    (node k fs).children.flatMap labels = (fs.flatMap Field.children).flatMap labels := by
  have hquoted : ∀ ts : List Tree,
      (ts.filter fun u => !u.role.isTruth).flatMap labels = ts.flatMap labels := by
    intro ts
    induction ts with
    | nil => rfl
    | cons t ts ih =>
      cases ht : t.role.isTruth with
      | true => simp [ht, ih, labels_of_isTruth ht]
      | false => simp [ht, ih]
  by_cases hk : k = .scheme .quote
  · subst hk
    exact hquoted _
  · rw [children_node hk]

/-- **What a walk over the tree gathers is this list.** -/
theorem labels_eq_preorder (t : Tree) : t.labels = t.preorder.filterMap piece? := by
  induction t using induct with
  | blank f n => simp [preorder_eq, children, piece?]
  | node k fs ih =>
    have hchildren : ∀ u ∈ (node k fs).children, u.labels = u.preorder.filterMap piece? := by
      intro u hu
      obtain ⟨x, hx, hux⟩ := List.mem_flatMap.mp ((node k fs).children_sublist_members.subset hu)
      exact ih x hx u hux
    have hwalk : (node k fs).preorder.filterMap piece? =
        (node k fs).piece?.toList ++ (node k fs).children.flatMap fun u =>
          u.preorder.filterMap piece? := by
      rw [preorder_eq, List.filterMap_eq_flatMap_toList, List.flatMap_cons,
        ← List.filterMap_eq_flatMap_toList, List.filterMap_flatMap]
    rw [hwalk, ← List.flatMap_congr hchildren, flatMap_labels_children, labels_node, piece?_node]

end Tree

/-! ### What the check reads -/

namespace Label

variable {t u : Tree}

theorem piece?_bind_name? (u : Tree) : u.piece?.bind Piece.name? = named? u := by
  unfold Tree.piece?
  split
  · unfold AsmKind.piece? named?
    split <;> simp_all [Piece.name?]
  · unfold named?
    split <;> simp_all

/-- The names of blocks that the check goes through. -/
theorem headings_eq (t : Tree) : headings t = t.blockNames := by
  rw [headings, Tree.blockNames, Tree.labels_eq_preorder, List.filterMap_filterMap,
    funext piece?_bind_heading?]

/-- Names that are first seen are those of which later occurrences are left out. -/
theorem firstSeen_eq_eraseDups (names : List String) : firstSeen [] names = names.eraseDups := by
  have hloop : ∀ seen names,
      firstSeen seen names = List.eraseDupsBy.loop (fun a b => a == b) names seen := by
    intro seen names
    induction names generalizing seen with
    | nil => rfl
    | cons n names ih =>
      rw [firstSeen, List.eraseDupsBy.loop, List.contains_eq_any_beq]
      cases seen.any fun m => n == m with
      | true => exact ih seen
      | false => exact ih (n :: seen)
  exact hloop [] names

/-- The names that the check gives their mangled forms. -/
theorem collect_eq (t : Tree) : collect t = t.labelNames := by
  rw [collect, firstSeen_eq_eraseDups, Tree.labelNames, Tree.labels_eq_preorder,
    List.filterMap_filterMap, funext piece?_bind_name?]

/-- The check succeeds if no name heads two blocks and no two names share a mangled form. -/
theorem mapping_eq_ok_iff_labelNames {m : List (String × String)} :
    mapping t = .ok m ↔
      (t.blockNames.Nodup ∧
        ∀ a ∈ t.labelNames, ∀ b ∈ t.labelNames, mangle a = mangle b → a = b) ∧
      m = t.labelNames.map fun n => (n, mangle n) := by
  rw [mapping_eq_ok_iff, headings_eq, collect_eq, and_assoc]

theorem mapping_congr (h : t.labels = u.labels) : mapping t = mapping u := by
  rw [mapping, mapping, headings_eq, headings_eq, collect_eq, collect_eq, Tree.blockNames,
    Tree.blockNames, Tree.labelNames, Tree.labelNames, h]

/-- **The check depends on the labels alone**, with its record. -/
theorem check_congr (h : t.labels = u.labels) : check t = check u := by
  rw [check, check, mapping_congr h]

/-- What is emitted depends on the labels and the text. -/
theorem emit_congr (h : t.labels = u.labels) (htext : t.render .sorted = u.render .sorted)
    (checked : Bool) : emit checked t = emit checked u := by
  rw [emit, emit, check_congr h, htext]

end Label

end LoweringIR
