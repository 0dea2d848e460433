import LoweringIR.Instances
import LoweringIR.Tree.Field

/-!
# Trees

A tree is a node of some kind with its fields, or a blank. A blank stands wherever a node of its
family may stand and has neither fields nor a text; it lets a tree be put together before all of it
is known. A blank of no family fits nowhere and can only be a root. Since nothing is known of what a
blank will hold, no blank is equal to another: each has a number of its own.

The type does not require a node to have the fields of its kind. Building does, and `WellFormed`
states what building guarantees.

## Recursion

Children hang below lists and pairs inside fields, so the recursion that Lean derives has a case for
each of these. It is used once, for `Tree.fold`, and every other function on trees is a fold: its
equation at a node is `fold_node`, which speaks of `Field.map` and not of lists. `Tree.induct` is
the matching induction principle.
-/

namespace LoweringIR

/-- A tree. -/
inductive Tree where
  /-- A place that holds no node yet. -/
  | blank (family : Option Family) (number : Nat)
  /-- A node with its fields in the order of its schema. -/
  | node (kind : Kind) (fields : List (Field Tree))
deriving Inhabited

namespace Tree

variable {β : Type}

/-! ### Folds -/

mutual

/-- Replaces every blank and every node, children first. -/
def fold (onBlank : Option Family → Nat → β) (onNode : Kind → List (Field β) → β) : Tree → β
  | blank f n => onBlank f n
  | node k fs => onNode k (foldFields onBlank onNode fs)

/-- Folds the children in fields. -/
private def foldFields (onBlank : Option Family → Nat → β) (onNode : Kind → List (Field β) → β) :
    List (Field Tree) → List (Field β)
  | [] => []
  | f :: fs => foldField onBlank onNode f :: foldFields onBlank onNode fs

/-- Folds the children in a field. -/
private def foldField (onBlank : Option Family → Nat → β) (onNode : Kind → List (Field β) → β) :
    Field Tree → Field β
  | .name s => .name s
  | .flag b => .flag b
  | .int64 n => .int64 n
  | .node t => .node (fold onBlank onNode t)
  | .nodes ts => .nodes (foldTrees onBlank onNode ts)
  | .names ns => .names ns
  | .nameSet ns => .nameSet ns
  | .bindings es => .bindings (foldEntries onBlank onNode es)
  | .locations es => .locations es
  | .graph es => .graph es
  | .frames fs => .frames fs
  | .records rs => .records rs

/-- Folds trees. -/
private def foldTrees (onBlank : Option Family → Nat → β) (onNode : Kind → List (Field β) → β) :
    List Tree → List β
  | [] => []
  | t :: ts => fold onBlank onNode t :: foldTrees onBlank onNode ts

/-- Folds the trees in bindings. -/
private def foldEntries (onBlank : Option Family → Nat → β) (onNode : Kind → List (Field β) → β) :
    List (String × Tree) → List (String × β)
  | [] => []
  | (s, t) :: es => (s, fold onBlank onNode t) :: foldEntries onBlank onNode es

end

section

variable (onBlank : Option Family → Nat → β) (onNode : Kind → List (Field β) → β)

@[simp] theorem fold_blank (f : Option Family) (n : Nat) :
    fold onBlank onNode (blank f n) = onBlank f n := by
  rw [fold]

private theorem foldTrees_eq (ts : List Tree) :
    foldTrees onBlank onNode ts = ts.map (fold onBlank onNode) := by
  induction ts with
  | nil => rw [foldTrees]; rfl
  | cons t ts ih => rw [foldTrees, ih]; rfl

private theorem foldEntries_eq (es : List (String × Tree)) :
    foldEntries onBlank onNode es = es.map fun e => (e.1, fold onBlank onNode e.2) := by
  induction es with
  | nil => rw [foldEntries]; rfl
  | cons e es ih =>
    obtain ⟨s, t⟩ := e
    rw [foldEntries, ih]; rfl

private theorem foldField_eq (x : Field Tree) :
    foldField onBlank onNode x = x.map (fold onBlank onNode) := by
  cases x <;> rw [foldField] <;> simp only [Field.map, foldTrees_eq, foldEntries_eq]

private theorem foldFields_eq (fs : List (Field Tree)) :
    foldFields onBlank onNode fs = fs.map (Field.map (fold onBlank onNode)) := by
  induction fs with
  | nil => rw [foldFields]; rfl
  | cons f fs ih => rw [foldFields, ih, foldField_eq]; rfl

@[simp] theorem fold_node (k : Kind) (fs : List (Field Tree)) :
    fold onBlank onNode (node k fs) = onNode k (fs.map (Field.map (fold onBlank onNode))) := by
  rw [fold, foldFields_eq]

end

/-- Induction on trees, with the hypothesis for every child of every field. -/
theorem induct {P : Tree → Prop} (blank : ∀ f n, P (blank f n))
    (node : ∀ k fs, (∀ f ∈ fs, ∀ t ∈ Field.children f, P t) → P (node k fs)) : ∀ t, P t :=
  fun t => @Tree.rec P (fun fs => ∀ f ∈ fs, ∀ t ∈ Field.children f, P t)
    (fun f => ∀ t ∈ Field.children f, P t) (fun ts => ∀ t ∈ ts, P t)
    (fun es => ∀ t ∈ es.map Prod.snd, P t) (fun e => P e.2)
    blank (fun k fs ih => node k fs ih) (by simp) (by simp_all) (by simp [Field.children])
    (by simp [Field.children]) (by simp [Field.children]) (by simp_all [Field.children])
    (by simp_all [Field.children]) (by simp [Field.children]) (by simp [Field.children])
    (by simp_all [Field.children]) (by simp [Field.children]) (by simp [Field.children])
    (by simp [Field.children]) (by simp [Field.children]) (by simp) (by simp_all) (by simp)
    (by simp_all) (by simp_all) t

/-! ### Children and size -/

/-- The family that a tree belongs to. -/
def family? : Tree → Option Family
  | blank f _ => f
  | node k _ => some k.family

/-- What a blank is called in messages: like the nodes of its family. -/
def blankName : Option Family → String
  | none => "Node"
  | some f => f.nodeName

/-- What a tree is called in messages: its kind, or what a blank is called. -/
def headName : Tree → String
  | blank f _ => blankName f
  | node k _ => k.name

/-- What the text of a parent may depend on besides the text of a child. -/
inductive Role where
  /-- A label, which can be jumped to directly. -/
  | label
  /-- A truth value, which is quoted by a letter. -/
  | truth (value : Bool)
  /-- Anything else. -/
  | plain
deriving DecidableEq, Inhabited

/-- The role is that of a truth value. -/
def Role.isTruth : Role → Bool
  | truth _ => true
  | _ => false

/-- The role of a tree. -/
def role : Tree → Role
  | node (.asm .label) _ => .label
  | node (.common _ .bool) [.flag b] => .truth b
  | _ => .plain

/-- The trees in the fields of a tree. -/
def members : Tree → List Tree
  | blank _ _ => []
  | node _ fs => fs.flatMap Field.children

/-- The children that take part in the text of a tree and in walks over it: all its members, except
that a quoted truth value belongs to the quotation. -/
def children : Tree → List Tree
  | blank _ _ => []
  | node (.scheme .quote) fs =>
    (fs.flatMap Field.children).filter fun t => !t.role.isTruth
  | node _ fs => fs.flatMap Field.children

/-- The number of blanks and nodes in a tree. -/
def size : Tree → Nat :=
  fold (fun _ _ => 1) fun _ fs => 1 + (fs.map fun f => f.children.sum).sum

@[simp] theorem size_blank (f : Option Family) (n : Nat) : (blank f n).size = 1 := by
  simp [size]

private theorem sum_children (fs : List (Field Tree)) :
    ((fs.map (Field.map size)).map fun f => f.children.sum).sum =
      ((fs.flatMap Field.children).map size).sum := by
  induction fs with
  | nil => rfl
  | cons f fs ih => simpa using ih

theorem size_node (k : Kind) (fs : List (Field Tree)) :
    (node k fs).size = 1 + ((fs.flatMap Field.children).map size).sum := by
  rw [← sum_children, size, fold_node]

theorem size_members (t : Tree) : (t.members.map size).sum < t.size := by
  cases t with
  | blank f n => simp [members]
  | node k fs => simp [members, size_node]

theorem children_sublist_members (t : Tree) : t.children.Sublist t.members := by
  unfold children
  split
  · exact List.Sublist.refl _
  · exact List.filter_sublist
  · exact List.Sublist.refl _

private theorem sum_le_of_sublist {ms ns : List Nat} (h : ms.Sublist ns) : ms.sum ≤ ns.sum := by
  induction h with
  | slnil => exact Nat.le_refl _
  | cons n _ ih => exact Nat.le_trans ih (by simp)
  | cons_cons n _ ih => simpa using ih

/-- The children of a tree are smaller than the tree, all together. -/
theorem size_children (t : Tree) : (t.children.map size).sum < t.size :=
  Nat.lt_of_le_of_lt (sum_le_of_sublist (t.children_sublist_members.map size)) t.size_members

end Tree

end LoweringIR
