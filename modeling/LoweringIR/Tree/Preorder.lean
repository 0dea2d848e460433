import LoweringIR.Tree.Basic

/-!
# Trees in pre-order

A tree comes before its children, and those from left to right. The stack holds the trees whose turn
is still to come, the next one on top; the trees visited are gathered beside it.
-/

namespace LoweringIR.Tree

/-- Visits the trees on a stack, after those that have been visited, latest first. -/
def visit (visited : List Tree) : List Tree → List Tree
  | [] => visited.reverse
  | t :: stack => visit (t :: visited) (t.children ++ stack)
termination_by stack => (stack.map size).sum
decreasing_by
  have := t.size_children
  simp only [List.map_append, List.sum_append_nat, List.map_cons, List.sum_cons]
  omega

/-- A tree, its children, and everything below them, in pre-order. -/
def preorder (t : Tree) : List Tree := visit [] [t]

theorem visit_eq_append (visited stack : List Tree) :
    visit visited stack = visited.reverse ++ visit [] stack := by
  induction hn : (stack.map size).sum using Nat.strongRecOn generalizing visited stack with
  | _ n ih =>
    cases stack with
    | nil => simp [visit]
    | cons t stack =>
      have hlt : ((t.children ++ stack).map size).sum < n := by
        have := t.size_children
        rw [← hn]
        simp only [List.map_append, List.sum_append_nat, List.map_cons, List.sum_cons]
        omega
      rw [visit, visit, ih _ hlt (t :: visited) _ rfl, ih _ hlt [t] _ rfl]
      simp

theorem visit_append (stack rest : List Tree) :
    visit [] (stack ++ rest) = visit [] stack ++ visit [] rest := by
  induction hn : (stack.map size).sum using Nat.strongRecOn generalizing stack with
  | _ n ih =>
    cases stack with
    | nil => simp [visit]
    | cons t stack =>
      have hlt : ((t.children ++ stack).map size).sum < n := by
        have := t.size_children
        rw [← hn]
        simp only [List.map_append, List.sum_append_nat, List.map_cons, List.sum_cons]
        omega
      rw [List.cons_append, visit, visit, visit_eq_append, visit_eq_append [t],
        ← List.append_assoc, ih _ hlt _ rfl, List.append_assoc]

/-- A tree stands before the pre-orders of its children. -/
theorem preorder_eq (t : Tree) : t.preorder = t :: t.children.flatMap preorder := by
  have h : ∀ ts : List Tree, visit [] ts = ts.flatMap preorder := by
    intro ts
    induction ts with
    | nil => simp [visit]
    | cons t ts ih =>
      rw [← List.singleton_append, visit_append, ih]
      rfl
  rw [preorder, visit, visit_eq_append, List.append_nil, h]
  rfl

end LoweringIR.Tree
