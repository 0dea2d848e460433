import LoweringIR.Proofs.Label.Sequence
import LoweringIR.Proofs.Rendering.Machine

/-!
# Gathering names turn by turn

The check of labels walks over a program twice, once for the names that head blocks and once for all
names. Both walks keep a stack with the trees whose turn is still to come. In a turn the tree on top
goes, its name is put with those gathered so far, and its children take its place, the first one on
top. The walks differ in which names they look for and in what they do with a name that they have
already.

What a walk will have gathered in the end can be told from any state on the way: the names so far,
and then those in the trees on the stack, from the top. A turn does not change this. It moves the
name of one tree from the stack to the names, and what is below that tree stays where it was. So a
walk gathers what the tree itself lists by recursion, in as many turns as the tree has nodes.

## Main definitions

* `Tree.namesBy` — the names in a tree by recursion, in pre-order
* `Gathering`, `Turn`, `Turns` — a walk between two turns, one turn, and a number of turns
* `Gathers` — a walk ends, and with which names

## Main results

* `Turn.outcome_eq`, `Turns.outcome_eq` — what one turn preserves, and what any number does
* `gathers` — a walk ends after one turn for every node
* `gathering_preorder` — both walks gather in pre-order
-/

namespace LoweringIR

namespace Tree

variable {name? : Tree → Option String} {t : Tree}

/-- The names in a tree: its own, if it has one, and then those below each of its children, from
left to right. -/
def namesBy (name? : Tree → Option String) (t : Tree) : List String :=
  (name? t).toList ++ (t.children.attach.map fun u => namesBy name? u.1).flatten
termination_by t.size
decreasing_by exact size_lt_of_mem_children u.2

theorem namesBy_eq (name? : Tree → Option String) (t : Tree) :
    t.namesBy name? = (name? t).toList ++ t.children.flatMap (namesBy name?) := by
  rw [namesBy, List.attach_map_val, List.flatMap]

/-- The names by recursion are those of the nodes that a walk visits. -/
theorem namesBy_eq_preorder (name? : Tree → Option String) (t : Tree) :
    t.namesBy name? = t.preorder.filterMap name? := by
  induction hn : t.size using Nat.strongRecOn generalizing t with
  | _ n ih =>
    subst hn
    have hchildren : ∀ u ∈ t.children, u.namesBy name? = u.preorder.filterMap name? :=
      fun u hu => ih u.size (size_lt_of_mem_children hu) u rfl
    calc t.namesBy name?
        = (name? t).toList ++ t.children.flatMap fun u => u.preorder.filterMap name? := by
          rw [namesBy_eq, List.flatMap_congr hchildren]
      _ = (t :: t.children.flatMap preorder).filterMap name? := by
          rw [← List.filterMap_flatMap, ← List.singleton_append, List.filterMap_append,
            List.filterMap_eq_flatMap_toList name? [t], List.flatMap_singleton]
      _ = t.preorder.filterMap name? := by rw [← preorder_eq]

end Tree

namespace Label

open LoweringIR.Tree (namesBy namesBy_eq occurrences occurrences_eq)

/-! ### Turns -/

/-- A walk between two turns: the trees whose turn is still to come, the next one first, and the
names gathered so far. -/
structure Gathering where
  stack : List Tree
  names : List String

/-- A walk before its first turn. -/
def Gathering.start (t : Tree) : Gathering := ⟨[t], []⟩

/-- A name is put behind those gathered so far. -/
def putLast (names : List String) (n : String) : List String := names ++ [n]

/-- A name is put behind those gathered so far, unless it is one of them. -/
def putNew (names : List String) (n : String) : List String :=
  if n ∈ names then names else names ++ [n]

/-- One turn of a walk that looks for `name?` and puts names together by `put`. -/
inductive Turn (name? : Tree → Option String) (put : List String → String → List String) :
    Gathering → Gathering → Prop
  | visit {t : Tree} {stack : List Tree} {names : List String} :
      Turn name? put ⟨t :: stack, names⟩ ⟨t.children ++ stack, (name? t).toList.foldl put names⟩

/-- So many turns. -/
inductive Turns (name? : Tree → Option String) (put : List String → String → List String) :
    Nat → Gathering → Gathering → Prop
  | refl {s : Gathering} : Turns name? put 0 s s
  | head {n : Nat} {s s' s'' : Gathering} (first : Turn name? put s s')
      (rest : Turns name? put n s' s'') : Turns name? put (n + 1) s s''

/-- The walk over a tree ends with these names, after one turn for every node and no sooner. -/
structure Gathers (name? : Tree → Option String) (put : List String → String → List String)
    (t : Tree) (names : List String) : Prop where
  /-- It gets there. -/
  ends : Turns name? put t.occurrences (.start t) ⟨[], names⟩
  /-- Whatever it has got to, it is not beyond the end, and nowhere else is the stack empty. -/
  count : ∀ n s, Turns name? put n (.start t) s →
    n ≤ t.occurrences ∧ (s.stack = [] ↔ n = t.occurrences)

variable {name? : Tree → Option String} {put : List String → String → List String} {t : Tree}
  {s s' : Gathering} {n : Nat}

/-- The names that a walk will have gathered in the end. -/
def Gathering.outcome (name? : Tree → Option String) (put : List String → String → List String)
    (s : Gathering) : List String :=
  (s.stack.flatMap (namesBy name?)).foldl put s.names

/-- The number of turns that are left. -/
def Gathering.remaining (s : Gathering) : Nat := (s.stack.map occurrences).sum

/-- **What one turn preserves.** -/
theorem Turn.outcome_eq (h : Turn name? put s s') :
    s'.outcome name? put = s.outcome name? put := by
  cases h
  simp only [Gathering.outcome, List.flatMap_append, List.flatMap_cons, namesBy_eq,
    List.foldl_append]

/-- After a turn there is one turn less to take. -/
theorem Turn.remaining_eq (h : Turn name? put s s') : s'.remaining + 1 = s.remaining := by
  cases h with
  | @visit t stack names =>
    have ht := occurrences_eq t
    simp only [Gathering.remaining, List.map_append, List.sum_append_nat, List.map_cons,
      List.sum_cons]
    omega

/-- **What any number of turns preserves.** -/
theorem Turns.outcome_eq (h : Turns name? put n s s') :
    s'.outcome name? put = s.outcome name? put := by
  induction h with
  | refl => rfl
  | head first _ ih => rw [ih, first.outcome_eq]

theorem Turns.remaining_eq (h : Turns name? put n s s') : s'.remaining + n = s.remaining := by
  induction h with
  | refl => rfl
  | head first _ ih =>
    have hfirst := first.remaining_eq
    omega

/-- The stack is empty when no turns are left, since every tree on it takes one. -/
theorem Gathering.stack_eq_nil_iff (s : Gathering) : s.stack = [] ↔ s.remaining = 0 := by
  obtain ⟨stack, names⟩ := s
  cases stack with
  | nil => simp [remaining]
  | cons t stack =>
    have ht := occurrences_eq t
    simp only [remaining, List.map_cons, List.sum_cons, reduceCtorEq, false_iff]
    omega

/-- A walk gets to its end from wherever it stands. -/
theorem Gathering.turns (s : Gathering) :
    Turns name? put s.remaining s ⟨[], s.outcome name? put⟩ := by
  induction hn : s.remaining generalizing s with
  | zero =>
    obtain ⟨stack, names⟩ := s
    obtain rfl : stack = [] := (Gathering.stack_eq_nil_iff _).mpr hn
    exact .refl
  | succ n ih =>
    obtain ⟨stack, names⟩ := s
    cases stack with
    | nil => simp [remaining] at hn
    | cons t stack =>
      have hturn : Turn name? put ⟨t :: stack, names⟩
        ⟨t.children ++ stack, (name? t).toList.foldl put names⟩ := .visit
      have hrest := hturn.remaining_eq
      have hend := ih ⟨t.children ++ stack, (name? t).toList.foldl put names⟩ (by omega)
      rw [hturn.outcome_eq] at hend
      exact .head hturn hend

/-- **A walk ends after one turn for every node**, with the names that the tree lists by recursion.
-/
theorem gathers (name? : Tree → Option String) (put : List String → String → List String)
    (t : Tree) : Gathers name? put t ((t.namesBy name?).foldl put []) := by
  have hremaining : (Gathering.start t).remaining = t.occurrences := by
    simp [Gathering.start, Gathering.remaining]
  have houtcome : (Gathering.start t).outcome name? put = (t.namesBy name?).foldl put [] := by
    simp [Gathering.start, Gathering.outcome]
  refine ⟨?_, fun n s h => ?_⟩
  · rw [← hremaining, ← houtcome]
    exact Gathering.turns _
  · have hcount := h.remaining_eq
    rw [s.stack_eq_nil_iff]
    omega

/-! ### The two walks -/

theorem foldl_putLast (names ns : List String) : ns.foldl putLast names = names ++ ns := by
  induction ns generalizing names with
  | nil => simp
  | cons n ns ih => simp [ih, putLast]

/-- Putting together what is new leaves out what has been seen. -/
theorem foldl_putNew (seen ns : List String) :
    ns.foldl putNew seen.reverse = firstSeen seen ns := by
  induction ns generalizing seen with
  | nil => rfl
  | cons n ns ih =>
    rw [List.foldl_cons, firstSeen, putNew]
    by_cases hn : n ∈ seen
    · simpa [hn] using ih seen
    · simpa [hn] using ih (n :: seen)

theorem heading?_eq_some_named? {u : Tree} {a : String} (h : heading? u = some a) :
    named? u = some a :=
  named?_eq_some_iff.mpr (.inl (heading?_eq_some_iff.mp h))

/-- **Both walks gather in pre-order.** The walk for the names that head blocks ends with those that
the tree lists by recursion, as often as they do. The walk for all names ends with those that the
tree lists, each where it comes first and nowhere else. No name that heads a block is left out. -/
theorem gathering_preorder (t : Tree) :
    (Gathers heading? putLast t (headings t) ∧ headings t = t.namesBy heading?) ∧
    (Gathers named? putNew t (collect t) ∧ collect t = (t.namesBy named?).eraseDups) ∧
    (collect t).Nodup ∧ headings t ⊆ collect t := by
  have hheadings : headings t = t.namesBy heading? := by
    rw [headings, Tree.namesBy_eq_preorder]
  have hcollect : collect t = firstSeen [] (t.namesBy named?) := by
    rw [collect, Tree.namesBy_eq_preorder]
  refine ⟨⟨?_, hheadings⟩, ⟨?_, ?_⟩, ?_, fun n hn => ?_⟩
  · have h := gathers heading? putLast t
    rwa [foldl_putLast, List.nil_append, ← hheadings] at h
  · have h := gathers named? putNew t
    rwa [← List.reverse_nil, foldl_putNew, ← hcollect] at h
  · rw [hcollect, firstSeen_eq_eraseDups]
  · exact nodup_firstSeen .nil
  · obtain ⟨u, hu, hname⟩ := List.mem_filterMap.mp hn
    rw [collect, mem_firstSeen_iff]
    exact .inr (List.mem_filterMap.mpr ⟨u, hu, heading?_eq_some_named? hname⟩)

end Label

end LoweringIR
