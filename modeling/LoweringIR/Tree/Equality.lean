import LoweringIR.Tree.Basic

/-!
# Equality of trees

Two trees are equal if they have the same kind at every node, equal fields, and every collection in
the same order; a blank is equal to itself alone. The decision is a fold whose results are tests:
the fold of a tree is the test whether another tree equals it. A field is compared in two parts,
what it holds besides children and the children.
-/

namespace LoweringIR

namespace Field

variable {α β : Type}

/-- What a field holds besides its children, and how many those are. -/
def frame (x : Field α) : Field Unit := x.map fun _ => ()

/-- A field whose children are tests accepts a field with the same frame and accepted children. -/
def accepts (x : Field (α → Bool)) (y : Field α) : Bool :=
  x.frame == y.frame && (x.children.zip y.children).all fun p => p.1 p.2

/-- The fields accept one another one by one. -/
def acceptsAll : List (Field (α → Bool)) → List (Field α) → Bool
  | [], [] => true
  | x :: xs, y :: ys => x.accepts y && acceptsAll xs ys
  | _, _ => false

theorem eq_of_frame_children {x y : Field α} (hf : x.frame = y.frame)
    (hc : x.children = y.children) : x = y := by
  cases x <;> cases y <;> simp_all [frame, map, children]
  next es fs =>
    induction es generalizing fs with
    | nil => cases fs <;> simp_all
    | cons e es ih =>
      cases fs with
      | nil => simp at hc
      | cons f fs =>
        simp only [List.map_cons, List.cons.injEq, Prod.mk.injEq, and_true] at hf hc
        rw [ih fs hf.2 hc.2, Prod.ext hf.1 hc.1]

theorem children_length_of_frame {x : Field α} {y : Field β} (h : x.frame = y.frame) :
    x.children.length = y.children.length := by
  have := congrArg (fun z => z.children.length) h
  simpa [frame] using this

/-- If the children of `x` are tested for equality, so is `x`. -/
theorem accepts_map {x y : Field α} {test : α → α → Bool}
    (h : ∀ a ∈ x.children, ∀ b, test a b = true ↔ a = b) :
    (x.map test).accepts y = true ↔ x = y := by
  have key : ∀ as bs : List α, (∀ a ∈ as, ∀ b, test a b = true ↔ a = b) →
      as.length = bs.length →
      (((as.map test).zip bs).all (fun p => p.1 p.2) = true ↔ as = bs) := by
    intro as
    induction as with
    | nil => intro bs _ hl; cases bs <;> simp_all
    | cons a as ih =>
      intro bs hab hl
      cases bs with
      | nil => simp at hl
      | cons b bs =>
        have := ih bs (fun a ha => hab a (List.mem_cons_of_mem _ ha)) (by simpa using hl)
        simp [hab a (List.mem_cons_self ..) b, ← this]
  have hframe : (x.map test).frame = x.frame := by simp [frame, Function.comp_def]
  simp only [accepts, hframe, children_map, Bool.and_eq_true, beq_iff_eq]
  constructor
  · rintro ⟨hf, hc⟩
    exact eq_of_frame_children hf ((key _ _ h (children_length_of_frame hf)).mp hc)
  · rintro rfl
    exact ⟨rfl, (key _ _ h rfl).mpr rfl⟩

theorem acceptsAll_map {xs ys : List (Field α)} {test : α → α → Bool}
    (h : ∀ x ∈ xs, ∀ a ∈ x.children, ∀ b, test a b = true ↔ a = b) :
    acceptsAll (xs.map (map test)) ys = true ↔ xs = ys := by
  induction xs generalizing ys with
  | nil => cases ys <;> simp [acceptsAll]
  | cons x xs ih =>
    cases ys with
    | nil => simp [acceptsAll]
    | cons y ys =>
      simp [acceptsAll, accepts_map (h x (List.mem_cons_self ..)),
        ih fun x hx => h x (List.mem_cons_of_mem _ hx)]

end Field

namespace Tree

/-- The test for equality with a tree. -/
def test : Tree → Tree → Bool :=
  fold
    (fun f n t => match t with
      | blank g m => f == g && n == m
      | node _ _ => false)
    fun k fs t => match t with
      | blank _ _ => false
      | node l gs => k == l && Field.acceptsAll fs gs

theorem test_iff (t u : Tree) : t.test u = true ↔ t = u := by
  induction t using induct generalizing u with
  | blank f n => cases u <;> simp [test]
  | node k fs ih =>
    cases u with
    | blank g m => simp [test]
    | node l gs =>
      have : (node k fs).test (node l gs) =
          (k == l && Field.acceptsAll (fs.map (Field.map test)) gs) := by
        rw [test, fold_node]
      rw [this, Bool.and_eq_true, beq_iff_eq, Field.acceptsAll_map ih, node.injEq]

instance : DecidableEq Tree := fun t u => decidable_of_iff _ (test_iff t u)

end Tree

end LoweringIR
