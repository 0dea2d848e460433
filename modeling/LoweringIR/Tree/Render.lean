import LoweringIR.Tree.Text
import LoweringIR.Walk

/-!
# Rendering

A tree is rendered from its leaves up: every node is written once the texts of its children are
there. The children are those of `Tree.children`, so a quoted truth value is never written on its
own.

The walk keeps its own stack, and a tree may be as deep as memory allows.
-/

namespace LoweringIR

/-- A tree holds a blank, which has no text. -/
structure BlankFault where
  family : Option Family
deriving DecidableEq, Inhabited

/-- The wording of a blank fault is the name of the blank. -/
def BlankFault.message (e : BlankFault) : String := Tree.blankName e.family

namespace Tree

/-- The text of a tree whose children have the given texts. -/
def format (a : Arrangement) (t : Tree) (texts : List String) : Except BlankFault String :=
  match t with
  | blank f _ => .error ⟨f⟩
  | node k fs =>
    .ok (k.write ((Field.accompanyAll (fs.map (Field.map role)) texts).map (Field.arrange a)))

/-- Rendering as a walk: every node is a branch, put together by `format`. -/
def renderWalk (a : Arrangement) : Walk (Except BlankFault) BlankFault Tree String Tree where
  enter t := .ok (.branch t t.children)
  leave t texts := t.format a texts
  weight := size
  weight_members := by
    intro t u ts h
    cases h
    exact t.size_children

/-- The text of a tree in an arrangement. -/
def render (a : Arrangement) (t : Tree) : Except BlankFault String := (renderWalk a).result t

/-- A tree has the text of its node around the texts of its children, and the first child without a
text leaves it without one. -/
theorem render_eq (a : Arrangement) (t : Tree) :
    t.render a =
      match t.children.mapM (render a) with
      | .error e => .error e
      | .ok texts => t.format a texts := by
  have h : render a = (renderWalk a).value := funext fun t => Walk.result_eq_value _ t
  have he : (renderWalk a).enter t = .ok (.branch t t.children) := rfl
  rw [h, Walk.value_eq, he]
  dsimp only
  cases t.children.mapM (renderWalk a).value <;> rfl

end Tree

end LoweringIR
