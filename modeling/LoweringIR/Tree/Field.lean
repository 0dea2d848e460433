import LoweringIR.Kind

/-!
# Fields

A field is one of the shapes filled in. What stands in the places of child nodes is a parameter, so
one definition serves a node, whose fields hold trees, and every stage of writing it, where they
hold the roles or the texts of those trees. `Field.map` replaces what stands there and touches
nothing else; that it does is the content of the lemmas below.
-/

namespace LoweringIR

/-- One procedure of a closure group: its name, its entry label, and its free variables in order. -/
structure Closure where
  name : String
  label : String
  free : List String
deriving DecidableEq, Inhabited

/-- A field of a node, with `α` in the places of children. -/
inductive Field (α : Type) where
  | name (value : String)
  | flag (value : Bool)
  | int64 (value : Int64)
  | node (child : α)
  | nodes (children : List α)
  | names (values : List String)
  | nameSet (values : List String)
  | bindings (entries : List (String × α))
  | locations (entries : List (String × String))
  | graph (entries : List (String × List String))
  | frames (values : List (List String))
  | records (values : List Closure)
deriving DecidableEq, Inhabited

namespace Field

variable {α β γ : Type}

/-- The shape of a field. -/
def shape : Field α → Shape
  | name _ => .name
  | flag _ => .flag
  | int64 _ => .int64
  | node _ => .node
  | nodes _ => .nodes
  | names _ => .names
  | nameSet _ => .nameSet
  | bindings _ => .bindings
  | locations _ => .locations
  | graph _ => .graph
  | frames _ => .frames
  | records _ => .records

/-- Replaces every child. -/
def map (f : α → β) : Field α → Field β
  | name s => name s
  | flag b => flag b
  | int64 n => int64 n
  | node a => node (f a)
  | nodes as => nodes (as.map f)
  | names ns => names ns
  | nameSet ns => nameSet ns
  | bindings es => bindings (es.map fun e => (e.1, f e.2))
  | locations es => locations es
  | graph es => graph es
  | frames fs => frames fs
  | records rs => records rs

/-- The children in order. -/
def children : Field α → List α
  | node a => [a]
  | nodes as => as
  | bindings es => es.map Prod.snd
  | _ => []

/-- Puts a companion beside every child, in order. Without enough companions the last children are
dropped; `default` stands in for that of a single child. -/
def accompany [Inhabited β] : Field α → List β → Field (α × β)
  | name s, _ => name s
  | flag b, _ => flag b
  | int64 n, _ => int64 n
  | node a, bs => node (a, bs.headD default)
  | nodes as, bs => nodes (as.zip bs)
  | names ns, _ => names ns
  | nameSet ns, _ => nameSet ns
  | bindings es, bs => bindings (es.zipWith (fun e b => (e.1, e.2, b)) bs)
  | locations es, _ => locations es
  | graph es, _ => graph es
  | frames fs, _ => frames fs
  | records rs, _ => records rs

/-- Puts a companion beside every child of several fields, in order. -/
def accompanyAll [Inhabited β] : List (Field α) → List β → List (Field (α × β))
  | [], _ => []
  | f :: fs, bs => f.accompany bs :: accompanyAll fs (bs.drop f.children.length)

@[simp] theorem shape_map (f : α → β) (x : Field α) : (x.map f).shape = x.shape := by
  cases x <;> rfl

@[simp] theorem map_id (x : Field α) : x.map id = x := by
  cases x <;> simp [map]

@[simp] theorem map_map (g : β → γ) (f : α → β) (x : Field α) :
    (x.map f).map g = x.map (g ∘ f) := by
  cases x <;> simp [map]

@[simp] theorem children_map (f : α → β) (x : Field α) :
    (x.map f).children = x.children.map f := by
  cases x <;> simp [map, children, Function.comp_def]

theorem map_congr {f g : α → β} {x : Field α} (h : ∀ a ∈ x.children, f a = g a) :
    x.map f = x.map g := by
  cases x with
  | node a => simp [map, h a (by simp [children])]
  | nodes as => simpa [map, children] using h
  | bindings es => simpa [map] using fun s a hs => h a (List.mem_map_of_mem hs)
  | _ => rfl

/-- Companions computed from the children stand beside the children they come from. -/
@[simp] theorem accompany_map [Inhabited β] (f : α → β) (x : Field α) (bs : List β) :
    x.accompany (x.children.map f ++ bs) = x.map fun a => (a, f a) := by
  cases x with
  | nodes as =>
    simp only [accompany, map, children, nodes.injEq]
    induction as with
    | nil => simp
    | cons a as ih => simp [ih]
  | bindings es =>
    simp only [accompany, map, children, bindings.injEq]
    induction es with
    | nil => simp
    | cons e es ih => simpa using ih
  | _ => simp [accompany, map, children]

@[simp] theorem accompanyAll_map [Inhabited β] (f : α → β) (xs : List (Field α)) :
    accompanyAll xs ((xs.flatMap children).map f) = xs.map fun x => x.map fun a => (a, f a) := by
  induction xs with
  | nil => rfl
  | cons x xs ih =>
    simp only [accompanyAll, List.flatMap_cons, List.map_append, accompany_map, List.map_cons]
    rw [List.drop_left' (by simp), ih]

end Field

end LoweringIR
