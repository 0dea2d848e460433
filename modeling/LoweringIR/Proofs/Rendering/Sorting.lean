import LoweringIR.Proofs.Arrangement
import LoweringIR.Proofs.Rendering.Text
import Mathlib.Data.List.Perm.Basic

/-!
# Sorting a tree

The unordered collections of a tree can be put in ascending order where they stand. What this does
is said twice. `Tree.sort` is a fold that sorts by the shape of a field. `Tree.SortsTo` goes by the
kind of a node instead: it names the twelve kinds that have an unordered collection, says for each
of them which field that is and by what it is sorted, and leaves every other kind alone. It asks for
stably sorted collections and mentions no algorithm. The two agree on well-formed trees, so a kind
that sorted the wrong field, or one that has an order, would show.

## Main definitions

* `Kind.Sorts` — the fields of a node with its unordered collection sorted, kind by kind
* `Tree.SortsTo`, `Tree.sort` — a tree with all its unordered collections sorted

## Main results

* `Kind.sorts_iff`, `Tree.sortsTo_iff` — sorting by kinds is sorting by shapes
-/

namespace LoweringIR

open Arrangement (StablySorted nameLE namesLE)

/-! ### Sorting by kinds -/

namespace Kind

/-- The kinds that hold a set of names. -/
def nameSets : List Kind :=
  [.common .scheme .locals, .common .regalloc .locals, .scheme .assigned, .regalloc .ulocals,
    .regalloc .spills, .regalloc .callLive]

/-- The kinds that bind names to nodes in no order. -/
def bindingLists : List Kind := [.scheme .letIn, .scheme .letrec]

/-- The kinds that hold a conflict graph. -/
def conflictGraphs : List Kind := [.regalloc .registerConflict, .regalloc .frameConflict]

/-- The kinds with an unordered collection. -/
def unordered : List Kind :=
  nameSets ++ bindingLists ++ conflictGraphs ++ [.regalloc .locate, .regalloc .newFrames]

/-- The fields of a node of some kind before and after its unordered collection is stably sorted.
It is the first of two fields; the second is a node. -/
inductive Sorts {α : Type} : Kind → List (Field α) → List (Field α) → Prop
  | names {k : Kind} {ns ms : List String} {tail : α} (hk : k ∈ nameSets)
      (h : StablySorted nameLE id ns ms) :
      Sorts k [.nameSet ns, .node tail] [.nameSet ms, .node tail]
  /-- Bindings are sorted by name. A value stays with its name. -/
  | bindings {k : Kind} {es ds : List (String × α)} {tail : α} (hk : k ∈ bindingLists)
      (h : StablySorted nameLE Prod.fst es ds) :
      Sorts k [.bindings es, .node tail] [.bindings ds, .node tail]
  | locations {es ds : List (String × String)} {tail : α} (h : StablySorted nameLE Prod.fst es ds) :
      Sorts (.regalloc .locate) [.locations es, .node tail] [.locations ds, .node tail]
  /-- The entries are sorted by variable, and inside them the conflicts. -/
  | graph {k : Kind} {es ds gs : List (String × List String)} {tail : α} (hk : k ∈ conflictGraphs)
      (inner : List.Forall₂ (fun e d => e.1 = d.1 ∧ StablySorted nameLE id e.2 d.2) es ds)
      (outer : StablySorted nameLE Prod.fst ds gs) :
      Sorts k [.graph es, .node tail] [.graph gs, .node tail]
  /-- Frames are sorted, but not the names inside them. -/
  | frames {fs gs : List (List String)} {tail : α} (h : StablySorted namesLE id fs gs) :
      Sorts (.regalloc .newFrames) [.frames fs, .node tail] [.frames gs, .node tail]
  /-- A node of any other kind stays as it is. -/
  | ordered {k : Kind} {fs : List (Field α)} (hk : k ∉ unordered) : Sorts k fs fs

end Kind

/-! ### Sorting by shapes -/

namespace Field

variable {α β : Type} {a : Arrangement} {x : Field α}

@[simp] theorem shape_arrange (a : Arrangement) (x : Field α) : (x.arrange a).shape = x.shape := by
  cases x <;> rfl

@[simp] theorem arrange_insertion (x : Field α) : x.arrange .insertion = x := by
  cases x with
  | graph g =>
    have hid : (fun e : String × List String => (e.1, Arrangement.insertion.names e.2)) = id := rfl
    rw [arrange, Arrangement.graph, hid, List.map_id]
    rfl
  | _ => rfl

/-- Laying out a field does not look at its children. -/
theorem map_arrange (g : α → β) (x : Field α) : (x.arrange a).map g = (x.map g).arrange a := by
  cases x with
  | bindings es =>
    have hnames : ∀ e : String × α, Prod.fst (e.1, g e.2) = e.1 := fun _ => rfl
    exact congrArg Field.bindings (Arrangement.map_arrangeOn a hnames es)
  | _ => rfl

theorem children_arrange_perm (a : Arrangement) (x : Field α) :
    (x.arrange a).children.Perm x.children := by
  cases x with
  | bindings es => exact (Arrangement.arrangeOn_perm ..).map _
  | _ => exact .refl _

/-- A field that is sorted stays as it is. -/
theorem arrange_arrange_sorted (x : Field α) :
    (x.arrange .sorted).arrange .sorted = x.arrange .sorted := by
  cases x with
  | nameSet ns =>
    exact congrArg Field.nameSet (Arrangement.arrangeOn_arrangeOn Arrangement.nameLE_isOrder _ ns)
  | bindings es =>
    exact congrArg Field.bindings (Arrangement.arrangeOn_arrangeOn Arrangement.nameLE_isOrder _ es)
  | locations es =>
    exact congrArg Field.locations (Arrangement.arrangeOn_arrangeOn Arrangement.nameLE_isOrder _ es)
  | graph g => exact congrArg Field.graph (Arrangement.graph_graph g)
  | frames fs =>
    exact congrArg Field.frames (Arrangement.arrangeOn_arrangeOn Arrangement.namesLE_isOrder _ fs)
  | _ => rfl

theorem shape_eq_nameSet_iff : x.shape = .nameSet ↔ ∃ ns, x = .nameSet ns := by
  cases x <;> simp [shape]

theorem shape_eq_bindings_iff : x.shape = .bindings ↔ ∃ es, x = .bindings es := by
  cases x <;> simp [shape]

theorem shape_eq_locations_iff : x.shape = .locations ↔ ∃ es, x = .locations es := by
  cases x <;> simp [shape]

theorem shape_eq_graph_iff : x.shape = .graph ↔ ∃ g, x = .graph g := by
  cases x <;> simp [shape]

theorem shape_eq_frames_iff : x.shape = .frames ↔ ∃ fs, x = .frames fs := by
  cases x <;> simp [shape]

/-- Two fields of which the second is a node. -/
theorem eq_pair_of_shapes {s : Shape} {fs : List (Field α)} (h : fs.map shape = [s, .node]) :
    ∃ (x : Field α) (tail : α), x.shape = s ∧ fs = [x, .node tail] := by
  obtain ⟨x, rest, rfl, hx, hrest⟩ := List.map_eq_cons_iff.mp h
  obtain ⟨tail, rfl⟩ := eq_node_of_shapes hrest
  exact ⟨x, tail, hx, rfl⟩

end Field

/-- What a field of this shape holds has no order of its own. -/
def Shape.isUnordered : Shape → Bool
  | .nameSet | .bindings | .locations | .graph | .frames => true
  | _ => false

theorem Field.arrange_of_ordered {α : Type} {x : Field α} (h : x.shape.isUnordered = false)
    (a : Arrangement) : x.arrange a = x := by
  cases x <;> first | rfl | cases h

/-- Only the kinds that are named have an unordered collection. -/
theorem Kind.ordered_of_notMem_unordered {k : Kind} (hk : k ∉ Kind.unordered) :
    ∀ s ∈ k.schema.map Prod.snd, s.isUnordered = false := by
  rcases k with ⟨d, k⟩ | k | k | k
  · cases d <;> cases k <;> revert hk <;> decide
  all_goals cases k <;> revert hk <;> decide

/-! ### The two agree -/

namespace Kind

theorem schema_of_mem_nameSets : ∀ k ∈ nameSets, k.schema.map Prod.snd = [.nameSet, .node] := by
  decide

theorem schema_of_mem_bindingLists :
    ∀ k ∈ bindingLists, k.schema.map Prod.snd = [.bindings, .node] := by
  decide

theorem schema_of_mem_conflictGraphs :
    ∀ k ∈ conflictGraphs, k.schema.map Prod.snd = [.graph, .node] := by
  decide

variable {α : Type} {k : Kind} {fs gs : List (Field α)}

theorem map_arrange_of_notMem_unordered (hk : k ∉ unordered)
    (hshapes : fs.map Field.shape = k.schema.map Prod.snd) (a : Arrangement) :
    fs.map (Field.arrange a) = fs := by
  refine (List.map_congr_left fun x hx => ?_).trans fs.map_id
  have hx : x.shape ∈ k.schema.map Prod.snd := hshapes ▸ List.mem_map_of_mem hx
  exact Field.arrange_of_ordered (ordered_of_notMem_unordered hk _ hx) a

theorem forall₂_stablySorted_iff {es ds : List (String × List String)} :
    List.Forall₂ (fun e d => e.1 = d.1 ∧ StablySorted nameLE id e.2 d.2) es ds ↔
      ds = es.map fun e => (e.1, Arrangement.sorted.names e.2) := by
  have hentry : ∀ e d : String × List String, (e.1 = d.1 ∧ StablySorted nameLE id e.2 d.2) ↔
      (e.1, Arrangement.sorted.names e.2) = d := by
    intro e d
    rw [Arrangement.stablySorted_iff Arrangement.nameLE_isOrder, Prod.ext_iff]
    exact and_congr_right fun _ => eq_comm
  rw [@eq_comm _ ds, ← List.forall₂_eq_eq_eq, List.forall₂_map_left_iff]
  simp only [hentry]

theorem Sorts.eq_map_arrange (hshapes : fs.map Field.shape = k.schema.map Prod.snd)
    (h : k.Sorts fs gs) : gs = fs.map (Field.arrange .sorted) := by
  cases h with
  | names hk h =>
    rw [(Arrangement.stablySorted_iff Arrangement.nameLE_isOrder).mp h]
    rfl
  | bindings hk h =>
    rw [(Arrangement.stablySorted_iff Arrangement.nameLE_isOrder).mp h]
    rfl
  | locations h =>
    rw [(Arrangement.stablySorted_iff Arrangement.nameLE_isOrder).mp h]
    rfl
  | graph hk inner outer =>
    rw [(Arrangement.stablySorted_iff Arrangement.nameLE_isOrder).mp outer,
      forall₂_stablySorted_iff.mp inner, List.map_cons, Field.arrange, Arrangement.graph_eq]
    rfl
  | frames h =>
    rw [(Arrangement.stablySorted_iff Arrangement.namesLE_isOrder).mp h]
    rfl
  | ordered hk => exact (map_arrange_of_notMem_unordered hk hshapes _).symm

theorem sorts_map_arrange (hshapes : fs.map Field.shape = k.schema.map Prod.snd) :
    k.Sorts fs (fs.map (Field.arrange .sorted)) := by
  have hnames : ∀ {β : Type} {key : β → String} {as : List β},
      StablySorted nameLE key as (Arrangement.arrangeOn nameLE key .sorted as) :=
    (Arrangement.stablySorted_iff Arrangement.nameLE_isOrder).mpr rfl
  by_cases hk : k ∈ unordered
  · simp only [unordered, List.mem_append, List.mem_cons, List.not_mem_nil, or_false] at hk
    rcases hk with ((hk | hk) | hk) | rfl | rfl
    · rw [schema_of_mem_nameSets k hk] at hshapes
      obtain ⟨x, tail, hx, rfl⟩ := Field.eq_pair_of_shapes hshapes
      obtain ⟨ns, rfl⟩ := Field.shape_eq_nameSet_iff.mp hx
      exact .names hk hnames
    · rw [schema_of_mem_bindingLists k hk] at hshapes
      obtain ⟨x, tail, hx, rfl⟩ := Field.eq_pair_of_shapes hshapes
      obtain ⟨es, rfl⟩ := Field.shape_eq_bindings_iff.mp hx
      exact .bindings hk hnames
    · rw [schema_of_mem_conflictGraphs k hk] at hshapes
      obtain ⟨x, tail, hx, rfl⟩ := Field.eq_pair_of_shapes hshapes
      obtain ⟨g, rfl⟩ := Field.shape_eq_graph_iff.mp hx
      rw [List.map_cons, Field.arrange, Arrangement.graph_eq]
      exact .graph hk (forall₂_stablySorted_iff.mpr rfl) hnames
    · obtain ⟨x, tail, hx, rfl⟩ := Field.eq_pair_of_shapes hshapes
      obtain ⟨es, rfl⟩ := Field.shape_eq_locations_iff.mp hx
      exact .locations hnames
    · obtain ⟨x, tail, hx, rfl⟩ := Field.eq_pair_of_shapes hshapes
      obtain ⟨gs, rfl⟩ := Field.shape_eq_frames_iff.mp hx
      exact .frames ((Arrangement.stablySorted_iff Arrangement.namesLE_isOrder).mpr rfl)
  · rw [map_arrange_of_notMem_unordered hk hshapes]
    exact .ordered hk

/-- **Sorting by kinds is sorting by shapes**, for fields with the shapes of their kind. -/
theorem sorts_iff (hshapes : fs.map Field.shape = k.schema.map Prod.snd) :
    k.Sorts fs gs ↔ gs = fs.map (Field.arrange .sorted) := by
  constructor
  · exact Sorts.eq_map_arrange hshapes
  · rintro rfl
    exact sorts_map_arrange hshapes

end Kind

/-! ### Sorted trees -/

namespace Tree

/-- The unordered collections of a tree are stably sorted, at any depth, and nothing else is
changed. Where a child stands, `pairs` has the child and what becomes of it. -/
inductive SortsTo : Tree → Tree → Prop
  | blank (f : Option Family) (n : Nat) : SortsTo (.blank f n) (.blank f n)
  | node (k : Kind) {pairs : List (Field (Tree × Tree))} {gs : List (Field Tree)}
      (children : ∀ x ∈ pairs, ∀ p ∈ x.children, SortsTo p.1 p.2)
      (fields : k.Sorts (pairs.map (Field.map Prod.snd)) gs) :
      SortsTo (.node k (pairs.map (Field.map Prod.fst))) (.node k gs)

/-- The tree with its unordered collections sorted. -/
def sort : Tree → Tree := fold blank fun k fs => node k (fs.map (Field.arrange .sorted))

variable {k : Kind} {fs : List (Field Tree)} {s t : Tree}

@[simp] theorem sort_blank (f : Option Family) (n : Nat) : (blank f n).sort = blank f n := by
  simp [sort]

theorem sort_node (k : Kind) (fs : List (Field Tree)) :
    (node k fs).sort = node k ((fs.map (Field.map sort)).map (Field.arrange .sorted)) := by
  rw [sort, fold_node, ← sort]

@[simp] theorem kind?_sort (t : Tree) : t.sort.kind? = t.kind? := by
  cases t with
  | blank f n => rw [sort_blank]
  | node k fs => rw [sort_node]; rfl

@[simp] theorem family?_sort (t : Tree) : t.sort.family? = t.family? := by
  cases t with
  | blank f n => rw [sort_blank]
  | node k fs => rw [sort_node]; rfl

/-- What a tree is sorted to has no choice, by induction on how it was sorted. -/
theorem SortsTo.eq_sort (hw : t.WellFormed) (h : SortsTo t s) : s = t.sort := by
  induction h with
  | blank f n => rw [sort_blank]
  | @node k pairs gs children fields ih =>
    obtain ⟨hfits, hchildren⟩ := wellFormed_node_iff.mp hw
    have hpairs : pairs.map (Field.map Prod.snd) =
        (pairs.map (Field.map Prod.fst)).map (Field.map sort) := by
      rw [List.map_map]
      refine List.map_congr_left fun x hx => ?_
      rw [Function.comp_apply, Field.map_map]
      refine Field.map_congr fun p hp => ih x hx p hp (hchildren p.1 ?_)
      rw [Field.flatMap_children_map]
      exact List.mem_map_of_mem (List.mem_flatMap.mpr ⟨x, hx, hp⟩)
    rw [hpairs, Kind.sorts_iff ((Field.map_shape_map ..).trans hfits.shapes)] at fields
    rw [fields, sort_node]

theorem sortsTo_sort (hw : t.WellFormed) : SortsTo t t.sort := by
  induction t using induct with
  | blank f n => rw [sort_blank]; exact .blank f n
  | node k fs ih =>
    obtain ⟨hfits, hchildren⟩ := wellFormed_node_iff.mp hw
    have hfst : (fs.map (Field.map fun u => (u, u.sort))).map (Field.map Prod.fst) = fs :=
      Field.map_map_eq_self fun _ _ _ _ => rfl
    have hsnd : (fs.map (Field.map fun u => (u, u.sort))).map (Field.map Prod.snd) =
        fs.map (Field.map sort) := by
      simp [Function.comp_def]
    have h : SortsTo
        (.node k ((fs.map (Field.map fun u => (u, u.sort))).map (Field.map Prod.fst)))
        (node k fs).sort := by
      rw [sort_node]
      refine .node k ?_ ?_
      · intro x hx p hp
        obtain ⟨y, hy, rfl⟩ := List.mem_map.mp hx
        rw [Field.children_map] at hp
        obtain ⟨u, hu, rfl⟩ := List.mem_map.mp hp
        exact ih y hy u hu (hchildren u (List.mem_flatMap.mpr ⟨y, hy, hu⟩))
      · rw [hsnd]
        exact Kind.sorts_map_arrange ((Field.map_shape_map ..).trans hfits.shapes)
    rwa [hfst] at h

/-- **There is one tree with the collections of a tree stably sorted.** -/
theorem sortsTo_iff (hw : t.WellFormed) : SortsTo t s ↔ s = t.sort := by
  constructor
  · exact SortsTo.eq_sort hw
  · rintro rfl
    exact sortsTo_sort hw

end Tree

end LoweringIR
