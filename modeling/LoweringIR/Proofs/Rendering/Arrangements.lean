import LoweringIR.Proofs.Rendering.Sorting

/-!
# The two arrangements of one tree

A tree can be sorted instead of its text. The sorted tree, written as it is, has the sorted text of
the tree it came from, so the two arrangements differ in the order of unordered collections and in
nothing else.

Sorting changes neither the kinds in a tree nor where they stand, except that bindings change
places, each with its value. So a sorted tree is well formed if the tree was, and its texts are
those of the laws of `Rendering.Text`.

## Main results

* `Tree.sort_sort`, `Tree.WellFormed.sort` — what sorting keeps
* `Tree.text_sort` — the sorted text is the text of the sorted tree
* `Tree.render_sorted_eq_insertion` — the arrangements differ in the order of unordered collections
-/

namespace LoweringIR

namespace Tree

variable {k : Kind} {fs : List (Field Tree)} {t : Tree}

/-! ### What sorting keeps -/

theorem map_map_arrange {α β : Type} (g : α → β) (a : Arrangement) (fs : List (Field α)) :
    (fs.map (Field.arrange a)).map (Field.map g) =
      (fs.map (Field.map g)).map (Field.arrange a) := by
  rw [List.map_map, List.map_map]
  exact List.map_congr_left fun x _ => Field.map_arrange g x

/-- Sorting a sorted tree changes nothing. -/
theorem sort_sort (t : Tree) : t.sort.sort = t.sort := by
  induction t using induct with
  | blank f n => rw [sort_blank, sort_blank]
  | node k fs ih =>
    have hchildren : (fs.map (Field.map sort)).map (Field.map sort) = fs.map (Field.map sort) := by
      rw [List.map_map]
      refine List.map_congr_left fun x hx => ?_
      rw [Function.comp_apply, Field.map_map]
      exact Field.map_congr fun u hu => ih x hx u hu
    rw [sort_node, sort_node, map_map_arrange, hchildren, List.map_map]
    exact congrArg (node k) (List.map_congr_left fun x _ => x.arrange_arrange_sorted)

theorem mem_children_sort_iff {u : Tree} :
    u ∈ ((fs.map (Field.map sort)).map (Field.arrange .sorted)).flatMap Field.children ↔
      ∃ v ∈ fs.flatMap Field.children, v.sort = u := by
  have hperm : ∀ gs : List (Field Tree),
      ((gs.map (Field.arrange .sorted)).flatMap Field.children).Perm
        (gs.flatMap Field.children) := by
    intro gs
    rw [List.flatMap_map]
    exact List.Perm.flatMap_left gs fun x _ => x.children_arrange_perm .sorted
  rw [(hperm _).mem_iff, Field.flatMap_children_map, List.mem_map]

theorem whole_sort_iff (t : Tree) : t.sort.Whole ↔ t.Whole := by
  induction t using induct with
  | blank f n => rw [sort_blank]
  | node k fs ih =>
    simp only [sort_node, whole_node_iff, mem_children_sort_iff]
    constructor
    · intro h u hu
      obtain ⟨x, hx, hux⟩ := List.mem_flatMap.mp hu
      exact (ih x hx u hux).mp (h u.sort ⟨u, hu, rfl⟩)
    · rintro h _ ⟨u, hu, rfl⟩
      obtain ⟨x, hx, hux⟩ := List.mem_flatMap.mp hu
      exact (ih x hx u hux).mpr (h u hu)

end Tree

namespace Kind

variable {k : Kind} {fs : List (Field Tree)}

/-- Of the kinds with an unordered collection only one asks for more than the shapes of its fields,
and what it asks for is asked of every binding. -/
theorem Admits.arrange (hk : k ∈ unordered) (hshapes : fs.map Field.shape = k.schema.map Prod.snd)
    (h : k.Admits fs) (a : Arrangement) : k.Admits (fs.map (Field.arrange a)) := by
  have hcases : k = .scheme .letrec ∨ ∀ gs, k.Admits gs := by
    simp only [unordered, nameSets, bindingLists, conflictGraphs, List.cons_append,
      List.nil_append, List.mem_cons, List.not_mem_nil, or_false] at hk
    rcases hk with rfl | rfl | rfl | rfl | rfl | rfl | rfl | rfl | rfl | rfl | rfl | rfl <;>
      first | exact .inl rfl | exact .inr fun _ => trivial
  rcases hcases with rfl | hall
  · obtain ⟨x, tail, hx, rfl⟩ := Field.eq_pair_of_shapes hshapes
    obtain ⟨es, rfl⟩ := Field.shape_eq_bindings_iff.mp hx
    have hes : ∀ e ∈ es, e.2.kind? = some (.scheme .lambda) := h
    show ∀ e ∈ a.entries es, e.2.kind? = some (.scheme .lambda)
    exact fun e he => hes e ((Arrangement.arrangeOn_perm ..).mem_iff.mp he)
  · exact hall _

/-- Sorted fields with sorted children fit a kind as the fields did. -/
theorem Fits.sort (h : k.Fits fs) :
    k.Fits ((fs.map (Field.map Tree.sort)).map (Field.arrange .sorted)) := by
  have hshapes : (fs.map (Field.map Tree.sort)).map Field.shape = k.schema.map Prod.snd :=
    (Field.map_shape_map ..).trans h.shapes
  have hadmitted := h.admitted.map Tree.kind?_sort
  refine ⟨?_, ?_, ?_⟩
  · rw [← hshapes, List.map_map]
    exact List.map_congr_left fun x _ => x.shape_arrange .sorted
  · intro u hu
    obtain ⟨v, hv, rfl⟩ := Tree.mem_children_sort_iff.mp hu
    rw [Tree.family?_sort]
    exact h.family v hv
  · by_cases hk : k ∈ unordered
    · exact hadmitted.arrange hk hshapes _
    · rwa [map_arrange_of_notMem_unordered hk hshapes]

end Kind

namespace Tree

variable {t : Tree}

/-- Sorting makes a tree of the same kinds. -/
theorem WellFormed.sort (hw : t.WellFormed) : t.sort.WellFormed := by
  induction t using induct with
  | blank f n => rwa [sort_blank]
  | node k fs ih =>
    obtain ⟨hfits, hchildren⟩ := wellFormed_node_iff.mp hw
    rw [sort_node, wellFormed_node_iff]
    refine ⟨hfits.sort, fun u hu => ?_⟩
    obtain ⟨v, hv, rfl⟩ := mem_children_sort_iff.mp hu
    obtain ⟨x, hx, hvx⟩ := List.mem_flatMap.mp hv
    exact ih x hx v hvx (hchildren v hv)

/-! ### The text of a sorted tree -/

theorem Role.of_map_arrange {α : Type} (a : Arrangement) (k : Kind) (fs : List (Field α)) :
    Role.of k (fs.map (Field.arrange a)) = .of k fs :=
  of_map_fields (fun x b => by cases x <;> simp [Field.arrange]) k fs

theorem part_sort (t : Tree) : t.sort.part .insertion = t.part .sorted := by
  induction t using induct with
  | blank f n => simp [part]
  | node k fs ih =>
    have hrole : Role.of k ((fs.map (Field.map sort)).map (Field.arrange .sorted)) = .of k fs := by
      rw [Role.of_map_arrange, Role.of_map]
    have hchildren : (fs.map (Field.map sort)).map (Field.map (part .insertion)) =
        fs.map (Field.map (part .sorted)) := by
      rw [List.map_map]
      refine List.map_congr_left fun x hx => ?_
      rw [Function.comp_apply, Field.map_map]
      exact Field.map_congr fun u hu => ih x hx u hu
    have hinsertion : ∀ gs : List (Field Part), gs.map (Field.arrange .insertion) = gs :=
      fun gs => (List.map_congr_left fun x _ => x.arrange_insertion).trans gs.map_id
    rw [sort_node, part_node, part_node, hrole, map_map_arrange, hchildren, hinsertion]

/-- **The sorted text is the text of the sorted tree.** -/
theorem text_sort (t : Tree) : t.sort.text .insertion = t.text .sorted := by
  rw [text, part_sort, text]

theorem render_sort (hw : t.WellFormed) : t.sort.render .insertion = t.render .sorted := by
  by_cases hc : t.Whole
  · rw [render_eq_text hw hc, render_eq_text hw.sort ((whole_sort_iff t).mpr hc), text_sort]
  · rw [render_eq_error hw hc, render_eq_error hw.sort (mt (whole_sort_iff t).mp hc), family?_sort]

/-- Assembly has no unordered collections. -/
theorem sort_asm (hw : t.WellFormed) (hf : t.family? = some .asm) : t.sort = t := by
  refine hw.induct_asm (P := fun t => t.sort = t) hf sort_blank fun k fs hw ih => ?_
  have hchildren : fs.map (Field.map sort) = fs := by
    refine (List.map_congr_left fun x hx => ?_).trans fs.map_id
    have hx : x.map sort = x.map id :=
      Field.map_congr fun u hu => ih u (List.mem_flatMap.mpr ⟨x, hx, hu⟩)
    rw [hx, Field.map_id, id]
  have hordered : Kind.asm k ∉ Kind.unordered := by
    cases k <;> decide
  rw [sort_node, hchildren, Kind.map_arrange_of_notMem_unordered hordered hw.fits.shapes]

/-- Assembly is rendered alike in both arrangements. -/
theorem render_asm (hw : t.WellFormed) (hf : t.family? = some .asm) (a : Arrangement) :
    t.render a = t.render .sorted := by
  cases a with
  | sorted => rfl
  | insertion => rw [← render_sort hw, sort_asm hw hf]

/-- **The arrangements differ in nothing but the order of unordered collections.** There is one tree
with the unordered collections of a tree stably sorted, and it is a tree that could have been built.
Written as it is, it has the sorted text of the first; and both arrangements write it alike, since
it is sorted already. -/
theorem render_sorted_eq_insertion (hw : t.WellFormed) :
    (∀ s, SortsTo t s ↔ s = t.sort) ∧ t.sort.WellFormed ∧
      t.render .sorted = t.sort.render .insertion ∧
      t.sort.sort = t.sort ∧
      t.sort.render .sorted = t.sort.render .insertion := by
  refine ⟨fun s => sortsTo_iff hw, hw.sort, (render_sort hw).symm, sort_sort t, ?_⟩
  rw [← render_sort hw.sort, sort_sort]

/-- Bindings around local names. -/
def letNames (bindings : List (String × Int64)) (names : List String) : Tree :=
  .node (.scheme .letIn)
    [.bindings (bindings.map fun e => (e.1, .node (.common .scheme .int64) [.int64 e.2])),
      .node (.node (.common .scheme .locals)
        [.nameSet names, .node (.node (.common .scheme .nop) [])])]

/-- A name that is bound twice keeps the order of its values, though they are not in order. -/
theorem render_letNames :
    (letNames [("b", 2), ("a", 0), ("b", 1)] ["y", "x"]).render .sorted =
        (letNames [("a", 0), ("b", 2), ("b", 1)] ["x", "y"]).render .insertion ∧
      SortsTo (letNames [("b", 2), ("a", 0), ("b", 1)] ["y", "x"])
        (letNames [("a", 0), ("b", 2), ("b", 1)] ["x", "y"]) := by
  have hsort : letNames [("a", 0), ("b", 2), ("b", 1)] ["x", "y"] =
      (letNames [("b", 2), ("a", 0), ("b", 1)] ["y", "x"]).sort := by
    simp [letNames, sort, Field.map, Field.arrange, Arrangement.entries, Arrangement.names,
      Arrangement.arrangeOn, List.mergeSort, Arrangement.nameLE]
  obtain ⟨hsorts, -, hrender, -⟩ :=
    render_sorted_eq_insertion (t := letNames [("b", 2), ("a", 0), ("b", 1)] ["y", "x"])
      (by decide)
  rw [hrender, ← hsort]
  exact ⟨rfl, (hsorts _).mpr hsort⟩

end Tree

end LoweringIR
