import LoweringIR.Proofs.Label.Sequence

/-!
# Sequences of instructions

A sequence may stand among the instructions of a block or of another sequence. It groups them while
a program is put together, and nobody who looks at the program from outside should see it: the
program is what it would be with the instructions of the sequence in the place of the sequence.
`Tree.flatten` puts them there, at any depth and however sequences nest.

This is so among instructions only. Every tree that stands directly in a program is followed by a
line break, so a sequence that stands there is not replaced, nor is one that is the operand of an
instruction. What is inside of it is flattened as everywhere.

## Why nothing is seen

What is gathered from instructions is gathered from one after the other. If what is gathered from a
sequence is what is gathered from its instructions, it makes no difference at which level this is
done (`flatMap_splice`). That is the case for labels and for the pieces of the text, and whatever
can be asked of a program is made of these two.

## Main definitions

* `Tree.flatten` — a tree with sequences among instructions replaced by what is in them
* `Tree.Flat` — a node that has no sequence among its instructions

## Main results

* `Tree.WellFormed.flatten`, `Tree.everywhere_flat_flatten` — what flattening makes
* `Tree.labels_flatten`, `Tree.render_flatten` — what it keeps
* `Label.emit_flatten` — sequences make no difference to a program
-/

namespace LoweringIR

/-! ### Splicing -/

/-- What a tree contributes to a list of instructions that sequences are spliced into. -/
def Tree.instructions : Tree → List Tree
  | .node (.asm .code) [.nodes us] => us
  | t => [t]

/-- The kinds that have a list of instructions. -/
def AsmKind.listsInstructions : AsmKind → Bool
  | .cfg | .code => true
  | _ => false

/-- The fields of a node with the sequences among its instructions spliced in. -/
def AsmKind.splice : AsmKind → List (Field Tree) → List (Field Tree)
  | .cfg, [.name n, .nodes us] => [.name n, .nodes (us.flatMap Tree.instructions)]
  | .code, [.nodes us] => [.nodes (us.flatMap Tree.instructions)]
  | _, fs => fs

/-- Only assembly has instructions. -/
def Kind.splice : Kind → List (Field Tree) → List (Field Tree)
  | .asm k, fs => k.splice fs
  | _, fs => fs

namespace Tree

variable {fs : List (Field Tree)} {t u v : Tree}

/-- What is spliced in stands in the tree. -/
theorem eq_or_mem_of_mem_instructions (h : v ∈ u.instructions) : v = u ∨ v ∈ u.members := by
  unfold instructions at h
  split at h
  · exact .inr (by simpa [members, Field.children] using h)
  · exact .inl (List.mem_singleton.mp h)

theorem flatMap_instructions {β : Type} {g : Tree → List β}
    (hg : ∀ us, g (node (.asm .code) [.nodes us]) = us.flatMap g) (u : Tree) :
    u.instructions.flatMap g = g u := by
  unfold instructions
  split
  · exact (hg _).symm
  · exact List.flatMap_singleton ..

theorem whole_instructions_iff (u : Tree) : (∀ v ∈ u.instructions, v.Whole) ↔ u.Whole := by
  unfold instructions
  split
  · simp [Field.children]
  · simp

end Tree

namespace AsmKind.Takes

variable {k : AsmKind} {fs : List (Field Tree)}

theorem children_splice (h : k.Takes fs) :
    (k.splice fs).flatMap Field.children =
      if k.listsInstructions then (fs.flatMap Field.children).flatMap Tree.instructions
      else fs.flatMap Field.children := by
  cases h with
  | cfg n us => simp [splice, listsInstructions, Field.children]
  | code us => simp [splice, listsInstructions, Field.children]
  | _ => rfl

theorem shape_splice (h : k.Takes fs) : (k.splice fs).map Field.shape = fs.map Field.shape := by
  cases h <;> rfl

/-- The kinds that list instructions admit any. -/
theorem admits_splice (h : k.Takes fs) :
    (Kind.asm k).Admits (k.splice fs) ↔ (Kind.asm k).Admits fs := by
  cases h <;> rfl

theorem piece?_splice (h : k.Takes fs) : k.piece? (k.splice fs) = k.piece? fs := by
  cases h <;> rfl

/-- What stands below a spliced node stood below the node, or one level deeper. -/
theorem exists_of_mem_splice {v : Tree} (h : k.Takes fs)
    (hv : v ∈ (k.splice fs).flatMap Field.children) :
    ∃ u ∈ fs.flatMap Field.children, v = u ∨ v ∈ u.members := by
  rw [h.children_splice] at hv
  split at hv
  · obtain ⟨u, hu, hvu⟩ := List.mem_flatMap.mp hv
    exact ⟨u, hu, Tree.eq_or_mem_of_mem_instructions hvu⟩
  · exact ⟨v, hv, .inl rfl⟩

theorem whole_splice_iff (h : k.Takes fs) :
    (∀ u ∈ (k.splice fs).flatMap Field.children, u.Whole) ↔
      ∀ u ∈ fs.flatMap Field.children, u.Whole := by
  rw [h.children_splice]
  split
  · rw [List.forall_mem_flatMap]
    exact forall₂_congr fun u _ => Tree.whole_instructions_iff u
  · rfl

end AsmKind.Takes

/-- **It makes no difference at which level something is gathered.** -/
theorem flatMap_flatMap_instructions {β : Type} {g : Tree → List β}
    (hg : ∀ us, g (.node (.asm .code) [.nodes us]) = us.flatMap g) (us : List Tree) :
    (us.flatMap Tree.instructions).flatMap g = us.flatMap g := by
  rw [List.flatMap_assoc]
  exact List.flatMap_congr fun u _ => Tree.flatMap_instructions hg u

namespace Tree

variable {k : AsmKind} {fs : List (Field Tree)} {t u v : Tree}

/-! ### Labels and pieces of a sequence -/

/-- The labels of a sequence are those of its instructions. -/
theorem labels_code (us : List Tree) :
    (node (.asm .code) [.nodes us]).labels = us.flatMap labels := by
  simp [labels_node, Kind.piece?, AsmKind.piece?, Field.children]

/-- The pieces of a sequence are those of its instructions. -/
theorem pieces_code (us : List Tree) :
    (node (.asm .code) [.nodes us]).pieces = us.flatMap pieces := by
  rw [pieces_node]
  exact List.flatMap_map ..

theorem labels_splice (h : k.Takes fs) :
    (node (.asm k) (k.splice fs)).labels = (node (.asm k) fs).labels := by
  rw [labels_node, labels_node, Kind.piece?, Kind.piece?, h.piece?_splice, h.children_splice]
  split
  · rw [flatMap_flatMap_instructions labels_code]
  · rfl

theorem pieces_splice (h : k.Takes fs) :
    (node (.asm k) (k.splice fs)).pieces = (node (.asm k) fs).pieces := by
  have hinstructions : ∀ us : List Tree,
      ((us.flatMap instructions).map piecePart).flatMap Prod.snd =
        (us.map piecePart).flatMap Prod.snd := by
    intro us
    rw [List.flatMap_map, List.flatMap_map]
    exact flatMap_flatMap_instructions pieces_code us
  rw [pieces_node, pieces_node]
  cases h with
  | cfg n us => exact congrArg (Piece.heading n :: ·) (hinstructions us)
  | code us => exact hinstructions us
  | _ => rfl

/-! ### Flattening -/

/-- The tree with every sequence among instructions replaced by its own instructions. -/
def flatten : Tree → Tree := fold blank fun k fs => node k (k.splice fs)

/-- A node that lists instructions has no sequence among them. -/
def Flat : Tree → Prop
  | node (.asm k) fs =>
    k.listsInstructions → ∀ u ∈ fs.flatMap Field.children, u.kind? ≠ some (.asm .code)
  | _ => True

@[simp] theorem flatten_blank (f : Option Family) (n : Nat) : (blank f n).flatten = blank f n := by
  simp [flatten]

theorem flatten_asm (k : AsmKind) (fs : List (Field Tree)) :
    (node (.asm k) fs).flatten = node (.asm k) (k.splice (fs.map (Field.map flatten))) := by
  rw [flatten, fold_node, ← flatten]
  rfl

@[simp] theorem kind?_flatten (t : Tree) : t.flatten.kind? = t.kind? := by
  cases t with
  | blank f n => rw [flatten_blank]
  | node k fs => rw [flatten, fold_node]; rfl

@[simp] theorem family?_flatten (t : Tree) : t.flatten.family? = t.family? := by
  cases t with
  | blank f n => rw [flatten_blank]
  | node k fs => rw [flatten, fold_node]; rfl

/-- What stands below a flattened node is a flattened child or stands in one. -/
theorem WellFormed.exists_of_mem_flatten (hw : (node (.asm k) fs).WellFormed)
    (hv : v ∈ (node (.asm k) fs).flatten.members) :
    ∃ u ∈ fs.flatMap Field.children, v = u.flatten ∨ v ∈ u.flatten.members := by
  rw [flatten_asm] at hv
  obtain ⟨u, hu, hvu⟩ := (hw.takes Tree.flatten).exists_of_mem_splice hv
  rw [Field.flatMap_children_map] at hu
  obtain ⟨u', hu', rfl⟩ := List.mem_map.mp hu
  exact ⟨u', hu', hvu⟩

/-- A flattened tree could have been built. -/
theorem WellFormed.flatten (hw : t.WellFormed) (hf : t.family? = some .asm) :
    t.flatten.WellFormed := by
  refine hw.induct_asm (P := fun t => t.flatten.WellFormed) hf ?_ ?_
  · intro f n
    rw [flatten_blank]
    exact wellFormed_blank f n
  · intro k fs hw ih
    have htakes := hw.takes Tree.flatten
    have hbelow : ∀ v ∈ (node (.asm k) fs).flatten.members,
        v.WellFormed ∧ v.family? = some .asm := by
      intro v hv
      obtain ⟨u, hu, hvu⟩ := hw.exists_of_mem_flatten hv
      have hfamily : u.flatten.family? = some .asm :=
        (family?_flatten u).trans (hw.fits.family u hu)
      obtain rfl | hvu := hvu
      · exact ⟨ih u hu, hfamily⟩
      · exact ⟨(ih u hu).of_mem hvu, ((ih u hu).family_of_mem hvu).trans hfamily⟩
    rw [flatten_asm] at hbelow ⊢
    refine wellFormed_node_iff.mpr ⟨⟨?_, fun v hv => (hbelow v hv).2, ?_⟩,
      fun v hv => (hbelow v hv).1⟩
    · rw [htakes.shape_splice, Field.map_shape_map]
      exact hw.fits.shapes
    · exact htakes.admits_splice.mpr (hw.fits.admitted.map kind?_flatten)

/-- A flat tree contributes no sequence. -/
theorem Flat.kind?_of_mem_instructions (h : u.Flat) (hw : u.WellFormed) (hv : v ∈ u.instructions) :
    v.kind? ≠ some (.asm .code) := by
  unfold instructions at hv
  split at hv
  · exact h rfl v (by simpa [Field.children] using hv)
  · next hcode =>
    obtain rfl := List.mem_singleton.mp hv
    intro hkind
    obtain ⟨fs, rfl⟩ := kind?_eq_some_iff.mp hkind
    obtain ⟨x, rfl, hx⟩ := List.map_eq_singleton_iff.mp hw.fits.shapes
    obtain ⟨us, rfl⟩ := Field.shape_eq_nodes_iff.mp hx
    exact hcode us rfl

/-- **No sequence is left among instructions.** -/
theorem everywhere_flat_flatten (hw : t.WellFormed) (hf : t.family? = some .asm) :
    t.flatten.Everywhere Flat := by
  refine hw.induct_asm (P := fun t => t.flatten.Everywhere Flat) hf ?_ ?_
  · intro f n
    rw [flatten_blank]
    exact .intro trivial nofun
  · intro k fs hw ih
    refine .intro ?_ fun v hv => ?_
    · rw [flatten_asm]
      intro hk v hv
      rw [(hw.takes flatten).children_splice, if_pos hk, Field.flatMap_children_map,
        List.flatMap_map] at hv
      obtain ⟨u, hu, hvu⟩ := List.mem_flatMap.mp hv
      have huw : u.flatten.WellFormed :=
        ((wellFormed_node_iff.mp hw).2 u hu).flatten (hw.fits.family u hu)
      exact (ih u hu).here.kind?_of_mem_instructions huw hvu
    · obtain ⟨u, hu, hvu⟩ := hw.exists_of_mem_flatten hv
      obtain rfl | hvu := hvu
      · exact ih u hu
      · exact (ih u hu).of_mem hvu

/-! ### What is kept -/

/-- **The labels of a tree are kept**, in their order. -/
theorem labels_flatten (hw : t.WellFormed) (hf : t.family? = some .asm) :
    t.flatten.labels = t.labels := by
  refine hw.induct_asm (P := fun t => t.flatten.labels = t.labels) hf ?_ ?_
  · intro f n
    rw [flatten_blank]
  · intro k fs hw ih
    rw [flatten_asm, labels_splice (hw.takes flatten), labels_node, labels_node, Kind.piece?_map,
      Field.flatMap_children_map, List.flatMap_map, List.flatMap_congr ih]

theorem piecePart_flatten (hw : t.WellFormed) (hf : t.family? = some .asm) :
    t.flatten.piecePart = t.piecePart := by
  refine hw.induct_asm (P := fun t => t.flatten.piecePart = t.piecePart) hf ?_ ?_
  · intro f n
    rw [flatten_blank]
  · intro k fs hw ih
    have hparts : (fs.map (Field.map flatten)).map (Field.map piecePart) =
        fs.map (Field.map piecePart) := by
      rw [List.map_map]
      refine List.map_congr_left fun x hx => ?_
      rw [Function.comp_apply, Field.map_map]
      exact Field.map_congr fun u hu => ih u (List.mem_flatMap.mpr ⟨x, hx, hu⟩)
    have hrole : ∀ gs : List (Field Tree), (node (.asm k) gs).role = (node (.asm k) fs).role := by
      intro gs
      cases k <;> rfl
    rw [flatten_asm, piecePart_eq, piecePart_eq, pieces_splice (hw.takes flatten), pieces_node,
      pieces_node, hparts, hrole]

theorem whole_flatten_iff (hw : t.WellFormed) (hf : t.family? = some .asm) :
    t.flatten.Whole ↔ t.Whole := by
  refine hw.induct_asm (P := fun t => t.flatten.Whole ↔ t.Whole) hf ?_ ?_
  · intro f n
    rw [flatten_blank]
  · intro k fs hw ih
    rw [flatten_asm, whole_node_iff, whole_node_iff, (hw.takes flatten).whole_splice_iff,
      Field.flatMap_children_map, List.forall_mem_map]
    exact forall₂_congr ih

/-- **A flattened tree has the text of the tree**, or none for the reason that the tree has none. -/
theorem render_flatten (hw : t.WellFormed) (hf : t.family? = some .asm) (a : Arrangement) :
    t.flatten.render a = t.render a := by
  have hwf := hw.flatten hf
  have hwhole := whole_flatten_iff hw hf
  by_cases hc : t.Whole
  · rw [render_eq_text hw hc, render_eq_text hwf (hwhole.mpr hc), text_eq_spell hw hf,
      text_eq_spell hwf ((family?_flatten t).trans hf), pieces, piecePart_flatten hw hf, pieces]
  · rw [render_eq_error hw hc, render_eq_error hwf (mt hwhole.mp hc), family?_flatten]

end Tree

/-! ### Programs -/

namespace Label

variable {t : Tree}

/-- **Sequences make no difference to a program.** With all of them spliced in, at any depth, it is
a program in which no sequence is left among instructions. It has the texts of the program, its
labels come in the same order, and the check and emission do with it what they do with the program,
down to the fault and what is logged. -/
theorem emit_flatten (hw : t.WellFormed) (hf : t.family? = some .asm) :
    t.flatten.WellFormed ∧ t.flatten.family? = some .asm ∧ t.flatten.Everywhere Tree.Flat ∧
    (∀ a, t.flatten.render a = t.render a) ∧
    collect t.flatten = collect t ∧
    check t.flatten = check t ∧
    ∀ checked, emit checked t.flatten = emit checked t := by
  have hlabels := Tree.labels_flatten hw hf
  have hrender := Tree.render_flatten hw hf
  refine ⟨hw.flatten hf, (Tree.family?_flatten t).trans hf, Tree.everywhere_flat_flatten hw hf,
    hrender, ?_, check_congr hlabels, emit_congr hlabels (hrender .sorted)⟩
  rw [collect_eq, collect_eq, Tree.labelNames, Tree.labelNames, hlabels]

/-- A program with a block of these instructions, and a sequence of these in the place of a block.
-/
def blockAndSequence (inBlock inSequence : List Tree) : Tree :=
  .node (.asm .prog)
    [.nodes
      [.node (.asm .cfg) [.name "main", .nodes inBlock], .node (.asm .code) [.nodes inSequence]]]

/-- Sequences of instructions disappear. The one that stands in the place of a block remains. -/
theorem emit_blockAndSequence :
    let code (instrs : List Tree) : Tree := .node (.asm .code) [.nodes instrs]
    let retq : Tree := .node (.asm .retq) []
    let jmp : Tree := .node (.asm .jmp) [.node (.node (.asm .label) [.name "f!"])]
    (blockAndSequence [code [retq, code [jmp]], retq] [code [code [], jmp]]).flatten =
        blockAndSequence [retq, jmp, retq] [jmp] ∧
      (emit true (blockAndSequence [code [retq, code [jmp]], retq] [code [code [], jmp]])).result =
        .ok "main:\n\tretq\n\tjmp fl\n\tretq\n\n\tjmp fl\n\n" := by
  intro code retq jmp
  have hflatten :
      (blockAndSequence [code [retq, code [jmp]], retq] [code [code [], jmp]]).flatten =
        blockAndSequence [retq, jmp, retq] [jmp] := rfl
  have hcheck : (check (blockAndSequence [retq, jmp, retq] [jmp])).result =
      .ok [("main", "main"), ("f!", "fl")] := by
    decide +kernel
  have htext : (blockAndSequence [retq, jmp, retq] [jmp]).text .sorted =
      "main:\n\tretq\n\tjmp fl\n\tretq\n\n\tjmp fl\n\n" := by
    decide +kernel
  obtain ⟨-, -, -, -, -, -, hemit⟩ := emit_flatten
    (t := blockAndSequence [code [retq, code [jmp]], retq] [code [code [], jmp]]) (by decide) rfl
  refine ⟨hflatten, ?_⟩
  rw [← hemit true, hflatten, result_emit hcheck, Tree.render_eq_text (by decide) (by decide),
    htext]
  rfl

end Label

end LoweringIR
