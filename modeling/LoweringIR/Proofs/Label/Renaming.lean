import LoweringIR.Proofs.Label.Unambiguous

/-!
# Renaming labels

What the assembler knows of a label is its mangled form. So nothing that is emitted should depend on
more, and this module says so by renaming: every name that heads a block or is referred to is
replaced, at any depth, and nothing else is touched.

## The two halves

Rendering never compares names, so it goes along with any renaming under which a name keeps its
mangled form, whether or not names fall together. The check does compare them, and goes along as
long as the names in the program are kept apart.

Mangling is a renaming of the first sort, because what has been mangled is mangled to itself. It is
one of the second sort exactly where the check has found no two names with one mangled form. A
program that has passed the check may therefore be mangled beforehand, and nobody will notice.

## Main definitions

* `Tree.rename` — a tree with other labels

## Main results

* `Tree.WellFormed.rename`, `Tree.preorder_rename` — a renamed tree has the nodes of the tree
* `Tree.render_rename` — it has the text of the tree, if mangled forms are kept
* `Label.emit_rename_mangle` — a program is emitted as if its labels were mangled already
-/

namespace LoweringIR

/-! ### Fields -/

/-- The fields of a node whose own label is renamed, if it has one. -/
def AsmKind.rename {α : Type} (g : String → String) : AsmKind → List (Field α) → List (Field α)
  | .cfg, .name n :: fs => .name (g n) :: fs
  | .label, [.name n] => [.name (g n)]
  | _, fs => fs

/-- Only assembly has labels. -/
def Kind.rename {α : Type} (g : String → String) : Kind → List (Field α) → List (Field α)
  | .asm k, fs => k.rename g fs
  | _, fs => fs

namespace AsmKind.Takes

variable {α β : Type} {k : AsmKind} {fs : List (Field α)} {g : String → String}

/-- A node takes another label as it takes its own. -/
theorem rename (h : k.Takes fs) (g : String → String) : k.Takes (k.rename g fs) := by
  cases h <;> constructor

/-- A label is renamed without a look at the children. -/
theorem map_rename (h : k.Takes fs) (g : String → String) (f : α → β) :
    (k.rename g fs).map (Field.map f) = k.rename g (fs.map (Field.map f)) := by
  cases h <;> rfl

theorem children_rename (h : k.Takes fs) (g : String → String) :
    (k.rename g fs).flatMap Field.children = fs.flatMap Field.children := by
  cases h <;> rfl

theorem shape_rename (h : k.Takes fs) (g : String → String) :
    (k.rename g fs).map Field.shape = fs.map Field.shape := by
  cases h <;> rfl

/-- The two kinds with a label admit any. -/
theorem admits_rename {fs : List (Field Tree)} (h : k.Takes fs) (g : String → String) :
    (Kind.asm k).Admits (k.rename g fs) ↔ (Kind.asm k).Admits fs := by
  cases h <;> rfl

/-- **A node writes its label mangled**, wherever it writes it. -/
theorem write_rename {fs : List (Field Part)} (h : k.Takes fs)
    (hg : ∀ n, Label.mangle (g n) = Label.mangle n) : k.write (k.rename g fs) = k.write fs := by
  cases h with
  | label n =>
    show Label.mangle (g n) = Label.mangle n
    exact hg n
  | cfg n instrs =>
    show Label.mangle (g n) ++ _ ++ _ = Label.mangle n ++ _ ++ _
    rw [hg]
  | _ => rfl

end AsmKind.Takes

/-! ### Trees -/

namespace Tree

/-- The tree with every label renamed: the names that head blocks, and those that are referred to.
-/
def rename (g : String → String) : Tree → Tree := fold blank fun k fs => node k (k.rename g fs)

variable {g : String → String} {k : AsmKind} {fs : List (Field Tree)} {t : Tree} {n : String}

@[simp] theorem rename_blank (g : String → String) (f : Option Family) (n : Nat) :
    (blank f n).rename g = blank f n := by
  simp [rename]

theorem rename_node (g : String → String) (k : Kind) (fs : List (Field Tree)) :
    (node k fs).rename g = node k (k.rename g (fs.map (Field.map (rename g)))) := by
  rw [rename, fold_node, ← rename]

theorem rename_asm (g : String → String) (k : AsmKind) (fs : List (Field Tree)) :
    (node (.asm k) fs).rename g = node (.asm k) (k.rename g (fs.map (Field.map (rename g)))) :=
  rename_node g (.asm k) fs

@[simp] theorem kind?_rename (g : String → String) (t : Tree) : (t.rename g).kind? = t.kind? := by
  cases t with
  | blank f n => rw [rename_blank]
  | node k fs => rw [rename_node]; rfl

@[simp] theorem family?_rename (g : String → String) (t : Tree) :
    (t.rename g).family? = t.family? := by
  cases t with
  | blank f n => rw [rename_blank]
  | node k fs => rw [rename_node]; rfl

/-- What stands below a renamed node is what stood below the node, renamed. -/
theorem WellFormed.below_rename (hw : (node (.asm k) fs).WellFormed) (g : String → String) :
    (k.rename g (fs.map (Field.map (rename g)))).flatMap Field.children =
      (fs.flatMap Field.children).map (rename g) := by
  rw [(hw.takes (Tree.rename g)).children_rename, Field.flatMap_children_map]

/-- A renamed tree could have been built. -/
theorem WellFormed.rename (hw : t.WellFormed) (hf : t.family? = some .asm) (g : String → String) :
    (t.rename g).WellFormed := by
  refine hw.induct_asm (P := fun t => (t.rename g).WellFormed) hf ?_ ?_
  · intro f n
    rw [rename_blank]
    exact wellFormed_blank f n
  · intro k fs hw ih
    have htakes := hw.takes (Tree.rename g)
    have hbelow : ∀ {P : Tree → Prop}, (∀ u ∈ fs.flatMap Field.children, P (u.rename g)) →
        ∀ u ∈ (k.rename g (fs.map (Field.map (Tree.rename g)))).flatMap Field.children, P u := by
      intro P h
      rw [hw.below_rename]
      exact List.forall_mem_map.mpr h
    rw [rename_asm]
    refine wellFormed_node_iff.mpr ⟨⟨?_, hbelow fun u hu => ?_, ?_⟩, hbelow ih⟩
    · rw [htakes.shape_rename, Field.map_shape_map]
      exact hw.fits.shapes
    · rw [family?_rename]
      exact hw.fits.family u hu
    · exact (htakes.admits_rename g).mpr (hw.fits.admitted.map (kind?_rename g))

/-! ### Walks -/

theorem WellFormed.children_rename (hw : t.WellFormed) (hf : t.family? = some .asm)
    (g : String → String) : (t.rename g).children = t.children.map (Tree.rename g) := by
  cases t with
  | blank f n => rw [rename_blank]; rfl
  | node k fs =>
    obtain ⟨k, rfl⟩ := Kind.family_eq_asm_iff.mp (Option.some.inj hf)
    rw [rename_asm, children_node (by simp), children_node (by simp), hw.below_rename]

/-- **A renamed tree has the nodes of the tree**, renamed and in their order. -/
theorem preorder_rename (hw : t.WellFormed) (hf : t.family? = some .asm) (g : String → String) :
    (t.rename g).preorder = t.preorder.map (rename g) := by
  refine hw.induct_asm (P := fun t => (t.rename g).preorder = t.preorder.map (rename g)) hf ?_ ?_
  · intro f n
    simp [preorder_eq, children]
  · intro k fs hw ih
    rw [preorder_eq, preorder_eq, hw.children_rename rfl, children_node (by simp), List.map_cons,
      List.flatMap_map, List.map_flatMap, List.flatMap_congr ih]

/-! ### Texts -/

theorem whole_rename_iff (hw : t.WellFormed) (hf : t.family? = some .asm) (g : String → String) :
    (t.rename g).Whole ↔ t.Whole := by
  refine hw.induct_asm (P := fun t => (t.rename g).Whole ↔ t.Whole) hf ?_ ?_
  · intro f n
    rw [rename_blank]
  · intro k fs hw ih
    rw [rename_asm, whole_node_iff, whole_node_iff, hw.below_rename, List.forall_mem_map]
    exact forall₂_congr ih

/-- **Rendering goes along** with a renaming under which mangled forms are kept. -/
theorem part_rename (hg : ∀ n, Label.mangle (g n) = Label.mangle n) (hw : t.WellFormed)
    (hf : t.family? = some .asm) (a : Arrangement) : (t.rename g).part a = t.part a := by
  refine hw.induct_asm (P := fun t => (t.rename g).part a = t.part a) hf ?_ ?_
  · intro f n
    rw [rename_blank]
  · intro k fs hw ih
    have hparts : (fs.map (Field.map (rename g))).map (Field.map (part a)) =
        fs.map (Field.map (part a)) := by
      rw [List.map_map]
      refine List.map_congr_left fun x hx => ?_
      rw [Function.comp_apply, Field.map_map]
      exact Field.map_congr fun u hu => ih u (List.mem_flatMap.mpr ⟨x, hx, hu⟩)
    have hfields : (k.rename g (fs.map (Field.map (rename g)))).map (Field.map (part a)) =
        k.rename g (fs.map (Field.map (part a))) := by
      rw [(hw.takes (rename g)).map_rename, hparts]
    have htakes := hw.takes (part a)
    have hrole : ∀ gs : List (Field Tree), Role.of (.asm k) gs = Role.of (.asm k) fs := by
      intro gs
      cases k <;> rfl
    rw [rename_asm, part_node, part_node, hfields, hrole, htakes.arrange,
      (htakes.rename g).arrange]
    exact congrArg (Prod.mk _) (htakes.write_rename hg)

/-- **A renamed tree has the text of the tree**, or none for the reason that the tree has none. -/
theorem render_rename (hg : ∀ n, Label.mangle (g n) = Label.mangle n) (hw : t.WellFormed)
    (hf : t.family? = some .asm) (a : Arrangement) : (t.rename g).render a = t.render a := by
  have hwr := hw.rename hf g
  have hwhole := whole_rename_iff hw hf g
  by_cases hc : t.Whole
  · rw [render_eq_text hw hc, render_eq_text hwr (hwhole.mpr hc), text, text,
      part_rename hg hw hf]
  · rw [render_eq_error hw hc, render_eq_error hwr (mt hwhole.mp hc), family?_rename]

end Tree

/-! ### The check -/

namespace Label

variable {g : String → String} {t : Tree} {seen names : List String} {m : List (String × String)}

theorem heading?_rename (g : String → String) (t : Tree) :
    heading? (t.rename g) = (heading? t).map g := by
  cases t with
  | blank f n => simp [heading?]
  | node k fs =>
    rw [Tree.rename_node]
    rcases k with ⟨d, k⟩ | k | k | k
    case asm =>
      cases k
      case cfg => rcases fs with _ | ⟨x, fs⟩; rfl; cases x <;> rfl
      all_goals rfl
    all_goals rfl

theorem named?_rename (g : String → String) (t : Tree) :
    named? (t.rename g) = (named? t).map g := by
  cases t with
  | blank f n => simp [named?]
  | node k fs =>
    rw [Tree.rename_node]
    rcases k with ⟨d, k⟩ | k | k | k
    case asm =>
      cases k
      case cfg => rcases fs with _ | ⟨x, fs⟩; rfl; cases x <;> rfl
      case label => rcases fs with _ | ⟨x, _ | ⟨y, fs⟩⟩; rfl; cases x <;> rfl; cases x <;> rfl
      all_goals rfl
    all_goals rfl

/-- Names that are kept apart are first seen where they were. -/
theorem firstSeen_map
    (hg : ∀ a b, a ∈ seen ∨ a ∈ names → b ∈ seen ∨ b ∈ names → g a = g b → a = b) :
    firstSeen (seen.map g) (names.map g) = (firstSeen seen names).map g := by
  induction names generalizing seen with
  | nil => simp [firstSeen]
  | cons n names ih =>
    have hseen : g n ∈ seen.map g ↔ n ∈ seen := by
      constructor
      · intro hn
        obtain ⟨m, hm, heq⟩ := List.mem_map.mp hn
        rwa [← hg m n (.inl hm) (.inr (List.mem_cons_self ..)) heq]
      · exact List.mem_map_of_mem
    rw [List.map_cons, firstSeen, firstSeen]
    by_cases hn : n ∈ seen
    · rw [if_pos (by simpa using hseen.mpr hn), if_pos (by simpa using hn)]
      refine ih fun a b ha hb => hg a b ?_ ?_
      · exact ha.imp_right (List.mem_cons_of_mem _)
      · exact hb.imp_right (List.mem_cons_of_mem _)
    · rw [if_neg (by simpa using mt hseen.mp hn), if_neg (by simpa using hn), ← List.map_cons]
      refine ih fun a b ha hb => hg a b ?_ ?_
      · simpa [or_assoc, or_left_comm] using ha
      · simpa [or_assoc, or_left_comm] using hb

section

variable (hw : t.WellFormed) (hf : t.family? = some .asm)
include hw hf

theorem headings_rename (g : String → String) : headings (t.rename g) = (headings t).map g := by
  rw [headings, headings, Tree.preorder_rename hw hf, List.filterMap_map, List.map_filterMap]
  exact List.filterMap_congr fun u _ => heading?_rename g u

/-- **The names of a renamed program** are its names, renamed, and come in the same order, if no two
of them fall together. -/
theorem collect_rename (hg : ∀ a ∈ collect t, ∀ b ∈ collect t, g a = g b → a = b) :
    collect (t.rename g) = (collect t).map g := by
  have hnames : (t.rename g).preorder.filterMap named? = (t.preorder.filterMap named?).map g := by
    rw [Tree.preorder_rename hw hf, List.filterMap_map, List.map_filterMap]
    exact List.filterMap_congr fun u _ => named?_rename g u
  rw [collect, hnames, ← List.map_nil]
  refine firstSeen_map fun a b ha hb => hg a ?_ b ?_
  · exact mem_firstSeen_iff.mpr ha
  · exact mem_firstSeen_iff.mpr hb

/-- **The check of a mangled program** succeeds where that of the program does. Every name is its
own mangled form, and the names are listed in the order in which their forms were. -/
theorem mapping_rename_mangle (h : mapping t = .ok m) :
    mapping (t.rename mangle) = .ok (m.map fun e => (e.2, e.2)) := by
  obtain ⟨hnodup, hinj, rfl⟩ := mapping_eq_ok_iff.mp h
  have hcollect := collect_rename hw hf hinj
  have hheadings : ∀ n ∈ headings t, n ∈ collect t := by
    intro n hn
    obtain ⟨p, hp⟩ := (mem_headings_iff hw hf).mp hn
    exact (mem_collect_iff hw hf).mpr ⟨p, .inl hp⟩
  refine mapping_eq_ok_iff.mpr ⟨?_, ?_, ?_⟩
  · rw [headings_rename hw hf, List.nodup_map_iff_inj_on hnodup]
    intro a ha b hb hab
    exact hinj a (hheadings a ha) b (hheadings b hb) hab
  · rw [hcollect]
    intro a ha b hb hab
    obtain ⟨a, -, rfl⟩ := List.mem_map.mp ha
    obtain ⟨b, -, rfl⟩ := List.mem_map.mp hb
    simpa using hab
  · simp [hcollect, Function.comp_def]

end

/-! ### Emission -/

/-- **Emission depends on labels only through mangling.** A program with its labels mangled is a
program with the same texts. If the program is emitted, so is that one, with the same text and the
same record of so many labels; and what its check lists are the mangled forms, each for itself, in
the order in which the check of the program has them. -/
theorem emit_rename_mangle (hw : t.WellFormed) (hf : t.family? = some .asm) :
    (t.rename mangle).WellFormed ∧ (∀ a, (t.rename mangle).render a = t.render a) ∧
    ∀ text, (emit true t).result = .ok text →
      emit true (t.rename mangle) = emit true t ∧
      ∃ m, (check t).result = .ok m ∧ (emit true t).records = [emitting m.length] ∧
        (check (t.rename mangle)).result = .ok (m.map fun e => (e.2, e.2)) := by
  have hrender := Tree.render_rename mangle_mangle hw hf
  refine ⟨hw.rename hf mangle, hrender, fun text htext => ?_⟩
  cases hm : mapping t with
  | error e =>
    rw [emit_checked, hm] at htext
    cases htext
  | ok m =>
    have hmangled := mapping_rename_mangle hw hf hm
    refine ⟨?_, m, ?_, ?_, ?_⟩
    · rw [emit_checked, emit_checked, hm, hmangled, hrender]
      dsimp only
      rw [List.length_map]
    · rw [result_check, hm]
    · rw [emit_checked, hm]
    · rw [result_check, hmangled]

/-- The labels are mangled, and the program is emitted as before. -/
theorem emit_nestedBlocks_mangled :
    ∃ text, (emit true nestedBlocks).result = .ok text ∧
      emit true (nestedBlocks.rename mangle) = emit true nestedBlocks ∧
      (check (nestedBlocks.rename mangle)).result =
        .ok [("loopl", "loopl"), ("exit_1", "exit_1")] := by
  have hcheck :
      (check nestedBlocks).result = .ok [("loop!", "loopl"), ("exit-1", "exit_1")] := by
    decide +kernel
  have htext : (emit true nestedBlocks).result = .ok (nestedBlocks.text .sorted) := by
    rw [result_emit hcheck, Tree.render_eq_text (by decide) (by decide)]
    rfl
  obtain ⟨-, -, hemit⟩ := emit_rename_mangle (t := nestedBlocks) (by decide) rfl
  obtain ⟨hsame, m, hm, -, hmangled⟩ := hemit _ htext
  rw [hcheck] at hm
  obtain rfl := Except.ok.inj hm
  exact ⟨_, htext, hsame, hmangled⟩

end Label

end LoweringIR
