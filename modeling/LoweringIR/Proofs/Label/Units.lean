import LoweringIR.Proofs.Label.Sequence

/-!
# Programs made of two

The blocks of two programs, one list after the other, make one program. What the check says of it is
not settled by what it says of the two: each may be in order and a name head a block in both, or a
name of one be mangled to the form of another name in the other. This is all that can go wrong.
Names may be shared as long as they head a block in one of the two at most, so a program may jump to
the blocks of another.

## What is put together

The labels of the program are those of the one before those of the other, and so are the pieces of
its text (`Tree.labels_program_append`, `Tree.pieces_program_append`). The text is therefore that of
the one before that of the other. Names are listed where they are first seen: those of the first
program are all seen before the second is reached, and of the names there only the new ones are
added (`Tree.labelNames_program_append`).

## Main definitions

* `Tree.program` — the program with these blocks
* `Label.Apart` — programs whose labels are not confused with each other

## Main results

* `Label.exists_mapping_program_append_iff`, `Label.mapping_program_append` — when the check
  succeeds on a program made of two, and with what
* `Label.check_program_append` — programs are checked and emitted block by block
-/

namespace LoweringIR

/-! ### Names that are seen first -/

/-- Repetitions may be left out before or after some items are. -/
theorem filter_eraseDups {α : Type} [BEq α] [LawfulBEq α] (p : α → Bool) (as : List α) :
    (as.filter p).eraseDups = as.eraseDups.filter p := by
  induction as using List.reverseRecOn with
  | nil => rfl
  | append_singleton as a ih =>
    rw [List.filter_append, List.eraseDups_append, List.eraseDups_append, List.filter_append, ih]
    cases ha : p a <;> by_cases hmem : a ∈ as <;>
      simp [List.removeAll, List.eraseDups_cons, ha, hmem]

/-- Of the items that come later, those are added that are new. -/
theorem eraseDups_append_eq {α : Type} [DecidableEq α] (as bs : List α) :
    (as ++ bs).eraseDups = as.eraseDups ++ bs.eraseDups.filter (· ∉ as.eraseDups) := by
  rw [List.eraseDups_append, List.removeAll, filter_eraseDups]
  congr 2
  funext a
  simp

namespace Tree

/-! ### Blocks one after the other -/

/-- The program with these blocks. -/
def program (blocks : List Tree) : Tree := node (.asm .prog) [.nodes blocks]

variable {xs ys ts : List Tree}

theorem wellFormed_program_iff :
    (program ts).WellFormed ↔ ∀ t ∈ ts, t.WellFormed ∧ t.family? = some .asm := by
  rw [program, wellFormed_node_iff, forall₂_and, and_comm]
  refine and_congr ?_ ?_
  · simp [Field.children]
  · constructor
    · exact fun h t ht => h.family t (by simpa [Field.children] using ht)
    · exact fun h => ⟨rfl, fun t ht => h t (by simpa [Field.children] using ht), trivial⟩

theorem whole_program_iff : (program ts).Whole ↔ ∀ t ∈ ts, t.Whole := by
  simp [program, Field.children]

theorem labels_program (ts : List Tree) : (program ts).labels = ts.flatMap labels := by
  simp [program, labels_node, Kind.piece?, AsmKind.piece?, Field.children]

theorem labels_program_append (xs ys : List Tree) :
    (program (xs ++ ys)).labels = (program xs).labels ++ (program ys).labels := by
  simp [labels_program]

theorem blockNames_program_append (xs ys : List Tree) :
    (program (xs ++ ys)).blockNames = (program xs).blockNames ++ (program ys).blockNames := by
  simp [blockNames, labels_program_append]

/-- **Names of the second program are added if they are new.** -/
theorem labelNames_program_append (xs ys : List Tree) :
    (program (xs ++ ys)).labelNames =
      (program xs).labelNames ++
        (program ys).labelNames.filter (· ∉ (program xs).labelNames) := by
  rw [labelNames, labels_program_append, List.filterMap_append, eraseDups_append_eq]
  rfl

theorem mem_labelNames_program_append {n : String} :
    n ∈ (program (xs ++ ys)).labelNames ↔
      n ∈ (program xs).labelNames ∨ n ∈ (program ys).labelNames := by
  simp [labelNames, labels_program_append]

theorem pieces_program_append (xs ys : List Tree) :
    (program (xs ++ ys)).pieces = (program xs).pieces ++ (program ys).pieces := by
  simp [program, pieces_node, AsmKind.pieces, Field.map]

/-- **Texts come one after the other**, in both arrangements. -/
theorem text_program_append (hx : (program xs).WellFormed) (hy : (program ys).WellFormed)
    (a : Arrangement) :
    (program (xs ++ ys)).text a = (program xs).text a ++ (program ys).text a := by
  have hxy : (program (xs ++ ys)).WellFormed := by
    rw [wellFormed_program_iff] at hx hy ⊢
    exact List.forall_mem_append.mpr ⟨hx, hy⟩
  rw [text_eq_spell hxy rfl, text_eq_spell hx rfl, text_eq_spell hy rfl, pieces_program_append,
    Piece.spell_append]

end Tree

namespace Label

open LoweringIR.Tree

/-- The labels of two programs are not confused with each other. -/
structure Apart (t u : Tree) : Prop where
  /-- No name heads a block in both. -/
  headings : ∀ p q n, Heads t p n → ¬ Heads u q n
  /-- No name in one shares its mangled form with another name in the other. -/
  names : ∀ p q a b, Names t p a → Names u q b → mangle a = mangle b → a = b

variable {t u : Tree} {xs ys : List Tree} {m : List (String × String)}

theorem apart_iff (ht : t.WellFormed) (hft : t.family? = some .asm) (hu : u.WellFormed)
    (hfu : u.family? = some .asm) :
    Apart t u ↔ t.blockNames.Disjoint u.blockNames ∧
      ∀ a ∈ t.labelNames, ∀ b ∈ u.labelNames, mangle a = mangle b → a = b := by
  simp only [List.Disjoint, ← headings_eq, ← collect_eq, mem_headings_iff ht hft,
    mem_headings_iff hu hfu, mem_collect_iff ht hft, mem_collect_iff hu hfu]
  constructor
  · intro h
    refine ⟨?_, ?_⟩
    · rintro n ⟨p, hp⟩ ⟨q, hq⟩
      exact h.headings p q n hp hq
    · rintro a ⟨p, hp⟩ b ⟨q, hq⟩
      exact h.names p q a b hp hq
  · rintro ⟨hheadings, hnames⟩
    exact ⟨fun p q n hp hq => hheadings ⟨p, hp⟩ ⟨q, hq⟩,
      fun p q a b hp hq => hnames a ⟨p, hp⟩ b ⟨q, hq⟩⟩

/-! ### The check of a program made of two -/

theorem exists_mapping_iff :
    (∃ m, mapping t = .ok m) ↔
      t.blockNames.Nodup ∧
        ∀ a ∈ t.labelNames, ∀ b ∈ t.labelNames, mangle a = mangle b → a = b := by
  simp [mapping_eq_ok_iff_labelNames]

/-- Forms are not shared among names of two lists if they are not in either nor across. -/
theorem forall_mangle_or_iff {p q : String → Prop} :
    (∀ a, p a ∨ q a → ∀ b, p b ∨ q b → mangle a = mangle b → a = b) ↔
      (∀ a, p a → ∀ b, p b → mangle a = mangle b → a = b) ∧
        (∀ a, q a → ∀ b, q b → mangle a = mangle b → a = b) ∧
        ∀ a, p a → ∀ b, q b → mangle a = mangle b → a = b := by
  constructor
  · intro h
    exact ⟨fun a ha b hb => h a (.inl ha) b (.inl hb), fun a ha b hb => h a (.inr ha) b (.inr hb),
      fun a ha b hb => h a (.inl ha) b (.inr hb)⟩
  · rintro ⟨hp, hq, hacross⟩ a (ha | ha) b (hb | hb) hab
    · exact hp a ha b hb hab
    · exact hacross a ha b hb hab
    · exact (hacross b hb a ha hab.symm).symm
    · exact hq a ha b hb hab

section

variable (hx : (program xs).WellFormed) (hy : (program ys).WellFormed)
include hx hy

/-- **The check succeeds on a program made of two** if it succeeds on both and they are apart. -/
theorem exists_mapping_program_append_iff :
    (∃ m, mapping (program (xs ++ ys)) = .ok m) ↔
      (∃ m, mapping (program xs) = .ok m) ∧ (∃ m, mapping (program ys) = .ok m) ∧
        Apart (program xs) (program ys) := by
  simp only [exists_mapping_iff, apart_iff hx rfl hy rfl, mem_labelNames_program_append,
    forall_mangle_or_iff, blockNames_program_append, List.nodup_append']
  tauto

end

/-- The mapping of the first program comes first, then the entries of the second that are new. -/
theorem mapping_program_append (hm : mapping (program (xs ++ ys)) = .ok m)
    {mx my : List (String × String)} (hx : mapping (program xs) = .ok mx)
    (hy : mapping (program ys) = .ok my) :
    m = mx ++ my.filter fun e => e.1 ∉ mx.map Prod.fst := by
  obtain ⟨-, rfl⟩ := mapping_eq_ok_iff_labelNames.mp hm
  obtain ⟨-, rfl⟩ := mapping_eq_ok_iff_labelNames.mp hx
  obtain ⟨-, rfl⟩ := mapping_eq_ok_iff_labelNames.mp hy
  rw [labelNames_program_append, List.map_append, List.filter_map, List.map_map]
  congr 3
  funext n
  simp

/-- A program that passes the check and has a text is emitted as its text. -/
theorem result_emit_eq_text (hm : mapping t = .ok m) (hw : t.WellFormed) (hc : t.Whole) :
    (emit true t).result = .ok (t.text .sorted) := by
  rw [emit_checked, hm, render_eq_text hw hc]
  rfl

/-- **Programs are checked and emitted block by block.** The check succeeds on the blocks of two
programs together if it succeeds on both and their labels are not confused with each other, and in
no other case. It then lists the names of the first and after them those of the second that are new,
in order; and what is emitted is the text of the first and after it that of the second. -/
theorem check_program_append (xs ys : List Tree)
    (hblocks : ∀ t ∈ xs ++ ys, t.WellFormed ∧ t.family? = some .asm ∧ t.Whole) :
    ((∃ m, (check (program (xs ++ ys))).result = .ok m) ↔
      (∃ m, (check (program xs)).result = .ok m) ∧ (∃ m, (check (program ys)).result = .ok m) ∧
        Apart (program xs) (program ys)) ∧
    ∀ m, (check (program (xs ++ ys))).result = .ok m →
      ∃ mx my, (check (program xs)).result = .ok mx ∧ (check (program ys)).result = .ok my ∧
        m = mx ++ my.filter (fun e => e.1 ∉ mx.map Prod.fst) ∧
        ∃ tx ty, (emit true (program xs)).result = .ok tx ∧
          (emit true (program ys)).result = .ok ty ∧
          (emit true (program (xs ++ ys))).result = .ok (tx ++ ty) := by
  have hparts : ∀ zs : List Tree, zs ⊆ xs ++ ys → (program zs).WellFormed ∧ (program zs).Whole :=
    fun zs hzs => ⟨wellFormed_program_iff.mpr fun t ht =>
      ⟨(hblocks t (hzs ht)).1, (hblocks t (hzs ht)).2.1⟩,
      whole_program_iff.mpr fun t ht => (hblocks t (hzs ht)).2.2⟩
  obtain ⟨hx, hcx⟩ := hparts xs (List.subset_append_left xs ys)
  obtain ⟨hy, hcy⟩ := hparts ys (List.subset_append_right xs ys)
  obtain ⟨hxy, hcxy⟩ := hparts (xs ++ ys) (List.Subset.refl _)
  simp only [result_check]
  have hiff := exists_mapping_program_append_iff hx hy
  refine ⟨hiff, fun m hm => ?_⟩
  obtain ⟨⟨mx, hmx⟩, ⟨my, hmy⟩, -⟩ := hiff.mp ⟨m, hm⟩
  refine ⟨mx, my, hmx, hmy, mapping_program_append hm hmx hmy,
    _, _, result_emit_eq_text hmx hx hcx, result_emit_eq_text hmy hy hcy, ?_⟩
  rw [← text_program_append hx hy]
  exact result_emit_eq_text hm hxy hcxy

/-- A block that does nothing but jump. -/
def jumpingBlock (name target : String) : Tree :=
  .node (.asm .cfg)
    [.name name, .nodes [.node (.asm .jmp) [.node (.node (.asm .label) [.name target])]]]

/-- A program may jump to a block of another. The name is listed once, where it is referred to.
Programs that are each in order are rejected together if a name of one has the form of a name of the
other. -/
theorem check_jumpingBlocks :
    let main := jumpingBlock "main" "exit"
    let exit := jumpingBlock "exit" "done!"
    let dash := jumpingBlock "a-b" "a-b"
    let bar := jumpingBlock "a_b" "a_b"
    (check (program ([main] ++ [exit]))).result =
        .ok [("main", "main"), ("exit", "exit"), ("done!", "donel")] ∧
      (emit true (program ([main] ++ [exit]))).result =
        .ok ("main:\n\tjmp exit\n\n" ++ "exit:\n\tjmp donel\n\n") ∧
      ¬ Apart (program [dash]) (program [bar]) := by
  intro main exit dash bar
  have hcheck : (check (program ([main] ++ [exit]))).result =
      .ok [("main", "main"), ("exit", "exit"), ("done!", "donel")] := by
    decide +kernel
  have hmain : mapping (program [main]) = .ok [("main", "main"), ("exit", "exit")] := by
    decide +kernel
  have hexit : mapping (program [exit]) = .ok [("exit", "exit"), ("done!", "donel")] := by
    decide +kernel
  refine ⟨hcheck, ?_, fun hapart => ?_⟩
  · obtain ⟨-, hok⟩ := check_program_append [main] [exit] (by decide)
    obtain ⟨-, -, -, -, -, tx, ty, htx, hty, hemit⟩ := hok _ hcheck
    rw [result_emit_eq_text hmain (by decide) (by decide)] at htx
    rw [result_emit_eq_text hexit (by decide) (by decide)] at hty
    rw [hemit, ← Except.ok.inj htx, ← Except.ok.inj hty]
    decide +kernel
  · obtain ⟨hiff, -⟩ := check_program_append [dash] [bar] (by decide)
    have hrejected : (check (program ([dash] ++ [bar]))).result =
        .error (.collision "a-b" "a_b" "a_b") := by
      decide +kernel
    obtain ⟨m, hm⟩ := hiff.mpr ⟨⟨[("a-b", "a_b")], by decide +kernel⟩,
      ⟨[("a_b", "a_b")], by decide +kernel⟩, hapart⟩
    rw [hrejected] at hm
    cases hm

end Label

end LoweringIR
