import LoweringIR.Proofs.Label.Names
import LoweringIR.Proofs.Label.Pieces
import LoweringIR.Proofs.Tree.Position

/-!
# Unambiguous emission

The assembler binds a jump to the block whose heading has the same text. That this is the block with
the same name is what the check of labels is for, and here it is shown to be exactly what the check
decides: a program is *unambiguous* if no name heads blocks at two positions and no two names in it
share a mangled form. Names count wherever they stand, in blocks within blocks and in the operands
of instructions.

## Main definitions

* `Heads`, `Refers`, `Names` — a name heads a block, or is referred to, at a position
* `Unambiguous` — programs that can be emitted without confusing labels
* `ListsNames` — what the check returns
* `Emits` — what is emitted

## Main results

* `check_decides` — the check succeeds on unambiguous programs and on no others
-/

namespace LoweringIR.Label

open LoweringIR.Tree

/-- At this position there is a block headed by that name. -/
def Heads (t : Tree) (p : List Nat) (n : String) : Prop :=
  ∃ fs, t.at? p = some (.node (.asm .cfg) (.name n :: fs))

/-- At this position that name is referred to. -/
def Refers (t : Tree) (p : List Nat) (n : String) : Prop :=
  t.at? p = some (.node (.asm .label) [.name n])

/-- At this position that name is defined or referred to. -/
def Names (t : Tree) (p : List Nat) (n : String) : Prop := Heads t p n ∨ Refers t p n

/-- Labels in the program cannot be confused. -/
structure Unambiguous (t : Tree) : Prop where
  /-- No name heads two blocks. -/
  headings : ∀ p q n, Heads t p n → Heads t q n → p = q
  /-- No two names share a mangled form. -/
  names : ∀ p q a b, Names t p a → Names t q b → mangle a = mangle b → a = b

/-- The names in a program with their mangled forms. -/
structure ListsNames (t : Tree) (m : List (String × String)) : Prop where
  /-- Every name is there. -/
  complete : ∀ n, n ∈ m.map Prod.fst ↔ ∃ p, Names t p n
  /-- No name is there twice. -/
  nodup : (m.map Prod.fst).Nodup
  /-- Names are in the order in which they are first seen. -/
  ordered : (m.map Prod.fst).Pairwise fun a b => ∃ p, Names t p a ∧ ∀ q, Names t q b → p < q
  /-- Every name has its mangled form. -/
  mangled : ∀ e ∈ m, e.2 = mangle e.1

/-- The text of a program in which labels are not confused. -/
structure Emits (t : Tree) (text : String) : Prop where
  /-- The text is made of the pieces of the program. -/
  spelled : text = Piece.spell t.pieces
  /-- The headings among them are those of the blocks. -/
  headings : ∀ n, .heading n ∈ t.pieces ↔ ∃ p, Heads t p n
  /-- The references among them are those of the labels. -/
  references : ∀ n, .reference n ∈ t.pieces ↔ ∃ p, Refers t p n
  /-- No two headings are written in one way. -/
  distinct : ((t.pieces.filterMap Piece.heading?).map fun n => (Piece.heading n).text).Nodup
  /-- A reference is written as a heading is, up to the colon, if it refers to the same name. -/
  bound : ∀ a b, .reference a ∈ t.pieces → .heading b ∈ t.pieces →
    ((Piece.heading b).text = (Piece.reference a).text ++ ":\n" ↔ a = b)

variable {t u : Tree} {n : String} {p : List Nat}

/-! ### Names at positions -/

theorem heading?_eq_some_iff :
    heading? u = some n ↔ ∃ fs, u = .node (.asm .cfg) (.name n :: fs) := by
  unfold heading?
  split <;> simp_all

theorem named?_eq_some_iff :
    named? u = some n ↔
      (∃ fs, u = .node (.asm .cfg) (.name n :: fs)) ∨ u = .node (.asm .label) [.name n] := by
  unfold named?
  split <;> simp_all

theorem heads_iff : Heads t p n ↔ (t.at? p).bind heading? = some n := by
  simp [Heads, Option.bind_eq_some_iff, heading?_eq_some_iff]

theorem names_iff : Names t p n ↔ (t.at? p).bind named? = some n := by
  simp [Names, Heads, Refers, Option.bind_eq_some_iff, named?_eq_some_iff, and_or_left, exists_or]

theorem piece?_bind_heading? (u : Tree) : u.piece?.bind Piece.heading? = heading? u := by
  unfold Tree.piece?
  split
  · unfold AsmKind.piece? heading?
    split <;> simp_all [Piece.heading?]
  · unfold heading?
    split <;> simp_all

theorem piece?_bind_reference?_iff :
    u.piece?.bind Piece.reference? = some n ↔ u = .node (.asm .label) [.name n] := by
  unfold Tree.piece?
  split
  · unfold AsmKind.piece?
    split <;> simp_all [Piece.reference?]
  · next h =>
    simp only [Option.bind_none, reduceCtorEq, false_iff]
    rintro rfl
    exact h _ _ rfl

theorem refers_iff : Refers t p n ↔
    (t.at? p).bind (fun u => u.piece?.bind Piece.reference?) = some n := by
  simp [Refers, Option.bind_eq_some_iff (x := t.at? p), piece?_bind_reference?_iff]

/-! ### The check -/

theorem result_check (t : Tree) : (check t).result = mapping t := by
  unfold check
  split <;> simp_all

/-- The record of a program that is emitted with so many labels. -/
def emitting (labels : Nat) : Log.Record :=
  ⟨.debug, logger, "emitting program with " ++ toString labels ++ " labels"⟩

/-- What is emitted of a program that is checked, with what is logged. -/
theorem emit_checked (t : Tree) :
    emit true t =
      match mapping t with
      | .error e => ⟨[e.record], .error (.label e)⟩
      | .ok m => ⟨[emitting m.length], (t.render .sorted).mapError .blank⟩ := by
  rw [emit, if_pos rfl, check]
  cases mapping t <;> rfl

/-- A program that passes the check is emitted as its text. -/
theorem result_emit {m : List (String × String)} (h : (check t).result = .ok m) :
    (emit true t).result = (t.render .sorted).mapError .blank := by
  rw [result_check] at h
  rw [emit_checked, h]

/-- A program that does not pass the check is not emitted, for the same fault. -/
theorem result_emit_error {e : Fault} (h : (check t).result = .error e) :
    (emit true t).result = .error (.label e) := by
  rw [result_check] at h
  rw [emit_checked, h]

section

variable (hw : t.WellFormed) (hf : t.family? = some .asm)
include hw hf

theorem mem_headings_iff : n ∈ headings t ↔ ∃ p, Heads t p n := by
  simp only [headings, mem_filterMap_preorder_iff (hw.unquoted hf), heads_iff]

theorem nodup_headings_iff :
    (headings t).Nodup ↔ ∀ p q n, Heads t p n → Heads t q n → p = q := by
  simp only [headings, nodup_filterMap_preorder_iff (hw.unquoted hf), heads_iff]

theorem mem_collect_iff : n ∈ collect t ↔ ∃ p, Names t p n := by
  simp only [collect, mem_firstSeen_iff, List.not_mem_nil, false_or, names_iff,
    mem_filterMap_preorder_iff (hw.unquoted hf)]

theorem pairwise_collect :
    (collect t).Pairwise fun a b => ∃ p, Names t p a ∧ ∀ q, Names t q b → p < q := by
  rw [collect, filterMap_preorder (hw.unquoted hf)]
  refine (pairwise_firstSeen t.positions_sorted).imp fun {a b} ⟨p, _, ha, hb⟩ => ?_
  refine ⟨p, names_iff.mpr ha, fun q hq => ?_⟩
  obtain ⟨u, hu, -⟩ := Option.bind_eq_some_iff.mp (names_iff.mp hq)
  exact hb q (mem_positions_iff.mpr ⟨u, hu⟩) (names_iff.mp hq)

/-- The mapping exists if the program is unambiguous, and lists its names. -/
theorem mapping_eq_ok_iff_unambiguous {m : List (String × String)} :
    mapping t = .ok m ↔ Unambiguous t ∧ m = (collect t).map fun n => (n, mangle n) := by
  have hnames : (∀ a ∈ collect t, ∀ b ∈ collect t, mangle a = mangle b → a = b) ↔
      ∀ p q a b, Names t p a → Names t q b → mangle a = mangle b → a = b := by
    simp only [mem_collect_iff hw hf]
    constructor
    · exact fun h p q a b ha hb => h a ⟨p, ha⟩ b ⟨q, hb⟩
    · rintro h a ⟨p, ha⟩ b ⟨q, hb⟩
      exact h p q a b ha hb
  rw [mapping_eq_ok_iff, nodup_headings_iff hw hf, hnames, ← and_assoc]
  exact and_congr_left fun _ => ⟨fun h => ⟨h.1, h.2⟩, fun h => ⟨h.headings, h.names⟩⟩

theorem listsNames : ListsNames t ((collect t).map fun n => (n, mangle n)) := by
  have hkeys : ((collect t).map fun n => (n, mangle n)).map Prod.fst = collect t := by
    rw [List.map_map]
    exact (collect t).map_id
  refine ⟨fun n => ?_, ?_, ?_, ?_⟩
  · rw [hkeys]
    exact mem_collect_iff hw hf
  · rw [hkeys]
    exact nodup_firstSeen .nil
  · rw [hkeys]
    exact pairwise_collect hw hf
  · rintro e he
    obtain ⟨n, -, rfl⟩ := List.mem_map.mp he
    rfl

theorem headings_perm : (t.pieces.filterMap Piece.heading?).Perm (headings t) := by
  rw [headings, ← funext piece?_bind_heading?]
  exact pieces_perm (fun _ => rfl) hw hf

theorem mem_pieces_heading_iff : .heading n ∈ t.pieces ↔ ∃ p, Heads t p n := by
  rw [← mem_headings_iff hw hf, ← (headings_perm hw hf).mem_iff]
  simp [Piece.heading?_eq_some_iff]

theorem mem_pieces_reference_iff : .reference n ∈ t.pieces ↔ ∃ p, Refers t p n := by
  simp only [refers_iff]
  rw [← mem_filterMap_preorder_iff (hw.unquoted hf), ← (pieces_perm (fun _ => rfl) hw hf).mem_iff]
  simp [Piece.reference?_eq_some_iff]

/-- The text of an unambiguous program does not confuse its labels. -/
theorem emits (h : Unambiguous t) : Emits t (t.text .sorted) where
  spelled := text_eq_spell hw hf
  headings n := mem_pieces_heading_iff hw hf
  references n := mem_pieces_reference_iff hw hf
  distinct := by
    have hheadings : (t.pieces.filterMap Piece.heading?).Nodup :=
      (headings_perm hw hf).nodup_iff.mpr ((nodup_headings_iff hw hf).mpr h.headings)
    rw [List.nodup_map_iff_inj_on hheadings]
    intro a ha b hb hab
    rw [(headings_perm hw hf).mem_iff, mem_headings_iff hw hf] at ha hb
    obtain ⟨p, hp⟩ := ha
    obtain ⟨q, hq⟩ := hb
    exact h.names p q a b (.inl hp) (.inl hq) ((String.append_left_inj _).mp hab)
  bound a b ha hb := by
    obtain ⟨p, hp⟩ := (mem_pieces_reference_iff hw hf).mp ha
    obtain ⟨q, hq⟩ := (mem_pieces_heading_iff hw hf).mp hb
    rw [Piece.text, Piece.text, String.append_left_inj]
    exact ⟨fun hab => h.names p q a b (.inr hp) (.inl hq) hab.symm, fun hab => hab ▸ rfl⟩

/-- **The check decides unambiguous emission.** It succeeds on unambiguous programs and on no
others, with a list of their names; and when the program has a text, that is what is emitted, and
its labels are not confused. -/
theorem check_decides :
    ((∃ m, (check t).result = .ok m) ↔ Unambiguous t) ∧
    ∀ m, (check t).result = .ok m → ListsNames t m ∧
      (t.Whole → ∃ text, (emit true t).result = .ok text ∧ Emits t text) := by
  have hmapping : ∀ m, (check t).result = .ok m ↔
      Unambiguous t ∧ m = (collect t).map fun n => (n, mangle n) := fun m => by
    rw [result_check, mapping_eq_ok_iff_unambiguous hw hf]
  refine ⟨?_, fun m hm => ?_⟩
  · constructor
    · rintro ⟨m, hm⟩
      exact ((hmapping m).mp hm).1
    · exact fun h => ⟨_, (hmapping _).mpr ⟨h, rfl⟩⟩
  · obtain ⟨hunambiguous, rfl⟩ := (hmapping m).mp hm
    refine ⟨listsNames hw hf, fun hc => ⟨_, ?_, emits hw hf hunambiguous⟩⟩
    rw [result_emit hm, render_eq_text hw hc]
    rfl

end

/-- A block within a block. The inner one is jumped to, and the address of the outer one is taken.
-/
def nestedBlocks : Tree :=
  let label (n : String) : Tree := .node (.asm .label) [.name n]
  let reg (n : String) : Tree := .node (.asm .reg) [.name n]
  let address (n : String) : Tree := .node (.asm .derefLabel) [.node (reg "rip"), .node (label n)]
  .node (.asm .prog)
    [.nodes
      [.node (.asm .cfg)
        [.name "loop!",
          .nodes
            [.node (.asm .jmpIf) [.name "e", .node (label "exit-1")],
              .node (.asm .cfg)
                [.name "exit-1",
                  .nodes
                    [.node (.asm .op2) [.name "leaq", .node (address "loop!"), .node (reg "rax")],
                      .node (.asm .jmp) [.node (reg "rax")]]]]]]]

/-- Both names are listed, the outer block's first, and the program is emitted. -/
theorem check_nestedBlocks :
    (check nestedBlocks).result = .ok [("loop!", "loopl"), ("exit-1", "exit_1")] ∧
      Unambiguous nestedBlocks ∧
      ∃ text, (emit true nestedBlocks).result = .ok text ∧ Emits nestedBlocks text := by
  have hcheck :
      (check nestedBlocks).result = .ok [("loop!", "loopl"), ("exit-1", "exit_1")] := by
    decide +kernel
  obtain ⟨hdecides, hok⟩ := check_decides (t := nestedBlocks) (by decide) rfl
  exact ⟨hcheck, hdecides.mp ⟨_, hcheck⟩, (hok _ hcheck).2 (by decide)⟩

end LoweringIR.Label
