import LoweringIR.Proofs.Label.Units
import LoweringIR.Proofs.Label.Splicing
import LoweringIR.Proofs.Rendering.Brackets
import LoweringIR.Proofs.Text.Lines

/-!
# The lines of an emitted program

The assembler reads a program line by line. A line is a heading, an instruction, or empty, and which
of them it is shows from where it begins: an instruction begins with a tab.

Breaks are written in three places. An instruction writes the one that ends its line, a block the one
that ends its heading, and a program writes one after every block. A sequence of instructions writes
none, and operands must not have any, which is why the names in a program must not. So every text
between operands and programs is terminated: it is made of lines, and the lines of a larger text are
those of its parts, one part after the other. A sequence has the lines of its instructions, and these
are the lines of the instructions that take its place when the block is flattened.

## Main definitions

* `Tree.IsOperand`, `Tree.Executable` — operands, and instructions with sequences of them
* `Tree.InstructionLine`, `Tree.BlockLines` — the line of an instruction, and the lines of a block

## Main results

* `AsmKind.unbroken_write`, `AsmKind.exists_write` — operands have no breaks, instructions one
* `Tree.Executable.lined` — the lines of sequences are those of the instructions in them
* `Tree.render_lines` — the lines of a program, block by block
-/

namespace LoweringIR

open Text (Unbroken Terminated)

/-! ### Breaks -/

/-- The kinds that stand as operands. -/
def AsmKind.isOperand : AsmKind → Bool
  | .reg | .imm | .label | .deref | .derefLabel | .derefRegister => true
  | _ => false

/-- The kinds that are an instruction. -/
def AsmKind.isInstruction : AsmKind → Bool
  | .op2 | .retq | .push | .pop | .jmp | .jmpIf => true
  | _ => false

/-- A number is written without breaks. -/
theorem unbroken_int (n : Int) : Unbroken (toString n) := by
  have hdigits : ∀ m, '\n' ∉ Nat.toDigits 10 m := fun m hc =>
    absurd (Json.isDigit_of_mem hc) (by decide)
  cases n with
  | ofNat n =>
    rw [Unbroken, show (toString (Int.ofNat n)).toList = Nat.toDigits 10 n from Json.toList_nat n]
    exact hdigits n
  | negSucc n =>
    rw [Unbroken, Json.toList_negSucc]
    simpa using hdigits (n + 1)

/-- Mangling writes no break. -/
theorem unbroken_mangle {name : String} (h : Unbroken name) : Unbroken (Label.mangle name) := by
  have hchar : ∀ c, Label.mangleChar c = '\n' → c = '\n' := by
    intro c
    unfold Label.mangleChar
    split_ifs <;> simp
  rw [Unbroken, Label.toList_mangle, List.mem_map]
  rintro ⟨c, hc, hbreak⟩
  exact h (hchar c hbreak ▸ hc)

theorem unbroken_jumpOperand {target : Part} (h : Unbroken target.2) :
    Unbroken (jumpOperand target) := by
  unfold jumpOperand
  split
  · exact h
  · exact Text.unbroken_append.mpr ⟨by decide, h⟩

theorem unbroken_of_mem_registerNames {n : String} (h : n ∈ registerNames) : Unbroken n := by
  have hall : ∀ n ∈ registerNames, Unbroken n := by decide
  exact hall n h

namespace AsmKind

variable {k : AsmKind} {fs : List (Field Part)} (h : k.Takes fs)
  (hnames : ∀ s ∈ fs.flatMap Field.identifiers, Unbroken s)
  (hchildren : ∀ c ∈ fs.flatMap Field.children, Unbroken c.2)
include h hnames hchildren

/-- **An operand has no breaks.** -/
theorem unbroken_write (hk : k.isOperand = true) : Unbroken (k.write fs) := by
  cases h with
  | reg n =>
    have hn : Unbroken n := hnames n (by simp [Field.identifiers])
    exact Text.unbroken_append.mpr ⟨by decide, hn⟩
  | imm n => exact Text.unbroken_append.mpr ⟨by decide, unbroken_int _⟩
  | label n => exact unbroken_mangle (hnames n (by simp [Field.identifiers]))
  | deref base offset =>
    have hbase := hchildren base (by simp [Field.children])
    simp only [write, Text.unbroken_append]
    exact ⟨⟨⟨unbroken_int _, by decide⟩, hbase⟩, by decide⟩
  | derefLabel base label =>
    have hbase := hchildren base (by simp [Field.children])
    have hlabel := hchildren label (by simp [Field.children])
    simp only [write, Text.unbroken_append]
    exact ⟨⟨⟨hlabel, by decide⟩, hbase⟩, by decide⟩
  | derefRegister base index =>
    have hbase := hchildren base (by simp [Field.children])
    have hindex := hchildren index (by simp [Field.children])
    simp only [write, Text.unbroken_append]
    exact ⟨⟨⟨⟨by decide, hbase⟩, by decide⟩, hindex⟩, by decide⟩
  | _ => cases hk

/-- **An instruction has one**, at the end of its line. -/
theorem exists_write (hk : k.isInstruction = true) :
    ∃ word, Unbroken word ∧ k.write fs = "\t" ++ word ++ "\n" := by
  cases h with
  | op2 mnemonic src dst =>
    have hmnemonic := hnames mnemonic (by simp [Field.identifiers])
    have hsrc := hchildren src (by simp [Field.children])
    have hdst := hchildren dst (by simp [Field.children])
    refine ⟨mnemonic ++ " " ++ src.2 ++ ", " ++ dst.2, ?_, by simp [write, String.append_assoc]⟩
    simp only [Text.unbroken_append]
    exact ⟨⟨⟨⟨hmnemonic, by decide⟩, hsrc⟩, by decide⟩, hdst⟩
  | retq => exact ⟨"retq", by decide, rfl⟩
  | jmp target =>
    have htarget := unbroken_jumpOperand (hchildren target (by simp [Field.children]))
    refine ⟨"jmp " ++ jumpOperand target, ?_, by simp [write, ← String.append_assoc]⟩
    exact Text.unbroken_append.mpr ⟨by decide, htarget⟩
  | jmpIf cc target =>
    have hcc := hnames cc (by simp [Field.identifiers])
    have htarget := unbroken_jumpOperand (hchildren target (by simp [Field.children]))
    refine ⟨"j" ++ cc ++ " " ++ jumpOperand target, ?_, by simp [write, ← String.append_assoc]⟩
    simp only [Text.unbroken_append]
    exact ⟨⟨⟨by decide, hcc⟩, by decide⟩, htarget⟩
  | push operand =>
    have hoperand := hchildren operand (by simp [Field.children])
    refine ⟨"pushq " ++ operand.2, ?_, by simp [write, ← String.append_assoc]⟩
    exact Text.unbroken_append.mpr ⟨by decide, hoperand⟩
  | pop operand =>
    have hoperand := hchildren operand (by simp [Field.children])
    refine ⟨"popq " ++ operand.2, ?_, by simp [write, ← String.append_assoc]⟩
    exact Text.unbroken_append.mpr ⟨by decide, hoperand⟩
  | _ => cases hk

end AsmKind

namespace Tree

variable {a : Arrangement} {k : AsmKind} {fs : List (Field Tree)} {t u v : Tree} {us : List Tree}
  {n : String}

/-- The names in a tree have no breaks. Those of registers are not asked about. -/
def NamesUnbroken (t : Tree) : Prop :=
  t.Everywhere fun u => u.kind? ≠ some (.asm .reg) → ∀ s ∈ u.identifiers, Unbroken s

instance : DecidablePred NamesUnbroken := fun t => inferInstanceAs (Decidable (t.Everywhere _))

/-- The text of a node of assembly, which has nothing to arrange. -/
theorem WellFormed.text_asm (hw : (node (.asm k) fs).WellFormed) :
    (node (.asm k) fs).text a = k.write (fs.map (Field.map (part a))) := by
  rw [text_node, (hw.takes (part a)).arrange]
  rfl

/-- All names in a node have no breaks if it is not asked about registers. -/
theorem NamesUnbroken.identifiers (h : (node (.asm k) fs).NamesUnbroken)
    (hw : (node (.asm k) fs).WellFormed) :
    ∀ s ∈ (fs.map (Field.map (part a))).flatMap Field.identifiers, Unbroken s := by
  have hfields : (fs.map (Field.map (part a))).flatMap Field.identifiers =
      fs.flatMap Field.identifiers := by
    simp [List.flatMap_map]
  rw [hfields]
  by_cases hk : k = .reg
  · subst hk
    have htakes : AsmKind.Takes .reg fs := AsmKind.takes_of_shapes hw.fits.shapes
    have hadmitted := hw.fits.admitted
    cases htakes with
    | reg n => simpa [Field.identifiers] using unbroken_of_mem_registerNames hadmitted
  · exact h.here (by simpa [kind?] using hk)

/-! ### Operands -/

/-- An operand: a register, a number, a label, or an address. -/
def IsOperand (t : Tree) : Prop := ∃ k fs, t = node (.asm k) fs ∧ k.isOperand = true

/-- Addresses are made of registers and labels. -/
theorem WellFormed.isOperand_of_mem (hw : (node (.asm k) fs).WellFormed)
    (hk : k.isOperand = true) (hu : u ∈ fs.flatMap Field.children) : u.IsOperand := by
  have hkind : ∀ {l : AsmKind} {v : Tree}, l.isOperand = true → v.kind? = some (.asm l) →
      v.IsOperand := by
    intro l v hl hv
    obtain ⟨gs, rfl⟩ := kind?_eq_some_iff.mp hv
    exact ⟨l, gs, rfl, hl⟩
  have htakes := AsmKind.takes_of_shapes hw.fits.shapes
  have hadmitted := hw.fits.admitted
  cases htakes with
  | reg | imm | label => simp [Field.children] at hu
  | deref base offset =>
    obtain rfl : u = base := by simpa [Field.children] using hu
    exact hkind rfl hadmitted
  | derefLabel base label =>
    obtain rfl | rfl : u = base ∨ u = label := by simpa [Field.children] using hu
    · exact hkind rfl hadmitted.1
    · exact hkind rfl hadmitted.2
  | derefRegister base index =>
    obtain rfl | rfl : u = base ∨ u = index := by simpa [Field.children] using hu
    · exact hkind rfl hadmitted.1
    · exact hkind rfl hadmitted.2
  | _ => cases hk

/-- Induction on operands. -/
theorem IsOperand.induct {P : Tree → Prop} (ho : t.IsOperand) (hw : t.WellFormed)
    (node : ∀ k fs, AsmKind.isOperand k = true → (Tree.node (.asm k) fs).WellFormed →
      (∀ u ∈ fs.flatMap Field.children, P u) → P (.node (.asm k) fs)) : P t := by
  induction hw with
  | @intro t here below ih =>
    obtain ⟨k, fs, rfl, hk⟩ := ho
    have hw : (Tree.node (.asm k) fs).WellFormed := .intro here below
    exact node k fs hk hw fun u hu => ih u hu (hw.isOperand_of_mem hk hu)

theorem IsOperand.whole (ho : t.IsOperand) (hw : t.WellFormed) : t.Whole :=
  ho.induct hw fun _ _ _ _ ih => whole_node_iff.mpr ih

/-- **The text of an operand has no breaks.** -/
theorem IsOperand.unbroken (ho : t.IsOperand) (hw : t.WellFormed) (hn : t.NamesUnbroken) :
    Unbroken (t.text a) := by
  refine ho.induct (P := fun t => t.NamesUnbroken → Unbroken (t.text a)) hw ?_ hn
  intro k fs hk hw ih hn
  rw [hw.text_asm]
  refine AsmKind.unbroken_write (hw.takes (part a)) (hn.identifiers hw) ?_ hk
  rw [Field.flatMap_children_map]
  exact List.forall_mem_map.mpr fun u hu => ih u hu (hn.of_mem hu)

/-! ### Instructions -/

/-- What a block may list: instructions with operands, and sequences of what it may list. -/
inductive Executable : Tree → Prop
  | instruction {k : AsmKind} {fs : List (Field Tree)} (kind : k.isInstruction = true)
      (operands : ∀ u ∈ fs.flatMap Field.children, u.IsOperand) : Executable (node (.asm k) fs)
  | code {us : List Tree} (instrs : ∀ u ∈ us, Executable u) :
      Executable (node (.asm .code) [.nodes us])

/-- The line of an instruction: it begins with a tab, and a break makes it the text of the
instruction. -/
structure InstructionLine (a : Arrangement) (t : Tree) (line : String) : Prop where
  kind : ∃ k, t.kind? = some (.asm k) ∧ k.isInstruction = true
  tab : ∃ word, line = "\t" ++ word
  render : t.render a = .ok (line ++ "\n")

theorem Executable.whole (he : t.Executable) (hw : t.WellFormed) : t.Whole := by
  induction he with
  | instruction kind operands =>
    exact whole_node_iff.mpr fun u hu => (operands u hu).whole (hw.of_mem hu)
  | code instrs ih =>
    refine whole_node_iff.mpr fun u hu => ?_
    exact ih u (by simpa [Field.children] using hu) (hw.of_mem hu)

theorem instructions_of_kind (h : t.kind? ≠ some (.asm .code)) : t.instructions = [t] := by
  unfold instructions
  split
  · exact absurd rfl h
  · rfl

/-- Sequences of instructions have the instructions of their parts when they are flattened. -/
theorem instructions_flatten_code (us : List Tree) :
    (node (.asm .code) [.nodes us]).flatten.instructions =
      us.flatMap fun u => u.flatten.instructions := by
  rw [flatten_asm]
  exact List.flatMap_map ..

/-- The lines that a tree adds to a list of instructions are those of the instructions that take its
place when the list is flattened. -/
def Lined (a : Arrangement) (t : Tree) : Prop :=
  Terminated (t.text a) ∧
    List.Forall₂ (InstructionLine a) t.flatten.instructions (Text.lines (t.text a))

theorem forall₂_flatMap {α β γ : Type} {R : β → γ → Prop} {f : α → List β} {g : α → List γ}
    {as : List α} (h : ∀ x ∈ as, List.Forall₂ R (f x) (g x)) :
    List.Forall₂ R (as.flatMap f) (as.flatMap g) := by
  induction as with
  | nil => exact .nil
  | cons x as ih =>
    rw [List.forall_mem_cons] at h
    exact List.rel_append h.1 (ih h.2)

/-- The lines of trees one after the other. -/
theorem Lined.join (h : ∀ u ∈ us, u.Lined a) :
    Terminated (Form.join (us.map (text a)) "") ∧
      List.Forall₂ (InstructionLine a) (us.flatMap fun u => u.flatten.instructions)
        (Text.lines (Form.join (us.map (text a)) "")) := by
  have hterminated : ∀ s ∈ us.map (text a), Terminated s :=
    List.forall_mem_map.mpr fun u hu => (h u hu).1
  refine ⟨Text.terminated_join hterminated, ?_⟩
  rw [Text.lines_join hterminated, List.flatMap_map]
  exact forall₂_flatMap fun u hu => (h u hu).2

/-- **An instruction is one line.** -/
theorem lined_of_isInstruction (hk : k.isInstruction = true)
    (operands : ∀ u ∈ fs.flatMap Field.children, u.IsOperand)
    (hw : (node (.asm k) fs).WellFormed) (hn : (node (.asm k) fs).NamesUnbroken) :
    (node (.asm k) fs).Lined a := by
  have hchildren : ∀ c ∈ (fs.map (Field.map (part a))).flatMap Field.children, Unbroken c.2 := by
    rw [Field.flatMap_children_map]
    exact List.forall_mem_map.mpr fun u hu =>
      (operands u hu).unbroken (hw.of_mem hu) (hn.of_mem hu)
  obtain ⟨word, hword, hwrite⟩ :=
    AsmKind.exists_write (hw.takes (part a)) (hn.identifiers hw) hchildren hk
  have htext : (node (.asm k) fs).text a = "\t" ++ word ++ "\n" := hw.text_asm.trans hwrite
  have hcode : (node (.asm k) fs).flatten.kind? ≠ some (.asm .code) := by
    rw [kind?_flatten]
    rintro ⟨⟩
    cases hk
  refine ⟨htext ▸ Text.terminated_break _, ?_⟩
  rw [htext, Text.lines_unbroken (Text.unbroken_append.mpr ⟨by decide, hword⟩),
    instructions_of_kind hcode]
  refine .cons ⟨⟨k, kind?_flatten _, hk⟩, ⟨word, rfl⟩, ?_⟩ .nil
  rw [render_flatten hw rfl, render_eq_text hw ((Executable.instruction hk operands).whole hw),
    htext]

/-- **The lines of sequences** are those of the instructions in them. -/
theorem Executable.lined (he : t.Executable) (hw : t.WellFormed) (hn : t.NamesUnbroken) :
    t.Lined a := by
  induction he with
  | instruction kind operands => exact lined_of_isInstruction kind operands hw hn
  | @code us instrs ih =>
    have htext : (node (.asm .code) [.nodes us]).text a = Form.join (us.map (text a)) "" := by
      rw [hw.text_asm]
      simp only [AsmKind.write, childTexts, List.map_cons, List.map_nil, List.flatMap_cons,
        List.flatMap_nil, List.append_nil, Field.map, Field.children, List.map_map]
      rfl
    have hmem : ∀ u ∈ us, u ∈ (node (.asm .code) [.nodes us]).members := fun u hu => by
      simpa [members, Field.children] using hu
    rw [Lined, htext, instructions_flatten_code]
    exact Lined.join fun u hu => ih u hu (hw.of_mem (hmem u hu)) (hn.of_mem (hmem u hu))

/-! ### Blocks -/

/-- The block with this name and these instructions. -/
def block (n : String) (us : List Tree) : Tree := node (.asm .cfg) [.name n, .nodes us]

/-- The lines of a block and the one after it: a heading, the lines of the instructions of the
flattened block in order, and an empty line. -/
def BlockLines (a : Arrangement) (n : String) (us : List Tree) (ls : List String) : Prop :=
  ∃ body, ls = (Label.mangle n ++ ":") :: (body ++ [""]) ∧
    List.Forall₂ (InstructionLine a) (block n us).flatten.members body

theorem members_flatten_block (n : String) (us : List Tree) :
    (block n us).flatten.members = us.flatMap fun u => u.flatten.instructions := by
  have hfields : (block n us).flatten.members = (us.map flatten).flatMap instructions := by
    rw [block, flatten_asm]
    simp [members, AsmKind.splice, Field.map, Field.children]
  rw [hfields, List.flatMap_map]

/-- **The lines of a block**, with the break that the program writes after it. -/
theorem blockLines_text (he : ∀ u ∈ us, u.Executable) (hw : (block n us).WellFormed)
    (hn : (block n us).NamesUnbroken) :
    BlockLines a n us (Text.lines ((block n us).text a ++ "\n")) := by
  have hmem : ∀ u ∈ us, u ∈ (block n us).members := fun u hu => by
    simpa [block, members, Field.children] using hu
  have htext : (block n us).text a =
      Label.mangle n ++ ":" ++ "\n" ++ Form.join (us.map (text a)) "" := by
    rw [block, hw.text_asm, @String.append_assoc (Label.mangle n)]
    simp only [AsmKind.write, List.map_cons, List.map_nil, Field.map, List.map_map]
    rfl
  have hname : Unbroken n :=
    hn.here (by simp [block, kind?]) n (by simp [block, identifiers, Field.identifiers])
  obtain ⟨hterminated, hlines⟩ := Lined.join fun u hu =>
    (he u hu).lined (a := a) (hw.of_mem (hmem u hu)) (hn.of_mem (hmem u hu))
  have hheading : Unbroken (Label.mangle n ++ ":") :=
    Text.unbroken_append.mpr ⟨unbroken_mangle hname, by decide⟩
  refine ⟨_, ?_, members_flatten_block n us ▸ hlines⟩
  rw [htext, String.append_assoc, Text.lines_unbroken_append hheading, hterminated.lines_append]
  rfl

/-- A block has a line for its heading, one for every instruction, and an empty one. -/
theorem BlockLines.length_eq {ls : List String} (h : BlockLines a n us ls) :
    ls.length = 2 + (block n us).flatten.members.length := by
  obtain ⟨body, rfl, hbody⟩ := h
  rw [List.length_cons, List.length_append, List.length_singleton, ← hbody.length_eq]
  omega

/-! ### Programs -/

/-- The program made of blocks with these names and instructions. -/
def ofBlocks (blocks : List (String × List Tree)) : Tree :=
  program (blocks.map fun b => block b.1 b.2)

section

variable {blocks : List (String × List Tree)} {b : String × List Tree}

theorem block_mem_members (hb : b ∈ blocks) : block b.1 b.2 ∈ (ofBlocks blocks).members := by
  simp only [ofBlocks, program, members, List.flatMap_singleton, Field.children]
  exact List.mem_map_of_mem (f := fun b => block b.1 b.2) hb

theorem whole_ofBlocks (hw : (ofBlocks blocks).WellFormed)
    (he : ∀ b ∈ blocks, ∀ u ∈ b.2, u.Executable) : (ofBlocks blocks).Whole := by
  refine whole_program_iff.mpr (List.forall_mem_map.mpr fun b hb => ?_)
  refine whole_node_iff.mpr fun u hu => ?_
  have hu' : u ∈ b.2 := by simpa [Field.children] using hu
  exact (he b hb u hu').whole ((hw.of_mem (block_mem_members hb)).of_mem hu)

theorem text_ofBlocks (hw : (ofBlocks blocks).WellFormed) :
    (ofBlocks blocks).text a =
      Form.join (blocks.map fun b => (block b.1 b.2).text a ++ "\n") "" := by
  rw [ofBlocks, program, hw.text_asm]
  simp only [AsmKind.write, childTexts, List.map_cons, List.map_nil, List.flatMap_cons,
    List.flatMap_nil, List.append_nil, Field.map, Field.children, List.map_map]
  rfl

end

/-- **The lines of a program.** If the blocks of a program list nothing but instructions with
operands, and sequences of these nested in any way, and if no name has a line break, then the text of
the program, in both arrangements, is terminated, and its lines are those of its blocks, in order:
for each a heading, one line for every instruction of the flattened block, and an empty line. So
there are as many breaks. -/
theorem render_lines (a : Arrangement) {blocks : List (String × List Tree)}
    (hw : (ofBlocks blocks).WellFormed) (he : ∀ b ∈ blocks, ∀ u ∈ b.2, u.Executable)
    (hn : (ofBlocks blocks).NamesUnbroken) :
    ∃ s paragraphs, (ofBlocks blocks).render a = .ok s ∧ (s = "" ∨ ∃ r, s = r ++ "\n") ∧
      List.Forall₂ (fun b ls => BlockLines a b.1 b.2 ls) blocks paragraphs ∧
      Text.lines s = paragraphs.flatten ∧
      s.toList.count '\n' =
        (blocks.map fun b => 2 + (block b.1 b.2).flatten.members.length).sum := by
  have hterminated : ∀ s ∈ blocks.map fun b => (block b.1 b.2).text a ++ "\n", Terminated s :=
    List.forall_mem_map.mpr fun b _ => Text.terminated_break _
  have hparagraphs : ∀ b ∈ blocks,
      BlockLines a b.1 b.2 (Text.lines ((block b.1 b.2).text a ++ "\n")) := fun b hb =>
    have hmem := block_mem_members hb
    blockLines_text (he b hb) (hw.of_mem hmem) (hn.of_mem hmem)
  have hlines : Text.lines ((ofBlocks blocks).text a) =
      (blocks.map fun b => Text.lines ((block b.1 b.2).text a ++ "\n")).flatten := by
    rw [text_ofBlocks hw, Text.lines_join hterminated, List.flatMap_map, List.flatMap_def]
  refine ⟨_, _, render_eq_text hw (whole_ofBlocks hw he), ?_, ?_, hlines, ?_⟩
  · rw [text_ofBlocks hw]
    exact Text.terminated_join hterminated
  · exact List.forall₂_map_right_iff.mpr (List.forall₂_same.mpr hparagraphs)
  · have hlengths : ∀ b ∈ blocks, (Text.lines ((block b.1 b.2).text a ++ "\n")).length =
        2 + (block b.1 b.2).flatten.members.length :=
      fun b hb => (hparagraphs b hb).length_eq
    rw [Text.count_break, hlines, List.length_flatten, List.map_map, Function.comp_def,
      List.map_congr_left hlengths]

/-- Two blocks, one with an instruction in a sequence beside an empty sequence. -/
def loadAndJump : List (String × List Tree) :=
  let reg (n : String) : Tree := .node (.asm .reg) [.name n]
  let load : Tree := .node (.asm .op2)
    [.name "movq", .node (.node (.asm .deref) [.node (reg "rbp"), .int64 (-8)]), .node (reg "rax")]
  [("main",
      [.node (.asm .code) [.nodes [load, .node (.asm .code) [.nodes []]]],
        .node (.asm .jmpIf) [.name "e", .node (.node (.asm .label) [.name "done!"])]]),
    ("done!", [.node (.asm .retq) []])]

theorem render_loadAndJump :
    (ofBlocks loadAndJump).render .sorted =
        .ok "main:\n\tmovq -8(%rbp), %rax\n\tje donel\n\ndonel:\n\tretq\n\n" ∧
      ∃ paragraphs, List.Forall₂ (fun b ls => BlockLines .sorted b.1 b.2 ls) loadAndJump paragraphs ∧
        paragraphs.flatten =
          ["main:", "\tmovq -8(%rbp), %rax", "\tje donel", "", "donel:", "\tretq", ""] ∧
        (loadAndJump.map fun b => 2 + (block b.1 b.2).flatten.members.length).sum = 7 := by
  have hw : (ofBlocks loadAndJump).WellFormed := by decide
  have hn : (ofBlocks loadAndJump).NamesUnbroken := by decide
  have he : ∀ b ∈ loadAndJump, ∀ u ∈ b.2, u.Executable := by
    simp only [loadAndJump, List.forall_mem_cons]
    refine ⟨⟨.code ?_, .instruction rfl ?_, List.forall_mem_nil _⟩,
      ⟨.instruction rfl ?_, List.forall_mem_nil _⟩, List.forall_mem_nil _⟩
    · simp only [List.forall_mem_cons]
      refine ⟨.instruction rfl ?_, .code (List.forall_mem_nil _), List.forall_mem_nil _⟩
      simp [Field.children, IsOperand, AsmKind.isOperand]
    · simp [Field.children, IsOperand, AsmKind.isOperand]
    · simp
  obtain ⟨s, paragraphs, hrender, -, hblocks, hlines, hcount⟩ := render_lines .sorted hw he hn
  have htext : (ofBlocks loadAndJump).text .sorted =
      "main:\n\tmovq -8(%rbp), %rax\n\tje donel\n\ndonel:\n\tretq\n\n" := by
    decide +kernel
  rw [render_eq_text hw (whole_ofBlocks hw he), htext] at hrender ⊢
  obtain rfl := Except.ok.inj hrender
  refine ⟨rfl, paragraphs, hblocks, ?_, ?_⟩
  · rw [← hlines]
    decide +kernel
  · rw [← hcount]
    decide +kernel

end Tree

end LoweringIR
