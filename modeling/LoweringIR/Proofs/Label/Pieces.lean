import LoweringIR.Proofs.Rendering.Text
import LoweringIR.Tree.Preorder
import Mathlib.Data.List.Perm.Basic

/-!
# The pieces of an emitted program

An emitted program is one text, and nothing in a text tells a label from the instructions around it.
So the text is taken apart first: it is made of *pieces*, which are the headings of blocks, the
labels that are referred to, and what is written between them. Spelled one after the other they are
the text of the program, and what is said of the labels in an emitted program is said of the
headings and references among its pieces.

Every block has one heading among them and every label one reference, wherever in the program it
stands. Their order is that of the text, which is pre-order, except that an address is written with
its label before its register.

## Main definitions

* `Tree.pieces` — the pieces of a tree
* `Piece.spell` — the text that pieces make

## Main results

* `Tree.text_eq_spell` — the pieces make the text of the tree
* `Tree.pieces_perm` — the labels among the pieces are those of the nodes of the tree
-/

namespace LoweringIR

/-! ### The fields of assembly -/

namespace Field

variable {α : Type} {x : Field α}

theorem shape_eq_name_iff : x.shape = .name ↔ ∃ s, x = .name s := by cases x <;> simp [shape]

theorem shape_eq_int64_iff : x.shape = .int64 ↔ ∃ n, x = .int64 n := by cases x <;> simp [shape]

theorem shape_eq_node_iff : x.shape = .node ↔ ∃ a, x = .node a := by cases x <;> simp [shape]

theorem shape_eq_nodes_iff : x.shape = .nodes ↔ ∃ as, x = .nodes as := by cases x <;> simp [shape]

end Field

/-- The fields that a node of assembly takes. -/
inductive AsmKind.Takes {α : Type} : AsmKind → List (Field α) → Prop
  | reg (n : String) : Takes .reg [.name n]
  | imm (n : Int64) : Takes .imm [.int64 n]
  | label (n : String) : Takes .label [.name n]
  | deref (base : α) (offset : Int64) : Takes .deref [.node base, .int64 offset]
  | derefLabel (base label : α) : Takes .derefLabel [.node base, .node label]
  | derefRegister (base index : α) : Takes .derefRegister [.node base, .node index]
  | op2 (mnemonic : String) (src dst : α) : Takes .op2 [.name mnemonic, .node src, .node dst]
  | retq : Takes .retq []
  | cfg (n : String) (instrs : List α) : Takes .cfg [.name n, .nodes instrs]
  | jmp (target : α) : Takes .jmp [.node target]
  | jmpIf (cc : String) (target : α) : Takes .jmpIf [.name cc, .node target]
  | prog (blocks : List α) : Takes .prog [.nodes blocks]
  | push (operand : α) : Takes .push [.node operand]
  | pop (operand : α) : Takes .pop [.node operand]
  | code (instrs : List α) : Takes .code [.nodes instrs]

/-- Fields with the shapes of the schema are those that a node takes. -/
theorem AsmKind.takes_of_shapes {α : Type} {k : AsmKind} {fs : List (Field α)}
    (h : fs.map Field.shape = k.schema.map Prod.snd) : k.Takes fs := by
  cases k <;>
    simp only [schema, List.map_cons, List.map_nil, List.map_eq_cons_iff, List.map_eq_nil_iff,
      Field.shape_eq_name_iff, Field.shape_eq_int64_iff, Field.shape_eq_node_iff,
      Field.shape_eq_nodes_iff] at h
  case retq =>
    subst h
    exact .retq
  case op2 =>
    obtain ⟨_, _, rfl, ⟨m, rfl⟩, _, _, rfl, ⟨src, rfl⟩, _, _, rfl, ⟨dst, rfl⟩, rfl⟩ := h
    exact .op2 m src dst
  case reg | imm | label | jmp | prog | push | pop | code =>
    obtain ⟨_, _, rfl, ⟨x, rfl⟩, rfl⟩ := h
    constructor
  case deref | derefLabel | derefRegister | cfg | jmpIf =>
    obtain ⟨_, _, rfl, ⟨x, rfl⟩, _, _, rfl, ⟨y, rfl⟩, rfl⟩ := h
    constructor

/-- Nothing in assembly is unordered. -/
theorem AsmKind.Takes.arrange {α : Type} {k : AsmKind} {fs : List (Field α)} (h : k.Takes fs)
    (a : Arrangement) : fs.map (Field.arrange a) = fs := by
  cases h <;> rfl

/-! ### Pieces -/

/-- A piece of an emitted program. -/
inductive Piece where
  /-- The heading of a block. -/
  | heading (name : String)
  /-- A label that is referred to. -/
  | reference (name : String)
  /-- Anything else. -/
  | verbatim (text : String)
deriving DecidableEq

namespace Piece

/-- How a piece is written. -/
@[simp] def text : Piece → String
  | heading n => Label.mangle n ++ ":\n"
  | reference n => Label.mangle n
  | verbatim s => s

/-- The name in the heading of a block. -/
def heading? : Piece → Option String
  | heading n => some n
  | _ => none

/-- The name of a label that is referred to. -/
def reference? : Piece → Option String
  | reference n => some n
  | _ => none

/-- The text that pieces make. -/
def spell (ps : List Piece) : String := String.join (ps.map text)

theorem heading?_eq_some_iff {p : Piece} {n : String} : p.heading? = some n ↔ p = heading n := by
  cases p <;> simp [heading?]

theorem reference?_eq_some_iff {p : Piece} {n : String} :
    p.reference? = some n ↔ p = reference n := by
  cases p <;> simp [reference?]

@[simp] theorem spell_nil : spell [] = "" := by simp [spell]

@[simp] theorem spell_cons (p : Piece) (ps : List Piece) :
    spell (p :: ps) = p.text ++ spell ps := by
  simp [spell]

@[simp] theorem spell_append (ps qs : List Piece) : spell (ps ++ qs) = spell ps ++ spell qs := by
  simp [spell]

/-- Texts one after the other are the text of the pieces one after the other. -/
theorem join_spell {α : Type} (f : α → List Piece) (as : List α) :
    Form.join (as.map fun a => spell (f a)) "" = spell (as.flatMap f) := by
  induction as with
  | nil => simp [Form.join]
  | cons a as ih =>
    rw [List.flatMap_cons, spell_append, ← ih, List.map_cons]
    cases as <;> simp [Form.join]

end Piece

open Piece

/-- The operand of a jump. -/
def jumpPieces (target : Tree.Role × List Piece) : List Piece :=
  match target.1 with
  | .label => target.2
  | _ => verbatim "*" :: target.2

/-- The pieces of an assembly node. -/
def AsmKind.pieces (k : AsmKind) (fs : List (Field (Tree.Role × List Piece))) : List Piece :=
  match k, fs with
  | .reg, [.name n] => [verbatim ("%" ++ n)]
  | .imm, [.int64 n] => [verbatim ("$" ++ toString n.toInt)]
  | .label, [.name n] => [reference n]
  | .deref, [.node base, .int64 offset] =>
    [verbatim (toString offset.toInt), verbatim "("] ++ base.2 ++ [verbatim ")"]
  | .derefLabel, [.node base, .node target] =>
    target.2 ++ [verbatim "("] ++ base.2 ++ [verbatim ")"]
  | .derefRegister, [.node base, .node index] =>
    [verbatim "("] ++ base.2 ++ [verbatim ","] ++ index.2 ++ [verbatim ")"]
  | .op2, [.name mnemonic, .node src, .node dst] =>
    [verbatim ("\t" ++ mnemonic ++ " ")] ++ src.2 ++ [verbatim ", "] ++ dst.2 ++ [verbatim "\n"]
  | .retq, _ => [verbatim "\tretq\n"]
  | .cfg, [.name n, .nodes instrs] => heading n :: instrs.flatMap Prod.snd
  | .jmp, [.node target] => [verbatim "\tjmp "] ++ jumpPieces target ++ [verbatim "\n"]
  | .jmpIf, [.name cc, .node target] =>
    [verbatim ("\tj" ++ cc ++ " ")] ++ jumpPieces target ++ [verbatim "\n"]
  | .prog, [.nodes blocks] => blocks.flatMap fun b => b.2 ++ [verbatim "\n"]
  | .push, [.node operand] => [verbatim "\tpushq "] ++ operand.2 ++ [verbatim "\n"]
  | .pop, [.node operand] => [verbatim "\tpopq "] ++ operand.2 ++ [verbatim "\n"]
  | .code, [.nodes instrs] => instrs.flatMap Prod.snd
  | _, _ => []

/-- The piece that is a node's own. -/
def AsmKind.piece? {α : Type} : AsmKind → List (Field α) → Option Piece
  | .cfg, .name n :: _ => some (heading n)
  | .label, [.name n] => some (reference n)
  | _, _ => none

/-- Which piece is a node's own does not depend on its children. -/
theorem AsmKind.Takes.piece?_map {α β : Type} {k : AsmKind} {fs : List (Field α)} (h : k.Takes fs)
    (g : α → β) : k.piece? (fs.map (Field.map g)) = k.piece? fs := by
  cases h <;> rfl

section

variable {k : AsmKind} {fs : List (Field (Tree.Role × List Piece))}

theorem jumpOperand_eq_spell (target : Tree.Role × List Piece) :
    jumpOperand (target.map id spell) = spell (jumpPieces target) := by
  obtain ⟨role, ps⟩ := target
  cases role <;> simp [jumpOperand, jumpPieces]

/-- A node writes what its pieces spell. -/
theorem AsmKind.write_eq_spell (h : k.Takes fs) :
    k.write (fs.map (Field.map (Prod.map id spell))) = spell (k.pieces fs) := by
  cases h with
  | cfg n instrs =>
    have hinstrs := join_spell Prod.snd instrs
    simp [write, pieces, Field.map, ← hinstrs, Function.comp_def, String.append_assoc]
  | prog blocks =>
    have hblocks := join_spell (fun b => b.2 ++ [verbatim "\n"]) blocks
    simp [write, pieces, Field.map, ← hblocks, Function.comp_def, childTexts, Field.children]
  | code instrs =>
    have hinstrs := join_spell Prod.snd instrs
    simp [write, pieces, Field.map, ← hinstrs, Function.comp_def, childTexts, Field.children]
  | _ => simp [write, pieces, Field.map, String.append_assoc, jumpOperand_eq_spell]

theorem filterMap_jumpPieces {β : Type} {f : Piece → Option β} (hf : ∀ s, f (verbatim s) = none)
    (target : Tree.Role × List Piece) :
    (jumpPieces target).filterMap f = target.2.filterMap f := by
  obtain ⟨role, ps⟩ := target
  cases role <;> simp [jumpPieces, hf]

/-- The labels among the pieces of a node are its own and those of its children. `f` picks some of
them. -/
theorem AsmKind.pieces_perm {β : Type} {f : Piece → Option β} (hf : ∀ s, f (verbatim s) = none)
    (h : k.Takes fs) :
    ((k.pieces fs).filterMap f).Perm
      (((k.piece? fs).bind f).toList ++
        (fs.flatMap Field.children).flatMap fun c => c.2.filterMap f) := by
  cases h with
  | label n => cases hn : f (reference n) <;> simp [pieces, piece?, hn, Field.children]
  | derefLabel base label =>
    -- The one kind that does not write its children in their order.
    simpa [pieces, piece?, hf, Field.children] using List.perm_append_comm
  | cfg n instrs =>
    cases hn : f (heading n) <;>
      simp [pieces, piece?, hn, Field.children, List.filterMap_flatMap]
  | prog blocks => simp [pieces, piece?, hf, Field.children, List.filterMap_flatMap]
  | code instrs => simp [pieces, piece?, Field.children, List.filterMap_flatMap]
  | _ => simp [pieces, piece?, hf, Field.children, filterMap_jumpPieces hf]

end

namespace Tree

/-- The role and the pieces of a tree. -/
def piecePart : Tree → Role × List Piece :=
  fold (fun _ _ => (.plain, [])) fun k fs =>
    (.of k fs, match k with
      | .asm k => k.pieces fs
      | _ => [])

/-- The pieces of a tree. A blank has none. -/
def pieces (t : Tree) : List Piece := t.piecePart.2

/-- The piece that is a tree's own: the heading of a block, or the label that is referred to. -/
def piece? : Tree → Option Piece
  | node (.asm k) fs => k.piece? fs
  | _ => none

variable {a : Arrangement} {k : AsmKind} {fs : List (Field Tree)} {t : Tree}

theorem piecePart_eq (t : Tree) : t.piecePart = (t.role, t.pieces) := by
  refine Prod.ext ?_ rfl
  cases t with
  | blank f n => simp [piecePart, role]
  | node k fs => simp [piecePart, role_node, Role.of_map]

theorem pieces_node (k : AsmKind) (fs : List (Field Tree)) :
    (node (.asm k) fs).pieces = k.pieces (fs.map (Field.map piecePart)) := by
  rw [pieces, piecePart, fold_node]

/-- A well-formed node takes its fields, also with other things in the places of its children. -/
theorem WellFormed.takes {α : Type} (h : (node (.asm k) fs).WellFormed) (g : Tree → α) :
    k.Takes (fs.map (Field.map g)) :=
  AsmKind.takes_of_shapes ((Field.map_shape_map ..).trans h.fits.shapes)

/-- **The pieces make the text of the tree**, in both arrangements. -/
theorem text_eq_spell (hw : t.WellFormed) (hf : t.family? = some .asm) :
    t.text a = spell t.pieces := by
  refine hw.induct_asm (P := fun t => t.text a = spell t.pieces) hf
    (fun f n => by simp [pieces, piecePart]) fun k fs hw ih => ?_
  have hparts : fs.map (Field.map (part a)) =
      (fs.map (Field.map piecePart)).map (Field.map (Prod.map id spell)) := by
    rw [List.map_map]
    refine List.map_congr_left fun x hx => ?_
    rw [Function.comp_apply, Field.map_map]
    refine Field.map_congr fun u hu => ?_
    rw [Function.comp_apply, part_eq, piecePart_eq, Prod.map, id,
      ih u (List.mem_flatMap.mpr ⟨x, hx, hu⟩)]
  rw [text_node, (hw.takes (part a)).arrange, hparts, pieces_node]
  exact AsmKind.write_eq_spell (hw.takes piecePart)

/-- **The labels among the pieces of a tree are those of its nodes**, each as often as there are
nodes with it. `f` picks some of them. -/
theorem pieces_perm {β : Type} {f : Piece → Option β} (hv : ∀ s, f (verbatim s) = none)
    (hw : t.WellFormed) (hf : t.family? = some .asm) :
    (t.pieces.filterMap f).Perm (t.preorder.filterMap fun u => u.piece?.bind f) := by
  refine hw.induct_asm (P := fun t => (t.pieces.filterMap f).Perm
    (t.preorder.filterMap fun u => u.piece?.bind f)) hf (fun g n => ?_) fun k fs hw ih => ?_
  · simp [pieces, piecePart, preorder_eq, children, piece?]
  · have htakes := AsmKind.takes_of_shapes hw.fits.shapes
    have hpreorder : (node (.asm k) fs).preorder.filterMap (fun u => u.piece?.bind f) =
        ((k.piece? fs).bind f).toList ++ (fs.flatMap Field.children).flatMap fun u =>
          u.preorder.filterMap fun v => v.piece?.bind f := by
      rw [preorder_eq, children_node (by simp), List.filterMap_eq_flatMap_toList,
        List.flatMap_cons, ← List.filterMap_eq_flatMap_toList, List.filterMap_flatMap]
      rfl
    rw [pieces_node, hpreorder]
    refine (AsmKind.pieces_perm hv (hw.takes piecePart)).trans ?_
    rw [htakes.piece?_map, Field.flatMap_children_map, List.flatMap_map]
    exact (List.Perm.flatMap_left _ ih).append_left _

end Tree

end LoweringIR
