import LoweringIR.Proofs.Disk.FileSystem
import LoweringIR.Proofs.Document.Load
import LoweringIR.Proofs.Interchange.RoundTrip
import LoweringIR.Proofs.Interchange.Stored
import LoweringIR.Proofs.Json.Ascii
import LoweringIR.Proofs.Json.Parse

/-!
# Saving and loading

Between a tree and its file there are its encoding, a document, a text and bytes, and each of these
steps has been undone by itself. This module puts them together. A whole well-formed tree comes back
from the disk as it was saved if it nests within the limit of documents, and otherwise it is
refused.

The whole text is there before the disk is touched. So a tree that has no document, for whatever
reason, changes nothing on the disk.

## Main definitions

* `Document.enclose` — the document around the one of a tree

## Main results

* `Document.ofTree_eq` — the document of a tree, or that it nests too deeply
* `Document.load_enclose` — loading the text of a document
* `Document.save_load` — trees survive the disk, and what is refused does not touch it
-/

namespace LoweringIR.Document

open Text.Utf8 (IsAscii)

variable {t : Tree} {f : Family} {d : Json} {e : DumpFault}

/-! ### The document of a tree -/

/-- The document with that tree, one level down. -/
def enclose (f : Family) (d : Json) : Json :=
  .obj [("format", .str format), ("family", .str f.name), ("tree", d)]

theorem depth_enclose (f : Family) (d : Json) : (enclose f d).depth = 1 + d.depth := by
  simp [enclose, Json.depth, Json.depthMembers]

theorem readable_enclose (f : Family) (hd : d.Readable) : (enclose f d).Readable := by
  refine .obj (by simp) fun m hm => ?_
  simp only [List.mem_cons, List.not_mem_nil, or_false] at hm
  obtain rfl | rfl | rfl := hm
  · exact .str format
  · exact .str f.name
  · exact hd

theorem familyOf_eq (hf : t.family? = some f) : familyOf t = .ok f := by rw [familyOf, hf]

/-- **The document of a tree** is the one around its encoding, if there is room for it. -/
theorem ofTree_eq (hf : t.family? = some f) (hd : (Value.node t).encode = .ofJson d) :
    ofTree t = if d.depth < Json.depthLimit then .ok (enclose f d)
      else .error (.tooDeep t.headName) := by
  have hroom : d.depth ≤ Json.depthLimit - 1 ↔ d.depth < Json.depthLimit := by
    have : 0 < Json.depthLimit := by decide
    omega
  rw [ofTree, familyOf_eq hf, ok_bind, hd, Value.toJson_ofJson, Value.fit]
  by_cases h : d.depth < Json.depthLimit
  · rw [if_pos (hroom.mpr h), if_pos h]
    rfl
  · rw [if_neg (mt hroom.mp h), if_neg h]

/-- A tree has no document for one of three reasons: it is of no family, it nests too deeply, or a
part of it has no written form. -/
theorem refused_of_dump (h : dump t = .error e) :
    t.family? = none ∧ e = .noFamily t.headName ∨
      (Value.node t).encode.toJson (Json.depthLimit - 1) = .error .tooDeep ∧
        e = .tooDeep t.headName ∨
      ∃ part, (Value.node t).encode.toJson (Json.depthLimit - 1) = .error (.foreign part) ∧
        e = .notSerializable part.typeName := by
  have hof : ofTree t = .error e := by
    obtain h | ⟨j, -, h⟩ := bind_eq_error_iff.mp h
    · exact h
    · cases h
  rw [ofTree, familyOf] at hof
  cases hf : t.family? with
  | none =>
    rw [hf] at hof
    exact .inl ⟨rfl, (Except.error.inj hof).symm⟩
  | some f =>
    rw [hf] at hof
    dsimp only at hof
    rw [ok_bind] at hof
    split at hof
    · next hdeep => exact .inr (.inl ⟨hdeep, (Except.error.inj hof).symm⟩)
    · next part hforeign => exact .inr (.inr ⟨part, hforeign, (Except.error.inj hof).symm⟩)
    · cases hof

/-- What is in a document is the tree that is decoded from it. -/
theorem toTree_enclose
    (h : (Tree.decode (.ofJson d) (.str f.name) : Except DecodeFault Tree) = .ok t) :
    toTree (enclose f d) = .ok (f.name, t) := by
  simp [toTree, enclose, Json.get?, scalarText, h]

theorem decode_document (hw : t.WellFormed) (hc : t.Whole) (hf : t.family? = some f)
    (hd : (Value.node t).encode = .ofJson d) :
    (Tree.decode (.ofJson d) (.str f.name) : Except DecodeFault Tree) = .ok t := by
  rw [← hd]
  cases t with
  | blank g n => exact absurd hc (Tree.not_whole_blank g n)
  | node k fs => exact Tree.decode_eq_ok (Value.roundTrips_node hw hc hf)

/-! ### Texts and bytes -/

/-- **Loading the text of a document** gives the tree in it. -/
theorem load_enclose (path : String) (hd : d.Readable) (hdepth : d.depth < Json.depthLimit)
    (h : (Tree.decode (.ofJson d) (.str f.name) : Except DecodeFault Tree) = .ok t) :
    (load path (Text.Utf8.encode ((enclose f d).text ++ "\n"))).result = .ok t := by
  have hparse := Json.parse_text (readable_enclose f hd)
    (show (enclose f d).depth ≤ Json.depthLimit by rw [depth_enclose]; omega)
  rw [result_load, parse, Text.Utf8.decode_encoded]
  dsimp only
  rw [hparse]
  dsimp only
  rw [ok_bind, toTree_enclose h]
  rfl

/-! ### The disk -/

/-- Saving a tree is writing its text, if it has one. -/
theorem run_save (fs : FileSystem) (p : Path) (t : Tree) :
    (save FileSystem.disk p t).run fs =
      match dump t with
      | .error e => (.error (.dump e), fs)
      | .ok s => match fs.write p (Text.Utf8.encode s) with
        | .error e => (.error (.file p e), fs)
        | .ok fs' => (.ok (), fs') := by
  unfold save
  cases dump t with
  | error e => rfl
  | ok s =>
    dsimp only
    rw [StateT.run_bind, FileSystem.run_write]
    cases fs.write p (Text.Utf8.encode s) <;> rfl

/-- **Trees survive the disk.** The encoding of a whole well-formed tree is a document value. If
that nests within the limit, the tree is saved as a text in ASCII with one new line at its end,
wherever a file can be written; no other file is touched, and the tree that is loaded from that file
is the same tree, of the same family. If it nests deeper, the tree is refused. Whatever a tree is
refused for, the disk is as it was. -/
theorem save_load :
    (∀ t f, t.WellFormed → t.Whole → t.family? = some f →
      ∃ d : Json, (Value.node t).encode = .ofJson d ∧
        (Json.depthLimit ≤ d.depth → dump t = .error (.tooDeep t.headName)) ∧
        (d.depth < Json.depthLimit →
          ∃ body, dump t = .ok (body ++ "\n") ∧ IsAscii body ∧
            body.toList.getLast? = some '\x7d' ∧
            ∀ (fs : FileSystem) p l, fs.locate p = .ok l → fs.get? l ≠ some .directory →
              ∃ fs' bytes u, (save FileSystem.disk p t).run fs = (.ok (), fs') ∧
                bytes = Text.Utf8.encode (body ++ "\n") ∧ (∀ b ∈ bytes, b < 0x80) ∧
                fs.Replaced p bytes fs' ∧ fs'.read p = .ok bytes ∧
                (load p.text bytes).result = .ok u ∧ u = t ∧ familyOf u = .ok f)) ∧
    ∀ t e, dump t = .error e →
      (t.family? = none ∧ e = .noFamily t.headName ∨
        (Value.node t).encode.toJson (Json.depthLimit - 1) = .error .tooDeep ∧
          e = .tooDeep t.headName ∨
        ∃ part, (Value.node t).encode.toJson (Json.depthLimit - 1) = .error (.foreign part) ∧
          e = .notSerializable part.typeName) ∧
      ∀ fs p, (save FileSystem.disk p t).run fs = (.error (.dump e), fs) := by
  refine ⟨fun t f hw hc hf => ?_,
    fun t e he => ⟨refused_of_dump he, fun fs p => by rw [run_save, he]⟩⟩
  obtain ⟨d, hreadable, hd⟩ := Value.stored_node hw hc
  refine ⟨d, hd, fun hdeep => ?_, fun hdepth => ?_⟩
  · rw [dump, ofTree_eq hf hd, if_neg (Nat.not_lt.mpr hdeep)]
    rfl
  · have hdump : dump t = .ok ((enclose f d).text ++ "\n") := by
      rw [dump, ofTree_eq hf hd, if_pos hdepth]
      rfl
    have hascii : IsAscii (enclose f d).text := Json.isAscii_textAt (readable_enclose f hreadable) 0
    refine ⟨(enclose f d).text, hdump, hascii, Json.getLast?_text_obj _,
      fun fs p l hl hdirectory => ?_⟩
    have hwrite : fs.write p (Text.Utf8.encode ((enclose f d).text ++ "\n")) = .ok _ :=
      FileSystem.write_eq_ok_iff.mpr ⟨l, hl, hdirectory, rfl⟩
    have hreplaced := FileSystem.replaced_of_write hwrite
    refine ⟨_, _, t, ?_, rfl, fun b hb => ?_, hreplaced, hreplaced.read_self, ?_, rfl,
      familyOf_eq hf⟩
    · rw [run_save, hdump]
      dsimp only
      rw [hwrite]
    · exact Text.Utf8.lt_of_mem_encode (hascii.append (by decide)) hb
    · exact load_enclose p.text hreadable hdepth (decode_document hw hc hf hd)

/-- A binding whose names have a mark, a backslash, the ends of lines and of texts, and a character
that has two units. -/
def escapesLet : Tree :=
  .node (.scheme .letIn)
    [.bindings [("\x22\\\n", .node (.common .scheme .symbol) [.name "\x00"])],
      .node (.node (.common .scheme .symbol) [.name "𝔸"])]

/-- It takes the place of another file, and a tree of no family does not. -/
theorem save_escapesLet :
    (∃ body fs' bytes, dump escapesLet = .ok (body ++ "\n") ∧ IsAscii body ∧
      (save FileSystem.disk ⟨"", ["doc.json"]⟩ escapesLet).run
        ⟨[(⟨false, 0, ["doc.json"]⟩, .file [0xFF])]⟩ = (.ok (), fs') ∧
      fs'.read ⟨"", ["doc.json"]⟩ = .ok bytes ∧
      (load "doc.json" bytes).result = .ok escapesLet) ∧
    ∀ fs p, (save FileSystem.disk p (.blank none 0)).run fs =
      (.error (.dump (.noFamily "Node")), fs) := by
  refine ⟨?_, (save_load.2 (.blank none 0) (.noFamily "Node") rfl).2⟩
  obtain ⟨d, hd, -, hdump⟩ := save_load.1 escapesLet .scheme (by decide) (by decide) rfl
  have hdocument : (Value.node escapesLet).encode = .ofJson
      (.obj [("kind", .str "Let"),
        ("bindings", .arr [.arr [.str "\x22\\\n",
          .obj [("kind", .str "Symbol"), ("name", .str "\x00")]]]),
        ("tail", .obj [("kind", .str "Symbol"), ("name", .str "𝔸")])]) := by
    simp [escapesLet, Value.encode_node, Value.encode_tuple, Value.described, Value.ofField,
      Kind.schema, Kind.name, CommonKind.schema, CommonKind.name, SchemeKind.schema,
      SchemeKind.name]
  obtain rfl := Value.ofJson_injective (hd.symm.trans hdocument)
  obtain ⟨body, hbody, hascii, -, hsave⟩ := hdump (by decide)
  obtain ⟨fs', bytes, u, hrun, -, -, -, hread, hload, rfl, -⟩ :=
    hsave ⟨[(⟨false, 0, ["doc.json"]⟩, .file [0xFF])]⟩ ⟨"", ["doc.json"]⟩ ⟨false, 0, ["doc.json"]⟩
      rfl (by decide)
  exact ⟨body, fs', bytes, hbody, hascii, hrun, hread, hload⟩

end LoweringIR.Document
