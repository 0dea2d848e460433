import LoweringIR.Document
import LoweringIR.Label.Check
import LoweringIR.Proofs.Interchange.Sound
import LoweringIR.Proofs.Rendering.Text

/-!
# What loading gives

Anything may stand where a document has its format, its family and its tree. Loading looks at all
three, and what it does not expect it refuses with a fault of its own kind. What it accepts names
its family by a text. A document that has something else there is read for a family that is named by
a literal, but a literal has a character in it that is no small letter, or is the word of a number
that is none, and the names of families are made of small letters.

What has been loaded is a whole well-formed tree of the family that the document names. So it has a
text in every arrangement, and can be emitted if its labels can.

## Main definitions

* `Document.LoadFault.Announced` — the faults that a reader of documents expects

## Main results

* `Document.scalarText_eq_name_iff` — only a text names a family
* `Document.sound_of_load`, `Document.announced_of_load` — trees that are loaded, and faults
* `Document.label_of_emit` — why a tree that has been loaded is not emitted
-/

namespace LoweringIR

/-! ### Literals are no names of families -/

namespace Text

/-- The text has a character that is no small letter. -/
def HasMark (s : String) : Prop := ∃ c ∈ s.toList, c.isLower = false

instance (s : String) : Decidable (HasMark s) :=
  List.decidableBEx _ _

theorem HasMark.append_left {s : String} (h : HasMark s) (t : String) : HasMark (s ++ t) := by
  obtain ⟨c, hc, hl⟩ := h
  exact ⟨c, by simp [hc], hl⟩

theorem HasMark.append_right {t : String} (s : String) (h : HasMark t) : HasMark (s ++ t) := by
  obtain ⟨c, hc, hl⟩ := h
  exact ⟨c, by simp [hc], hl⟩

/-- No family has a name with such a character. -/
theorem HasMark.ne_name {s : String} (h : HasMark s) (f : Family) : s ≠ f.name := by
  rintro rfl
  obtain ⟨c, hc, hl⟩ := h
  have hnames : f.name.toList.all Char.isLower = true := by
    cases f <;> decide
  rw [List.all_eq_true.mp hnames c hc] at hl
  cases hl

theorem hasMark_nat (n : Nat) : HasMark (toString n) := by
  obtain ⟨c, hc⟩ := List.exists_mem_of_ne_nil _ (@Nat.toDigits_ne_nil n 10)
  refine ⟨c, ?_, ?_⟩
  · simpa [Nat.toString_eq_repr, Nat.repr_eq_ofList_toDigits] using hc
  · have hdigit := Nat.isDigit_of_mem_toDigits (by decide) (by decide) hc
    have hlower : c.isLower = (decide ('a'.val ≤ c.val) && decide (c.val ≤ 'z'.val)) := rfl
    simp only [Char.isDigit, hlower, Bool.and_eq_true, Bool.and_eq_false_iff, decide_eq_true_eq,
      decide_eq_false_iff_not, ge_iff_le, UInt32.le_iff_toNat_le] at hdigit ⊢
    have h9 : '9'.val.toNat = 57 := rfl
    have ha : 'a'.val.toNat = 97 := rfl
    omega

theorem hasMark_int (n : Int) : HasMark (toString n) := by
  cases n with
  | ofNat n => exact hasMark_nat n
  | negSucc n => exact .append_right "-" (hasMark_nat (n + 1))

end Text

open Text (HasMark)

theorem Binary64.hasMark_exponentText (e : Int) : HasMark (exponentText e) := by
  refine .append_left ?_ _
  split <;> decide

theorem Binary64.Numeral.hasMark_text (n : Numeral) : HasMark n.text := by
  unfold text
  dsimp only
  split
  · exact .append_right _ (hasMark_exponentText _)
  · split
    · exact .append_left (by decide) _
    · exact .append_left (.append_right _ (by decide)) _

theorem Binary64.text_ne_name (x : Binary64) (f : Family) : x.text ≠ f.name := by
  cases x with
  | finite s m e =>
    refine HasMark.ne_name (.append_right _ ?_) f
    split
    · decide
    · exact Numeral.hasMark_text _
  | infinite s => cases s <;> cases f <;> decide
  | nan => cases f <;> decide

namespace Document

/-- **Only a text names a family.** Whatever else a document has for its family, its literal is no
name of one. -/
theorem scalarText_eq_name_iff {j : Json} {f : Family} :
    scalarText j = f.name ↔ j = .str f.name := by
  cases j with
  | null =>
    have hmark : HasMark (Value.literal .null) := by decide
    simpa [scalarText, Value.ofJson] using hmark.ne_name f
  | bool b =>
    have hmark : HasMark (Value.literal (.bool b)) := by cases b <;> decide
    simpa [scalarText, Value.ofJson] using hmark.ne_name f
  | int n => simpa [scalarText, Value.ofJson, Value.literal] using (Text.hasMark_int n).ne_name f
  | float x => simpa [scalarText, Value.ofJson, Value.literal] using x.text_ne_name f
  | str s => simp [scalarText]
  | arr items =>
    have hmark : HasMark (listLiteral (Value.literals (items.map Value.ofJson))) :=
      .append_left (.append_left (by decide) _) _
    simpa [scalarText, Value.literal] using hmark.ne_name f
  | obj members =>
    have hmark : HasMark (Value.dict (members.map fun m => (.str m.1, .ofJson m.2))).literal :=
      .append_left (.append_left (by decide) _) _
    simpa [scalarText] using hmark.ne_name f

/-! ### Loading -/

/-- The fault is one that a reader of documents expects. -/
def LoadFault.Announced : LoadFault → Prop
  | decode e => e.Announced
  | _ => True

variable {path : String} {bytes : List UInt8} {d : Json} {name : String} {t : Tree} {e : LoadFault}

/-- Reading the tree of a document is reading what it describes, in the family of that name. -/
theorem decode_name (d : Json) (name : String) :
    (Tree.decode (.ofJson d) (.str name) : Except DecodeFault Tree) =
      match Family.ofName? name with
      | some f => d.describedTree f
      | none => .error (.unknownFamily (.str name)) := by
  cases hf : Family.ofName? name with
  | some f =>
    have hname : f.name = name := by simpa using List.find?_some hf
    rw [← hname]
    exact Tree.decode_ofJson f d
  | none =>
    rw [Tree.decode, Family.ofValue, Value.text?, Option.bind_some, hf]
    · rfl
    all_goals simp

theorem announced_of_parse (h : parse path bytes = .error e) : e.Announced := by
  unfold parse at h
  split at h
  · cases h
    trivial
  · split at h
    all_goals cases h
    all_goals trivial

theorem announced_of_toTree (h : toTree d = .error e) : e.Announced := by
  unfold toTree at h
  split at h
  · dsimp only at h
    split at h
    · split at h
      · split at h
        · cases h
          trivial
        · split at h
          · next fault hdecode =>
            cases h
            rw [decode_name] at hdecode
            split at hdecode
            · exact Json.announced_of_describedTree hdecode
            · cases hdecode
              trivial
          · cases h
      · cases h
        trivial
    · cases h
      trivial
  · cases h
    trivial

/-- A document that holds a tree is an object that names the family of the tree, and the tree is
what it describes. -/
theorem eq_of_toTree (h : toTree d = .ok (name, t)) :
    ∃ members f j, d = .obj members ∧ Json.get? "family" members = some (.str f.name) ∧
      Json.get? "tree" members = some j ∧ j.describedTree f = .ok t := by
  unfold toTree at h
  split at h
  · next members =>
    dsimp only at h
    split at h
    · split at h
      · split at h
        · cases h
        · next j htree =>
          split at h
          · cases h
          · next t' hdecode =>
            cases h
            rw [decode_name] at hdecode
            split at hdecode
            · next f hf =>
              have hname : f.name = scalarText ((Json.get? "family" members).getD .null) := by
                simpa using List.find?_some hf
              have hfamily := scalarText_eq_name_iff.mp hname.symm
              refine ⟨members, f, j, rfl, ?_, htree, hdecode⟩
              cases hget : Json.get? "family" members with
              | none => simp [hget] at hfamily
              | some k => simpa [hget] using hfamily
            · cases hdecode
      · cases h
    · cases h
  · cases h

/-- The tree that is loaded is the one in the document. -/
theorem result_load (path : String) (bytes : List UInt8) :
    (load path bytes).result = Prod.snd <$> (parse path bytes >>= toTree) := by
  unfold load
  cases hload : (parse path bytes >>= toTree) <;> rfl

/-- **Faults of loading** are announced. -/
theorem announced_of_load (h : (load path bytes).result = .error e) : e.Announced := by
  rw [result_load, map_eq_error_iff] at h
  obtain h | ⟨d, -, h⟩ := bind_eq_error_iff.mp h
  · exact announced_of_parse h
  · exact announced_of_toTree h

/-- **What is loaded** is a whole well-formed tree of the family that the document names. -/
theorem sound_of_load (h : (load path bytes).result = .ok t) :
    t.WellFormed ∧ t.Whole ∧ ∃ members f, parse path bytes = .ok (.obj members) ∧
      Json.get? "family" members = some (.str f.name) ∧ t.family? = some f := by
  rw [result_load, map_eq_ok_iff] at h
  obtain ⟨⟨name, u⟩, h, rfl⟩ := h
  obtain ⟨d, hd, h⟩ := bind_eq_ok_iff.mp h
  obtain ⟨members, f, j, rfl, hfamily, -, hj⟩ := eq_of_toTree h
  obtain ⟨hw, hc, hf⟩ := Json.sound_of_describedTree hj
  exact ⟨hw, hc, members, f, hd, hfamily, hf⟩

/-- A whole well-formed tree can be emitted if its labels can. -/
theorem label_of_emit {checked : Bool} {e : Label.EmitFault} (hw : t.WellFormed) (hc : t.Whole)
    (h : (Label.emit checked t).result = .error e) : ∃ fault, e = .label fault := by
  unfold Label.emit at h
  dsimp only at h
  rw [Tree.render_eq_text hw hc] at h
  split at h
  · split at h
    · cases h
      exact ⟨_, rfl⟩
    · cases h
  · cases h

end Document

end LoweringIR
