import LoweringIR.Proofs.Json.Tokens
import LoweringIR.Proofs.Text.Utf8

/-!
# The characters of a written document

A document is in ASCII whatever its strings are, since a character outside ASCII is written by the
numbers of its units. An object is closed by the mark that ends its text, so nothing that looks like
the end of a line is at the end of a document besides the one that is put there.

## Main results

* `Json.isAscii_textAt` — the text of a value is in ASCII
* `Json.getLast?_text_obj` — the last character of an object
-/

namespace LoweringIR

namespace Text.Utf8

variable {s t : String}

theorem IsAscii.append (hs : IsAscii s) (ht : IsAscii t) : IsAscii (s ++ t) := by
  intro c hc
  rw [String.toList_append, List.mem_append] at hc
  exact hc.elim (hs c) (ht c)

theorem IsAscii.intercalate {lines : List String} (hs : IsAscii s)
    (h : ∀ line ∈ lines, IsAscii line) : IsAscii (s.intercalate lines) := by
  induction lines with
  | nil => simp [IsAscii]
  | cons line lines ih =>
    have hline : IsAscii line := h line (by simp)
    cases lines with
    | nil => simpa using hline
    | cons next lines =>
      rw [String.intercalate_cons_cons]
      exact (hline.append hs).append (ih fun l hl => h l (by simp [hl]))

end Text.Utf8

namespace Json

open Text.Utf8 (IsAscii)

theorem toNat_digitChar_lt (u : Nat) : (Nat.digitChar (u % 16)).toNat < 0x80 := by
  have hall : ∀ d < 16, (Nat.digitChar d).toNat < 0x80 := by decide
  exact hall _ (Nat.mod_lt u (by decide))

theorem toNat_lt_of_mem_escapeUnit {u : Nat} {c : Char} (h : c ∈ escapeUnit u) :
    c.toNat < 0x80 := by
  have hmarks : ∀ c ∈ ['\\', 'u'], c.toNat < 0x80 := by simp
  rw [escapeUnit_eq] at h
  simp only [List.mem_cons, List.not_mem_nil, or_false] at h
  rcases h with rfl | rfl | rfl | rfl | rfl | rfl
  · exact hmarks _ (by simp)
  · exact hmarks _ (by simp)
  all_goals exact toNat_digitChar_lt _

/-- What is written for a character is in ASCII. -/
theorem toNat_lt_of_mem_escapeChar {c d : Char} (h : d ∈ escapeChar c) : d.toNat < 0x80 := by
  have hescape : ∀ e ∈ ['\x22', '\\', 'n', 'r', 't', 'b', 'f'],
      ∀ d ∈ ['\\', e], d.toNat < 0x80 := by
    simp
  unfold escapeChar at h
  dsimp only at h
  split_ifs at h with hmark hback hline hreturn htab hb hf hplain hunit
  · exact hescape c (by simp [hmark]) d h
  · exact hescape c (by simp [hback]) d h
  · exact hescape 'n' (by decide) d h
  · exact hescape 'r' (by decide) d h
  · exact hescape 't' (by decide) d h
  · exact hescape 'b' (by decide) d h
  · exact hescape 'f' (by decide) d h
  · rw [List.mem_singleton.mp h]
    exact Nat.lt_succ_of_lt hplain.2
  · exact toNat_lt_of_mem_escapeUnit h
  · exact (List.mem_append.mp h).elim toNat_lt_of_mem_escapeUnit toNat_lt_of_mem_escapeUnit

theorem isAscii_stringText (s : String) : IsAscii (stringText s) := by
  intro c hc
  have hmark : '\x22'.toNat < 0x80 := by decide
  rw [stringText, String.toList_ofList, List.cons_append, List.mem_cons, List.mem_append,
    List.mem_flatMap, List.mem_singleton] at hc
  rcases hc with rfl | ⟨d, -, hd⟩ | rfl
  · exact hmark
  · exact toNat_lt_of_mem_escapeChar hd
  · exact hmark

theorem isAscii_lineStart (level : Nat) : IsAscii (lineStart level) := by
  intro c hc
  have hmarks : ∀ c ∈ ['\n', ' '], c.toNat < 0x80 := by simp
  rw [lineStart, String.toList_ofList, List.mem_cons] at hc
  obtain rfl | hc := hc
  · exact hmarks _ (by simp)
  · rw [List.eq_of_mem_replicate hc]
    exact hmarks _ (by simp)

theorem isAscii_enclose {opening closing : String} {level : Nat} {lines : List String}
    (hopening : IsAscii opening) (hclosing : IsAscii closing) (h : ∀ line ∈ lines, IsAscii line) :
    IsAscii (enclose opening closing level lines) := by
  have hstart := isAscii_lineStart (level + 1)
  have hcomma : IsAscii ("," ++ lineStart (level + 1)) := .append (by decide) hstart
  cases lines with
  | nil => exact hopening.append hclosing
  | cons line lines =>
    have hlines := hcomma.intercalate h
    have hbody := (hopening.append hstart).append hlines
    exact (hbody.append (isAscii_lineStart level)).append hclosing

theorem isAscii_int (n : Int) : IsAscii (toString n) := by
  intro c hc
  have hsign : '-'.toNat < 0x80 := by decide
  have hdigit : ∀ m, c ∈ Nat.toDigits 10 m → c.toNat < 0x80 := fun m hm => by
    have := isDigit_of_mem hm
    simp only [isDigit, Bool.and_eq_true, decide_eq_true_eq] at this
    exact Nat.lt_of_le_of_lt this.2 (by decide)
  cases n with
  | ofNat n =>
    rw [show (toString (Int.ofNat n)).toList = Nat.toDigits 10 n from toList_nat n] at hc
    exact hdigit n hc
  | negSucc n =>
    rw [toList_negSucc, List.mem_cons] at hc
    obtain rfl | hc := hc
    · exact hsign
    · exact hdigit (n + 1) hc

/-- **The text of a value** is in ASCII. -/
theorem isAscii_textAt {j : Json} (hj : Readable j) (level : Nat) : IsAscii (textAt level j) := by
  induction hj generalizing level with
  | null =>
    rw [textAt]
    decide
  | bool b =>
    rw [textAt]
    cases b <;> decide
  | @int n h =>
    rw [textAt]
    exact isAscii_int n
  | str s =>
    rw [textAt]
    exact isAscii_stringText s
  | @arr items _ ih =>
    rw [textAt, itemTexts_eq]
    refine isAscii_enclose (by decide) (by decide) (List.forall_mem_map.mpr fun j hj => ?_)
    exact ih j hj (level + 1)
  | @obj members _ _ ih =>
    rw [textAt, memberTexts_eq]
    refine isAscii_enclose (by decide) (by decide) (List.forall_mem_map.mpr fun m hm => ?_)
    exact ((isAscii_stringText m.1).append (by decide)).append (ih m hm (level + 1))

/-- An object ends with the mark that closes it. -/
theorem getLast?_text_obj (members : List (String × Json)) :
    (text (.obj members)).toList.getLast? = some '\x7d' := by
  rw [text, textAt]
  cases memberTexts (0 + 1) members with
  | nil => rfl
  | cons line lines =>
    rw [enclose, String.toList_append, List.getLast?_append]
    · rfl
    · exact List.cons_ne_nil line lines

end Json

end LoweringIR
