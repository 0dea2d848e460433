import LoweringIR.Json.Printer
import LoweringIR.Json.Token
import Mathlib.Tactic.SplitIfs

/-!
# Texts inside a document

A string is written character by character, and read character by character. What is written for a
character is read as that character and nothing else: a mark or a backslash behind a backslash, a
control character by its letter, any other character outside visible ASCII by the sixteen-bit units
that it has, of which it has two beyond the sixteen-bit range. A character is no surrogate, so a
unit that stands alone is never taken for half of a pair.

## Main results

* `Json.readText_escapeChar` — reading what is written for a character
* `Json.readText_text` — reading what is written for a text
-/

namespace LoweringIR.Json

/-! ### Sixteen-bit units -/

/-- A digit is read as its value. -/
theorem hexValue?_digitChar {d : Nat} (hd : d < 16) : hexValue? (Nat.digitChar d) = some d := by
  have hall : ∀ d < 16, hexValue? (Nat.digitChar d) = some d := by decide
  exact hall d hd

/-- The four digits of a unit, the highest first. -/
theorem escapeUnit_eq (u : Nat) :
    escapeUnit u = ['\\', 'u', Nat.digitChar (u / 4096 % 16), Nat.digitChar (u / 256 % 16),
      Nat.digitChar (u / 16 % 16), Nat.digitChar (u % 16)] := by
  simp [escapeUnit, Text.hexDigits, List.range, List.range.loop]

/-- The digits of a unit spell the unit. -/
theorem unit?_digits {u : Nat} (hu : u < 0x10000) :
    unit? (Nat.digitChar (u / 4096 % 16)) (Nat.digitChar (u / 256 % 16))
      (Nat.digitChar (u / 16 % 16)) (Nat.digitChar (u % 16)) = some u := by
  have hlt : ∀ n, n % 16 < 16 := fun n => Nat.mod_lt n (by decide)
  have hsum : ((u / 4096 % 16 * 16 + u / 256 % 16) * 16 + u / 16 % 16) * 16 + u % 16 = u := by
    omega
  rw [unit?, hexValue?_digitChar (hlt _), hexValue?_digitChar (hlt _), hexValue?_digitChar (hlt _),
    hexValue?_digitChar (hlt _)]
  exact congrArg some hsum

variable {high : Option Nat} {read tail : List Char} {c : Char} {u : Nat}

theorem escapeUnit_append (u : Nat) (tail : List Char) :
    escapeUnit u ++ tail =
      '\\' :: 'u' :: Nat.digitChar (u / 4096 % 16) :: Nat.digitChar (u / 256 % 16) ::
        Nat.digitChar (u / 16 % 16) :: Nat.digitChar (u % 16) :: tail := by
  rw [escapeUnit_eq]
  rfl

/-- A first half of a pair is kept until the second one is read. -/
theorem readText_high (h : isHighSurrogate u = true) :
    readText high read (escapeUnit u ++ tail) = readText (some u) (settle high read) tail := by
  have hu : u < 0x10000 := by
    simp only [isHighSurrogate, Bool.and_eq_true, decide_eq_true_eq] at h
    omega
  rw [escapeUnit_append, readText, unit?_digits hu]
  dsimp only
  rw [if_pos h]

/-- A second half completes the first one. -/
theorem readText_low {first : Nat} (h : isLowSurrogate u = true) :
    readText (some first) read (escapeUnit u ++ tail) =
      readText none (joinSurrogates first u :: read) tail := by
  simp only [isLowSurrogate, Bool.and_eq_true, decide_eq_true_eq] at h
  have hhigh : ¬ isHighSurrogate u = true := by
    simp only [isHighSurrogate, Bool.and_eq_true, decide_eq_true_eq]
    omega
  have hlow : isLowSurrogate u = true := by
    simp only [isLowSurrogate, Bool.and_eq_true, decide_eq_true_eq]
    omega
  rw [escapeUnit_append, readText, unit?_digits (by omega)]
  dsimp only
  rw [if_neg hhigh, if_pos hlow]

/-- A unit that is no surrogate is read as its character. -/
theorem readText_unit (hu : u < 0xD800 ∨ 0xE000 ≤ u ∧ u < 0x10000) :
    readText none read (escapeUnit u ++ tail) = readText none (Char.ofNat u :: read) tail := by
  have hhigh : ¬ isHighSurrogate u = true := by
    simp only [isHighSurrogate, Bool.and_eq_true, decide_eq_true_eq]
    omega
  have hlow : ¬ isLowSurrogate u = true := by
    simp only [isLowSurrogate, Bool.and_eq_true, decide_eq_true_eq]
    omega
  rw [escapeUnit_append, readText, unit?_digits (by omega)]
  dsimp only
  rw [if_neg hhigh, if_neg hlow]
  rfl

/-- The two units of a pair are read as the character that they are the halves of. -/
theorem readText_pair {n : Nat} (hn : 0x10000 ≤ n) (hn' : n < 0x110000) :
    readText none read (escapeUnit (0xD800 + (n - 0x10000) / 0x400) ++
      (escapeUnit (0xDC00 + (n - 0x10000) % 0x400) ++ tail)) =
        readText none (Char.ofNat n :: read) tail := by
  have hfirst : isHighSurrogate (0xD800 + (n - 0x10000) / 0x400) = true := by
    simp only [isHighSurrogate, Bool.and_eq_true, decide_eq_true_eq]
    omega
  have hsecond : isLowSurrogate (0xDC00 + (n - 0x10000) % 0x400) = true := by
    simp only [isLowSurrogate, Bool.and_eq_true, decide_eq_true_eq]
    omega
  have hsum : 0x10000 + (0xD800 + (n - 0x10000) / 0x400 - 0xD800) * 0x400 +
      (0xDC00 + (n - 0x10000) % 0x400 - 0xDC00) = n := by
    omega
  have hjoin : joinSurrogates (0xD800 + (n - 0x10000) / 0x400) (0xDC00 + (n - 0x10000) % 0x400) =
      Char.ofNat n := congrArg Char.ofNat hsum
  rw [readText_high hfirst, readText_low hsecond, hjoin]
  rfl

/-! ### Characters -/

/-- A character is no surrogate. -/
theorem toNat_lt (c : Char) : c.toNat < 0xD800 ∨ 0xE000 ≤ c.toNat ∧ c.toNat < 0x110000 := by
  have := c.valid
  simp only [UInt32.isValidChar, Nat.isValidChar] at this
  simp only [Char.toNat]
  omega

/-- A character is read as it is if it needs no escape. -/
theorem readText_cons (hmark : c ≠ '\x22') (hback : c ≠ '\\') (hc : 0x20 ≤ c.toNat) :
    readText none read (c :: tail) = readText none (c :: read) tail := by
  rw [readText, if_neg hmark, if_neg]
  · rfl
  · simpa [hback] using hc
  · exact fun _ _ _ _ _ h => absurd h hback
  · exact fun _ _ h => absurd h hback

/-- **What is written for a character** is read as that character. -/
theorem readText_escapeChar (c : Char) :
    readText none read (escapeChar c ++ tail) = readText none (c :: read) tail := by
  have hvalid := toNat_lt c
  have hofNat : Char.ofNat c.toNat = c := Char.ofNat_toNat c
  unfold escapeChar
  dsimp only
  split_ifs with hmark hback hline hreturn htab hb hf hplain hunit
  · subst hmark; rfl
  · subst hback; rfl
  · subst hline; rfl
  · subst hreturn; rfl
  · subst htab; rfl
  · rw [← hofNat, hb]; rfl
  · rw [← hofNat, hf]; rfl
  · exact readText_cons hmark hback hplain.1
  · rw [readText_unit (by omega), hofNat]
  · rw [List.append_assoc, readText_pair (by omega) (by omega), hofNat]

/-- What is written for characters is read as these characters, up to the closing mark. -/
theorem readText_flatMap (cs : List Char) :
    readText none read (cs.flatMap escapeChar ++ '\x22' :: tail) =
      some (String.ofList (read.reverse ++ cs), tail) := by
  induction cs generalizing read with
  | nil =>
    rw [List.flatMap_nil, List.nil_append, List.append_nil, readText]
    · rfl
    all_goals simp
  | cons c cs ih =>
    rw [List.flatMap_cons, List.append_assoc, readText_escapeChar, ih, List.reverse_cons,
      List.append_assoc, List.singleton_append]

/-- **What is written for a text** is read as that text. -/
theorem readText_text (s : String) :
    readText none [] (s.toList.flatMap escapeChar ++ '\x22' :: tail) = some (s, tail) := by
  rw [readText_flatMap, List.reverse_nil, List.nil_append, String.ofList_toList]

end LoweringIR.Json
