import LoweringIR.Json.Printer
import LoweringIR.Json.Token

/-!
# Integers inside a document

An integer is written in decimal digits without a zero in front, behind a sign if it is negative.
Reading takes the longest run of digits, and what is behind an integer in a document that has been
written is a comma or the end of a line. So the run ends where the integer does, and neither
decimals nor an exponent follow.

## Main definitions

* `Json.Separated` — what is behind a value in a document that has been written

## Main results

* `Json.readScalar_int` — reading what is written for an integer
-/

namespace LoweringIR.Json

variable {rest : List Char} {n : Nat}

/-- What is behind a value in a document that has been written: a comma, or the end of a line. -/
def Separated (rest : List Char) : Prop := ∃ c ∈ rest.head?, c = ',' ∨ c = '\n'

theorem separated_comma (cs : List Char) : Separated (',' :: cs) := ⟨',', rfl, .inl rfl⟩

theorem separated_line (cs : List Char) : Separated ('\n' :: cs) := ⟨'\n', rfl, .inr rfl⟩

/-! ### Digits -/

theorem isDigit_of_mem {c : Char} (hc : c ∈ Nat.toDigits 10 n) : isDigit c = true := by
  have hdigit := Nat.isDigit_of_mem_toDigits (by decide) (by decide) hc
  simp only [Char.isDigit, Bool.and_eq_true, decide_eq_true_eq, ge_iff_le,
    UInt32.le_iff_toNat_le] at hdigit
  rw [isDigit, Bool.and_eq_true, decide_eq_true_eq, decide_eq_true_eq]
  exact hdigit

/-- Digits spell the number that they are the digits of. -/
theorem digitsValue_toDigits (n : Nat) : digitsValue (Nat.toDigits 10 n) = n := by
  have hspell : ∀ cs : List Char, digitsValue cs = Nat.ofDigitChars 10 cs 0 := by
    intro cs
    rw [digitsValue, Nat.ofDigitChars]
    congr 1
    funext m c
    rw [Nat.mul_comm]
  rw [hspell]
  exact Nat.ofDigitChars_toDigits (by decide) (by decide)

/-- A number has no zero in front, unless it is zero. -/
theorem head?_toDigits_ne_zero (hn : 0 < n) : (Nat.toDigits 10 n).head? ≠ some '0' := by
  induction n using Nat.strongRecOn with
  | _ n ih =>
    by_cases hlt : n < 10
    · rw [Nat.toDigits_of_lt_base hlt]
      have hall : ∀ m < 10, 0 < m → [Nat.digitChar m].head? ≠ some '0' := by decide
      exact hall n hlt hn
    · obtain ⟨d, ds, hd⟩ := List.exists_cons_of_ne_nil (@Nat.toDigits_ne_nil (n / 10) 10)
      have hfirst := ih (n / 10) (by omega) (by omega)
      rw [Nat.toDigits_of_base_le (by decide) (Nat.le_of_not_lt hlt)]
      rw [hd] at hfirst ⊢
      exact hfirst

/-- A separator is no digit, and starts neither decimals nor an exponent. -/
theorem Separated.dropWhile_isDigit (h : Separated rest) :
    rest.takeWhile isDigit = [] ∧ rest.dropWhile isDigit = rest ∧ readDecimals rest = ([], rest) ∧
      readExponent rest = (none, rest) := by
  obtain ⟨c, hc, hsep⟩ := h
  obtain ⟨tail, rfl⟩ := List.head?_eq_some_iff.mp hc
  obtain rfl | rfl := hsep
  · exact ⟨rfl, rfl, rfl, rfl⟩
  · exact ⟨rfl, rfl, rfl, rfl⟩

theorem readWhole?_toDigits (h : Separated rest) :
    readWhole? (Nat.toDigits 10 n ++ rest) = some (Nat.toDigits 10 n, rest) := by
  obtain rfl | hn := Nat.eq_zero_or_pos n
  · rw [Nat.toDigits_zero]
    rfl
  · have hdigits : ∀ c ∈ Nat.toDigits 10 n, isDigit c = true := fun c hc => isDigit_of_mem hc
    have hhead := head?_toDigits_ne_zero hn
    have htake : (Nat.toDigits 10 n ++ rest).takeWhile isDigit = Nat.toDigits 10 n := by
      rw [List.takeWhile_append_of_pos hdigits, h.dropWhile_isDigit.1, List.append_nil]
    have hdrop : (Nat.toDigits 10 n ++ rest).dropWhile isDigit = rest := by
      rw [List.dropWhile_append_of_pos hdigits, h.dropWhile_isDigit.2.1]
    rw [readWhole?]
    · rw [htake, hdrop, if_neg (by simp [Nat.toDigits_ne_nil])]
    · intro tail htail
      obtain ⟨d, ds, hd⟩ := List.exists_cons_of_ne_nil (@Nat.toDigits_ne_nil n 10)
      rw [hd, List.cons_append, List.cons.injEq] at htail
      exact hhead (by rw [hd, htail.1]; rfl)

/-- A run of digits is read to its end. -/
theorem readNumber?_toDigits (negative : Bool) (h : Separated rest) :
    readNumber? negative (Nat.toDigits 10 n ++ rest) =
      some (integer negative (Nat.toDigits 10 n), rest) := by
  obtain ⟨-, -, hdecimals, hexponent⟩ := h.dropWhile_isDigit
  rw [readNumber?, readWhole?_toDigits h]
  dsimp only
  rw [hdecimals, hexponent]
  rfl

theorem integer_toDigits (negative : Bool) (hn : (Nat.toDigits 10 n).length ≤ digitLimit) :
    integer negative (Nat.toDigits 10 n) = .scalar (.int (if negative then -n else n)) := by
  rw [integer, if_neg (Nat.not_lt.mpr hn), digitsValue_toDigits]

/-! ### Integers -/

/-- No word starts with a digit, and none with a digit behind a sign. -/
theorem readWord?_digit {c : Char} (hc : isDigit c = true) (cs : List Char) :
    readWord? (c :: cs) = none ∧ readWord? ('-' :: c :: cs) = none := by
  have hne : ∀ d, isDigit d = false → d ≠ c := by
    rintro d hd rfl
    rw [hc] at hd
    cases hd
  simp [readWord?, words, hne 'n' rfl, hne 't' rfl, hne 'f' rfl, hne 'N' rfl, hne 'I' rfl,
    hne '-' rfl]

/-- A run of digits is a scalar, with or without a sign. -/
theorem readScalar_toDigits (hn : (Nat.toDigits 10 n).length ≤ digitLimit) (h : Separated rest) :
    readScalar (Nat.toDigits 10 n ++ rest) = .token (.scalar (.int n)) rest ∧
      readScalar ('-' :: Nat.toDigits 10 n ++ rest) = .token (.scalar (.int (-n))) rest := by
  obtain ⟨d, ds, hd⟩ := List.exists_cons_of_ne_nil (@Nat.toDigits_ne_nil n 10)
  have hdigit : isDigit d = true := isDigit_of_mem (n := n) (by simp [hd])
  have hword := readWord?_digit hdigit (ds ++ rest)
  have hsign : d ≠ '-' := by
    rintro rfl
    cases hdigit
  have hplain := readNumber?_toDigits (n := n) false h
  have hnegative := readNumber?_toDigits (n := n) true h
  rw [integer_toDigits _ hn] at hplain hnegative
  rw [hd, List.cons_append] at hplain hnegative ⊢
  constructor
  · rw [readScalar, hword.1]
    dsimp only
    · rw [hplain]
      rfl
    · exact fun _ heq => hsign (List.cons.inj heq).1
  · rw [List.cons_append, List.cons_append, readScalar, hword.2]
    dsimp only
    rw [hnegative]
    rfl

theorem toList_nat (n : Nat) : (toString n).toList = Nat.toDigits 10 n := by
  rw [Nat.toString_eq_ofList_toDigits, String.toList_ofList]

theorem toList_negSucc (n : Nat) :
    (toString (Int.negSucc n)).toList = '-' :: Nat.toDigits 10 (n + 1) := by
  have htext : toString (Int.negSucc n) = "-" ++ toString (n + 1) := rfl
  rw [htext, String.toList_append, toList_nat]
  rfl

/-- **What is written for an integer** is read as that integer. -/
theorem readScalar_int {n : Int} (hn : (Nat.toDigits 10 n.natAbs).length ≤ digitLimit)
    (h : Separated rest) :
    readScalar ((toString n).toList ++ rest) = .token (.scalar (.int n)) rest := by
  cases n with
  | ofNat n =>
    have htext : (toString (Int.ofNat n)).toList = Nat.toDigits 10 n := toList_nat n
    rw [htext]
    exact (readScalar_toDigits hn h).1
  | negSucc n =>
    rw [toList_negSucc]
    exact (readScalar_toDigits hn h).2

end LoweringIR.Json
