import LoweringIR.Proofs.Json.Text
import LoweringIR.Text.Utf8
import Mathlib.Tactic.SplitIfs

/-!
# Reading the bytes of a text

A character has one byte to four, and reading them takes as many steps: the first byte says how many
are owed and holds the highest bits, and every further one adds six. The bits gathered at the end
are the number of the character, since the shortest form has been written for it. The narrower
ranges that the machine has for some second bytes exclude nothing here. They exclude longer forms,
surrogates and numbers beyond the last one, and a character is none of these.

## Main definitions

* `Text.Utf8.IsAscii` — the texts that need no character of several bytes

## Main results

* `Text.Utf8.decodeFrom_char` — the bytes of one character
* `Text.Utf8.decode_encoded` — reading undoes writing
-/

namespace LoweringIR.Text.Utf8

/-! ### The bytes of a text -/

private theorem toList_loop (bytes : ByteArray) (i : Nat) (read : List UInt8) :
    ByteArray.toList.loop bytes i read = read.reverse ++ bytes.data.toList.drop i := by
  fun_induction ByteArray.toList.loop bytes i read with
  | case1 i read hlt ih =>
    have hget : bytes.data.toList.drop i = bytes.get! i :: bytes.data.toList.drop (i + 1) := by
      rw [List.drop_eq_getElem_cons (by simpa using hlt), Array.getElem_toList, ByteArray.get!,
        getElem!_pos bytes.data i (by simpa using hlt)]
    rw [ih, hget, List.reverse_cons, List.append_assoc, List.singleton_append]
  | case2 i read hge =>
    rw [List.drop_eq_nil_of_le (by simpa using hge), List.append_nil]

/-- The bytes of a text are those of its characters. -/
theorem encode_eq (s : String) : encode s = s.toList.flatMap String.utf8EncodeChar := by
  rw [encode, ByteArray.toList, toList_loop, ← String.utf8Encode_toList, List.utf8Encode,
    List.toList_data_toByteArray]
  rfl

/-! ### Steps of the machine -/

variable {position n : Nat} {read : List Char} {b : UInt8} {bs : List UInt8}

theorem toNat_ofNat {m : Nat} (hm : m < 256) : (UInt8.ofNat m).toNat = m := by
  rw [UInt8.toNat_ofNat', Nat.mod_eq_of_lt hm]

/-- A byte that begins a character of several. -/
theorem decodeFrom_first {p : Pending} (hb : 0x80 ≤ b.toNat) (hp : Pending.ofFirst? b = some p) :
    decodeFrom position read none (b :: bs) = decodeFrom (position + 1) read (some p) bs := by
  have hlarge : ¬ b < 0x80 := by
    rw [UInt8.lt_iff_toNat_lt]
    exact Nat.not_lt.mpr hb
  rw [decodeFrom, if_neg hlarge, hp]

/-- A byte inside a character adds six bits. -/
theorem decodeFrom_more {first : UInt8} {taken owed low high bits : Nat} (k : Nat)
    (hlow : low ≤ k % 64 + 128) (hhigh : k % 64 + 128 ≤ high) :
    decodeFrom position read (some ⟨first, taken, owed + 2, low, high, bits⟩)
        (UInt8.ofNat (k % 64 + 128) :: bs) =
      decodeFrom (position + 1) read
        (some ⟨first, taken + 1, owed + 1, 0x80, 0xBF, bits * 64 + k % 64⟩) bs := by
  have hbyte : (UInt8.ofNat (k % 64 + 128)).toNat = k % 64 + 128 := toNat_ofNat (by omega)
  have howed : ¬ owed + 2 ≤ 1 := by omega
  rw [decodeFrom, hbyte, if_pos ⟨hlow, hhigh⟩, if_neg howed, Nat.add_sub_cancel]
  rfl

/-- The last byte of a character completes it. -/
theorem decodeFrom_last {first : UInt8} {taken low high bits : Nat} (k : Nat)
    (hlow : low ≤ k % 64 + 128) (hhigh : k % 64 + 128 ≤ high) :
    decodeFrom position read (some ⟨first, taken, 1, low, high, bits⟩)
        (UInt8.ofNat (k % 64 + 128) :: bs) =
      decodeFrom (position + 1) (Char.ofNat (bits * 64 + k % 64) :: read) none bs := by
  have hbyte : (UInt8.ofNat (k % 64 + 128)).toNat = k % 64 + 128 := toNat_ofNat (by omega)
  rw [decodeFrom, hbyte, if_pos ⟨hlow, hhigh⟩, if_pos (Nat.le_refl 1), Nat.add_sub_cancel]

/-! ### First bytes -/

theorem ofFirst?_two (hn : 0x80 ≤ n) (hn' : n < 0x800) (hb : b.toNat = n / 64 + 192) :
    Pending.ofFirst? b = some ⟨b, 1, 1, 0x80, 0xBF, n / 64⟩ := by
  rw [Pending.ofFirst?, if_neg (by omega), if_pos (by omega), hb]
  simp

/-- The second byte lies in the range that the first one of three asks for. -/
theorem ofFirst?_three (hn : 0x800 ≤ n) (hn' : n < 0xD800 ∨ 0xE000 ≤ n ∧ n < 0x10000)
    (hb : b.toNat = n / 4096 + 224) :
    ∃ low high, Pending.ofFirst? b = some ⟨b, 1, 2, low, high, n / 4096⟩ ∧
      low ≤ n / 64 % 64 + 128 ∧ n / 64 % 64 + 128 ≤ high := by
  have hbits : b.toNat - 0xE0 = n / 4096 := by omega
  rw [Pending.ofFirst?, if_neg (by omega), if_neg (by omega), hbits]
  split_ifs with hE0 hED hmore
  · have hzero : n / 4096 = 0 := by omega
    exact ⟨0xA0, 0xBF, by rw [hzero], by omega, by omega⟩
  · exact ⟨0x80, 0x9F, rfl, by omega, by omega⟩
  · exact ⟨0x80, 0xBF, rfl, by omega, by omega⟩
  all_goals omega

/-- The second byte lies in the range that the first one of four asks for. -/
theorem ofFirst?_four (hn : 0x10000 ≤ n) (hn' : n < 0x110000) (hb : b.toNat = n / 262144 + 240) :
    ∃ low high, Pending.ofFirst? b = some ⟨b, 1, 3, low, high, n / 262144⟩ ∧
      low ≤ n / 4096 % 64 + 128 ∧ n / 4096 % 64 + 128 ≤ high := by
  have hbits : b.toNat - 0xF0 = n / 262144 := by omega
  rw [Pending.ofFirst?, if_neg (by omega), if_neg (by omega), if_neg (by omega),
    if_neg (by omega), if_neg (by omega), hbits]
  split_ifs with hF0 hmore hF4
  · have hzero : n / 262144 = 0 := by omega
    exact ⟨0x90, 0xBF, by rw [hzero], by omega, by omega⟩
  · exact ⟨0x80, 0xBF, rfl, by omega, by omega⟩
  · exact ⟨0x80, 0x8F, rfl, by omega, by omega⟩
  · omega

/-! ### Characters and texts -/

/-- **The bytes of a character** are read as that character. -/
theorem decodeFrom_char (position : Nat) (c : Char) :
    ∃ position', decodeFrom position read none (String.utf8EncodeChar c ++ bs) =
      decodeFrom position' (c :: read) none bs := by
  have hvalid : c.val.toNat < 0xD800 ∨ 0xE000 ≤ c.val.toNat ∧ c.val.toNat < 0x110000 :=
    Json.toNat_lt c
  have hc : Char.ofNat c.val.toNat = c := Char.ofNat_toNat c
  unfold String.utf8EncodeChar
  generalize c.val.toNat = n at hvalid hc ⊢
  dsimp only
  -- One case for each number of bytes.
  split_ifs with hone htwo hthree
  · have hbyte : (UInt8.ofNat n).toNat = n := toNat_ofNat (by omega)
    have hlt : UInt8.ofNat n < 0x80 := by
      rw [UInt8.lt_iff_toNat_lt, hbyte]
      exact Nat.lt_succ_of_le hone
    refine ⟨position + 1, ?_⟩
    rw [List.singleton_append, decodeFrom, if_pos hlt, hbyte, hc]
  · have hfirst : (UInt8.ofNat (n / 64 % 32 + 192)).toNat = n / 64 + 192 := by
      rw [toNat_ofNat (by omega)]
      omega
    have hsum : n / 64 * 64 + n % 64 = n := by omega
    refine ⟨position + 1 + 1, ?_⟩
    rw [List.cons_append, decodeFrom_first (by omega) (ofFirst?_two (by omega) (by omega) hfirst),
      List.singleton_append, decodeFrom_last n (by omega) (by omega), hsum, hc]
  · have hfirst : (UInt8.ofNat (n / 4096 % 16 + 224)).toNat = n / 4096 + 224 := by
      rw [toNat_ofNat (by omega)]
      omega
    obtain ⟨low, high, hp, hlow, hhigh⟩ := ofFirst?_three (by omega) (by omega) hfirst
    have hsum : (n / 4096 * 64 + n / 64 % 64) * 64 + n % 64 = n := by omega
    refine ⟨position + 1 + 1 + 1, ?_⟩
    rw [List.cons_append, decodeFrom_first (by omega) hp, List.cons_append,
      decodeFrom_more (n / 64) hlow hhigh, List.singleton_append,
      decodeFrom_last n (by omega) (by omega), hsum, hc]
  · have hfirst : (UInt8.ofNat (n / 262144 % 8 + 240)).toNat = n / 262144 + 240 := by
      rw [toNat_ofNat (by omega)]
      omega
    obtain ⟨low, high, hp, hlow, hhigh⟩ := ofFirst?_four (by omega) (by omega) hfirst
    have hsum : ((n / 262144 * 64 + n / 4096 % 64) * 64 + n / 64 % 64) * 64 + n % 64 = n := by
      omega
    refine ⟨position + 1 + 1 + 1 + 1, ?_⟩
    rw [List.cons_append, decodeFrom_first (by omega) hp, List.cons_append,
      decodeFrom_more (n / 4096) hlow hhigh, List.cons_append,
      decodeFrom_more (n / 64) (by omega) (by omega), List.singleton_append,
      decodeFrom_last n (by omega) (by omega), hsum, hc]

/-- **Reading undoes writing.** -/
theorem decode_encoded (s : String) : decode (encode s) = .ok s.toList := by
  have hall : ∀ (cs : List Char) (position : Nat) (read : List Char),
      decodeFrom position read none (cs.flatMap String.utf8EncodeChar) =
        .ok (read.reverse ++ cs) := by
    intro cs
    induction cs with
    | nil =>
      intro position read
      rw [List.flatMap_nil, List.append_nil]
      rfl
    | cons c cs ih =>
      intro position read
      obtain ⟨position', hchar⟩ := decodeFrom_char position c
      rw [List.flatMap_cons, hchar, ih, List.reverse_cons, List.append_assoc,
        List.singleton_append]
  rw [decode, encode_eq, hall, List.reverse_nil, List.nil_append]

/-! ### ASCII -/

/-- Every character of a text is in ASCII. -/
def IsAscii (s : String) : Prop := ∀ c ∈ s.toList, c.toNat < 0x80

instance (s : String) : Decidable (IsAscii s) :=
  List.decidableBAll _ _

/-- Such a text has no other bytes than the characters themselves. -/
theorem lt_of_mem_encode {s : String} (hs : IsAscii s) (hb : b ∈ encode s) : b < 0x80 := by
  rw [encode_eq, List.mem_flatMap] at hb
  obtain ⟨c, hc, hb⟩ := hb
  have hlt : c.val.toNat < 0x80 := hs c hc
  have hbyte : (UInt8.ofNat c.val.toNat).toNat = c.val.toNat := toNat_ofNat (by omega)
  rw [String.utf8EncodeChar, if_pos (Nat.le_of_lt_succ hlt), List.mem_singleton] at hb
  rw [hb, UInt8.lt_iff_toNat_lt, hbyte]
  exact hlt

end LoweringIR.Text.Utf8
