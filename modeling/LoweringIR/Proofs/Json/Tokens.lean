import LoweringIR.Json.Parser
import LoweringIR.Proofs.Json.Number
import LoweringIR.Proofs.Json.Text
import Mathlib.Data.List.Forall2

/-!
# The tokens of a written document

A value has a list of tokens, in which nothing is left of lines and blanks. The text that is written
for the value is taken apart into these tokens, whatever is behind it: a container and a string end
with a token of their own, and a number ends where a separator begins.

Numbers with a fraction or an exponent are left out here, and integers that are too long to be read.
No key may come twice in an object. That makes a value *readable*.

## Main definitions

* `Json.Readable` — the values that are read as they are written
* `Json.tokens` — the tokens of a value
* `Json.Lexes` — a text is taken apart into tokens and what is behind them

## Main results

* `Json.lexes_textAt` — the text of a value is taken apart into its tokens
* `Json.Lexes.run_eq` — the machine runs through tokens as it runs through the text
-/

namespace LoweringIR.Json

/-! ### Readable values -/

/-- The values that are read as they are written. -/
inductive Readable : Json → Prop
  | null : Readable null
  | bool (b : Bool) : Readable (bool b)
  | int {n : Int} (h : (Nat.toDigits 10 n.natAbs).length ≤ digitLimit) : Readable (int n)
  | str (s : String) : Readable (str s)
  | arr {items : List Json} (h : ∀ j ∈ items, Readable j) : Readable (arr items)
  | obj {members : List (String × Json)} (keys : (members.map Prod.fst).Nodup)
      (h : ∀ m ∈ members, Readable m.2) : Readable (obj members)

/-! ### Tokens -/

/-- Runs of tokens with commas between them. -/
def separate (runs : List (List Token)) : List Token := [Token.comma].intercalate runs

mutual

/-- The tokens of a value. -/
def tokens : Json → List Token
  | .str s => [.text s]
  | .arr items => .openArray :: separate (itemTokens items) ++ [.closeArray]
  | .obj members => .openObject :: separate (memberTokens members) ++ [.closeObject]
  | j => [.scalar j]

/-- The tokens of items, one run for each. -/
def itemTokens : List Json → List (List Token)
  | [] => []
  | j :: js => tokens j :: itemTokens js

/-- The tokens of members, one run for each. -/
def memberTokens : List (String × Json) → List (List Token)
  | [] => []
  | m :: ms => (.text m.1 :: .colon :: tokens m.2) :: memberTokens ms

end

theorem separate_cons_cons (ts us : List Token) (runs : List (List Token)) :
    separate (ts :: us :: runs) = ts ++ .comma :: separate (us :: runs) := by
  rw [separate, List.intercalate_cons_cons, List.append_assoc]
  rfl

@[simp] theorem separate_singleton (ts : List Token) : separate [ts] = ts :=
  List.intercalate_singleton

/-- The first run comes first. -/
theorem exists_separate_cons (ts : List Token) (runs : List (List Token)) :
    ∃ us, separate (ts :: runs) = ts ++ us := by
  cases runs with
  | nil => exact ⟨[], by simp⟩
  | cons us runs => exact ⟨_, separate_cons_cons ts us runs⟩

theorem separate_ne_nil {ts : List Token} (hts : ts ≠ []) (runs : List (List Token)) :
    separate (ts :: runs) ≠ [] := by
  obtain ⟨us, hus⟩ := exists_separate_cons ts runs
  simp [hus, hts]

/-! ### Taking a text apart -/

/-- A text is taken apart into tokens, and `rest` is behind them. -/
inductive Lexes : List Char → List Token → List Char → Prop
  | nil {cs : List Char} : Lexes cs [] cs
  | cons {cs mid rest : List Char} {t : Token} {ts : List Token}
      (first : Lexeme.next cs = .token t mid) (shorter : mid.length < cs.length)
      (others : Lexes mid ts rest) : Lexes cs (t :: ts) rest

variable {cs mid rest : List Char} {t : Token} {ts us : List Token} {limit fuel : Nat}

theorem Lexes.append (h : Lexes cs ts mid) (h' : Lexes mid us rest) : Lexes cs (ts ++ us) rest := by
  induction h with
  | nil => exact h'
  | cons first shorter _ ih => exact .cons first shorter (ih h')

/-- A text that starts with a token. -/
theorem Lexes.single (first : Lexeme.next cs = .token t rest)
    (shorter : rest.length < cs.length) : Lexes cs [t] rest :=
  .cons first shorter .nil

/-- A character that is a token by itself. -/
theorem lexes_mark {c : Char} (h : Lexeme.next (c :: rest) = .token t rest) :
    Lexes (c :: rest) [t] rest :=
  .single h (by simp)

/-- Every token takes a character at least. -/
theorem Lexes.length_le (h : Lexes cs ts rest) : ts.length + rest.length ≤ cs.length := by
  induction h with
  | nil => simp
  | cons _ shorter _ ih =>
    rw [List.length_cons]
    omega

/-- Blanks in front of tokens do not matter. -/
theorem Lexes.blank {blanks : List Char} (h : Lexes cs ts rest) (hts : ts ≠ [])
    (hblank : ∀ c ∈ blanks, isBlank c = true) : Lexes (blanks ++ cs) ts rest := by
  cases h with
  | nil => exact absurd rfl hts
  | cons first shorter others =>
    refine .cons ?_ ?_ others
    · rw [Lexeme.next, List.dropWhile_append_of_pos hblank]
      exact first
    · rw [List.length_append]
      omega

/-- **The machine runs through tokens** as it runs through the text that they are taken from. -/
theorem Lexes.run_eq (h : Lexes cs ts rest) (s : State) :
    s.run limit (ts.length + fuel) cs =
      ts.foldlM (State.step limit) s >>= fun s => s.run limit fuel rest := by
  induction h generalizing s with
  | nil => rw [List.length_nil, Nat.zero_add]; rfl
  | @cons cs mid rest t ts first _ _ ih =>
    have hfuel : (t :: ts).length + fuel = (ts.length + fuel) + 1 := by
      rw [List.length_cons]
      omega
    rw [hfuel, State.run, first, List.foldlM_cons]
    dsimp only
    cases s.step limit t with
    | error e => rfl
    | ok s => exact ih s

/-! ### The text of a value -/

theorem isBlank_lineStart (level : Nat) : ∀ c ∈ (lineStart level).toList, isBlank c = true := by
  intro c hc
  rw [lineStart, String.toList_ofList, List.mem_cons] at hc
  obtain rfl | hc := hc
  · rfl
  · rw [List.eq_of_mem_replicate hc]
    rfl

theorem separated_lineStart (level : Nat) (cs : List Char) :
    Separated ((lineStart level).toList ++ cs) := by
  rw [lineStart, String.toList_ofList]
  exact separated_line _

/-- A line is taken apart into a run of tokens, whatever separator is behind it. -/
def LexesTo (line : String) (ts : List Token) : Prop :=
  ts ≠ [] ∧ ∀ rest, Separated rest → Lexes (line.toList ++ rest) ts rest

/-- Lines with commas between them are taken apart line by line. -/
theorem lexes_lines {level : Nat} {line : String} {lines : List String} {ts : List Token}
    {runs : List (List Token)} (hline : LexesTo line ts) (hlines : List.Forall₂ LexesTo lines runs)
    (hrest : Separated rest) :
    Lexes ((("," ++ lineStart level).intercalate (line :: lines)).toList ++ rest)
      (separate (ts :: runs)) rest := by
  rw [String.toList_intercalate]
  induction hlines generalizing line ts with
  | nil =>
    rw [List.map_cons, List.map_nil, List.intercalate_singleton, separate_singleton]
    exact hline.2 rest hrest
  | @cons next us lines runs hnext _ ih =>
    have hfollowing := ih hnext
    -- The comma is the separator behind the first line: without one, a number might go on.
    have hcomma : Lexes (',' :: ((lineStart level).toList ++
        (("," ++ lineStart level).toList.intercalate ((next :: lines).map String.toList) ++ rest)))
        (.comma :: separate (us :: runs)) rest := by
      refine (lexes_mark rfl).append ?_
      exact hfollowing.blank (separate_ne_nil hnext.1 runs) (isBlank_lineStart level)
    rw [List.map_cons, List.map_cons, List.intercalate_cons_cons, separate_cons_cons]
    have hall := (hline.2 _ (separated_comma _)).append hcomma
    simpa using hall

/-- A container is taken apart into its lines between its marks. -/
theorem lexes_enclose {opening closing : String} {first last : Token} {level : Nat}
    {lines : List String} {runs : List (List Token)}
    (hopening : ∀ cs, Lexes (opening.toList ++ cs) [first] cs)
    (hclosing : ∀ cs, Lexes (closing.toList ++ cs) [last] cs)
    (h : List.Forall₂ LexesTo lines runs) :
    Lexes ((enclose opening closing level lines).toList ++ rest)
      (first :: separate runs ++ [last]) rest := by
  cases h with
  | nil =>
    rw [enclose, String.toList_append, List.append_assoc]
    exact (hopening _).append (hclosing rest)
  | @cons line ts lines runs hline hlines =>
    have hend : Lexes ((lineStart level).toList ++ (closing.toList ++ rest)) [last] rest :=
      (hclosing rest).blank (by simp) (isBlank_lineStart level)
    have hlines := @lexes_lines _ (level + 1) line lines ts runs hline hlines
      (separated_lineStart level (closing.toList ++ rest))
    have hbody := hlines.blank (separate_ne_nil hline.1 runs) (isBlank_lineStart (level + 1))
    have hall := ((hopening _).append hbody).append hend
    simpa [enclose] using hall

theorem itemTexts_eq (level : Nat) (js : List Json) :
    itemTexts level js = js.map (textAt level) := by
  induction js with
  | nil => rfl
  | cons j js ih => rw [itemTexts, ih, List.map_cons]

theorem memberTexts_eq (level : Nat) (ms : List (String × Json)) :
    memberTexts level ms = ms.map fun m => stringText m.1 ++ ": " ++ textAt level m.2 := by
  induction ms with
  | nil => rfl
  | cons m ms ih => rw [memberTexts, ih, List.map_cons]

theorem itemTokens_eq (js : List Json) : itemTokens js = js.map tokens := by
  induction js with
  | nil => rfl
  | cons j js ih => rw [itemTokens, ih, List.map_cons]

theorem memberTokens_eq (ms : List (String × Json)) :
    memberTokens ms = ms.map fun m => .text m.1 :: .colon :: tokens m.2 := by
  induction ms with
  | nil => rfl
  | cons m ms ih => rw [memberTokens, ih, List.map_cons]

theorem tokens_ne_nil (j : Json) : tokens j ≠ [] := by
  cases j <;> simp [tokens]

/-- A string is one token. -/
theorem lexes_stringText (s : String) (rest : List Char) :
    Lexes ((stringText s).toList ++ rest) [.text s] rest := by
  have htext : (stringText s).toList ++ rest =
      '\x22' :: (s.toList.flatMap escapeChar ++ '\x22' :: rest) := by
    rw [stringText, String.toList_ofList]
    simp
  have hread : Lexeme.next ('\x22' :: (s.toList.flatMap escapeChar ++ '\x22' :: rest)) =
      .token (.text s) rest := by
    rw [Lexeme.next, List.dropWhile_cons_of_neg (by decide), Lexeme.read, readText_text]
  rw [htext]
  refine .single hread ?_
  simp
  omega

/-- A digit starts a scalar. -/
theorem next_digit {d : Char} (hd : isDigit d = true) (cs : List Char) :
    Lexeme.next (d :: cs) = readScalar (d :: cs) := by
  have hne : ∀ c, isDigit c = false → d ≠ c := by
    rintro c hc rfl
    rw [hd] at hc
    cases hc
  have hblank : isBlank d = false := by
    simp [isBlank, hne ' ' rfl, hne '\t' rfl, hne '\n' rfl, hne '\r' rfl]
  rw [Lexeme.next, List.dropWhile_cons_of_neg (by simp [hblank]), Lexeme.read]
  · exact fun h => List.cons_ne_nil _ _ h
  all_goals exact fun tail h => hne _ rfl (List.cons.inj h).1

/-- An integer is one token. -/
theorem lexes_int {n : Int} (hn : (Nat.toDigits 10 n.natAbs).length ≤ digitLimit)
    (hrest : Separated rest) : Lexes ((toString n).toList ++ rest) [.scalar (.int n)] rest := by
  have hscalar := readScalar_int hn hrest
  obtain ⟨d, ds, hd⟩ := List.exists_cons_of_ne_nil (@Nat.toDigits_ne_nil n.natAbs 10)
  have hdigit : isDigit d = true := isDigit_of_mem (n := n.natAbs) (by simp [hd])
  cases n with
  | ofNat n =>
    have htext : (toString (Int.ofNat n)).toList = d :: ds := (toList_nat n).trans hd
    rw [htext] at hscalar ⊢
    refine .single ((next_digit hdigit _).trans hscalar) ?_
    rw [List.length_append, List.length_cons]
    omega
  | negSucc n =>
    rw [toList_negSucc] at hscalar ⊢
    refine .single hscalar ?_
    rw [List.length_append, List.length_cons]
    omega

/-- **The text of a value is taken apart into its tokens**, wherever it stands. -/
theorem lexes_textAt {j : Json} (hj : Readable j) (level : Nat) :
    LexesTo (textAt level j) (tokens j) := by
  refine ⟨tokens_ne_nil j, fun rest hrest => ?_⟩
  induction hj generalizing level rest with
  | null =>
    rw [textAt]
    exact .single rfl (by simp; omega)
  | bool b =>
    rw [textAt]
    cases b <;> exact .single rfl (by simp; omega)
  | int h =>
    rw [textAt]
    exact lexes_int h hrest
  | str s =>
    rw [textAt]
    exact lexes_stringText s rest
  | @arr items _ ih =>
    rw [textAt, tokens, itemTexts_eq, itemTokens_eq]
    refine lexes_enclose (fun cs => lexes_mark rfl) (fun cs => lexes_mark rfl) ?_
    rw [List.forall₂_map_left_iff, List.forall₂_map_right_iff, List.forall₂_same]
    exact fun j hj => ⟨tokens_ne_nil j, fun rest hrest => ih j hj (level + 1) rest hrest⟩
  | @obj members _ _ ih =>
    rw [textAt, tokens, memberTexts_eq, memberTokens_eq]
    refine lexes_enclose (fun cs => lexes_mark rfl) (fun cs => lexes_mark rfl) ?_
    rw [List.forall₂_map_left_iff, List.forall₂_map_right_iff, List.forall₂_same]
    refine fun m hm => ⟨by simp, fun rest hrest => ?_⟩
    have hblank : ∀ c ∈ [' '], isBlank c = true := by simp [isBlank]
    have hvalue := (ih m hm (level + 1) rest hrest).blank (tokens_ne_nil m.2) hblank
    have hmember := (lexes_stringText m.1 _).append ((lexes_mark (c := ':') rfl).append hvalue)
    simpa using hmember

end LoweringIR.Json
