import LoweringIR.Form

/-!
# Nested brackets

A text is read from the left, and what is kept of it is the pairs of brackets that are open, the
innermost first. A bracket that opens a pair adds it. A bracket that closes a pair has to close the
innermost one, or the text is not read any further. Other characters are passed over. A text is
*nested* if it is read to its end and nothing is open then.

A nested text does not touch what is open outside of it (`Nested.scan`), so it may stand anywhere in
another text. Whether that one is nested depends on what remains of it without its nested parts.
Where a text is put together from literals and given parts, what remains is the literals, and these
are read by evaluation.

## Main definitions

* `Text.scan` — the pairs that are open after a text
* `Text.Nested` — texts whose brackets are nested

## Main results

* `Text.Nested.scan` — a nested text leaves the open pairs as they are
* `Text.nested_of_plain`, `Text.nested_join` — texts without brackets, and texts of nested items
-/

namespace LoweringIR.Text

/-- The pairs of brackets. -/
inductive Bracket where
  | round
  | square
  | curly
deriving DecidableEq, Inhabited

/-- What a character does to pairs of brackets. -/
inductive Mark where
  | opens (pair : Bracket)
  | closes (pair : Bracket)
  | plain
deriving DecidableEq, Inhabited

/-- The mark that a character is. -/
def Mark.of : Char → Mark
  | '(' => opens .round
  | ')' => closes .round
  | '[' => opens .square
  | ']' => closes .square
  | '\x7b' => opens .curly
  | '\x7d' => closes .curly
  | _ => plain

/-- What a mark makes of the open pairs. Only the innermost one can be closed. -/
def Mark.apply : Mark → List Bracket → Option (List Bracket)
  | opens b, pairs => some (b :: pairs)
  | closes b, innermost :: others => if b = innermost then some others else none
  | closes _, [] => none
  | plain, pairs => some pairs

/-- The pairs that are open after a text if these are open before it. -/
def scan (pairs : List Bracket) (s : String) : Option (List Bracket) :=
  s.toList.foldlM (fun pairs c => (Mark.of c).apply pairs) pairs

/-- Brackets close what was opened last, and what is opened is closed. -/
def Nested (s : String) : Prop := scan [] s = some []

instance (s : String) : Decidable (Nested s) := inferInstanceAs (Decidable (scan [] s = some []))

variable {s t : String} {pairs pairs' : List Bracket}

/-! ### Reading -/

theorem scan_append (pairs : List Bracket) (s t : String) :
    scan pairs (s ++ t) = (scan pairs s).bind fun pairs => scan pairs t := by
  rw [scan, String.toList_append, List.foldlM_append]
  rfl

/-- A mark that can be read does not depend on pairs further outside. -/
theorem Mark.apply_append {m : Mark} (h : m.apply pairs = some pairs') (outside : List Bracket) :
    m.apply (pairs ++ outside) = some (pairs' ++ outside) := by
  cases m with
  | opens b | plain =>
    obtain rfl := Option.some.inj h
    rfl
  | closes b =>
    cases pairs with
    | nil => cases h
    | cons innermost others =>
      obtain ⟨rfl, hothers⟩ := Option.ite_none_right_eq_some.mp h
      obtain rfl := Option.some.inj hothers
      exact if_pos rfl

/-- A text that can be read does not depend on them either. -/
theorem scan_append_outside (h : scan pairs s = some pairs') (outside : List Bracket) :
    scan (pairs ++ outside) s = some (pairs' ++ outside) := by
  rw [scan] at h ⊢
  generalize s.toList = cs at h ⊢
  induction cs generalizing pairs with
  | nil =>
    obtain rfl := Option.some.inj h
    rfl
  | cons c cs ih =>
    rw [List.foldlM_cons] at h ⊢
    obtain ⟨next, hc, hcs⟩ := Option.bind_eq_some_iff.mp h
    rw [Mark.apply_append hc]
    exact ih hcs

/-! ### Nested texts -/

/-- **A nested text leaves the open pairs as they are.** -/
theorem Nested.scan (h : Nested s) (pairs : List Bracket) : scan pairs s = some pairs :=
  scan_append_outside h pairs

theorem nested_empty : Nested "" := rfl

theorem Nested.append (hs : Nested s) (ht : Nested t) : Nested (s ++ t) := by
  rw [Nested, scan_append, hs]
  exact ht

/-- A text without brackets is nested. -/
theorem nested_of_plain (h : ∀ c ∈ s.toList, Mark.of c = .plain) : Nested s := by
  rw [Nested, Text.scan]
  generalize s.toList = cs at h ⊢
  induction cs with
  | nil => rfl
  | cons c cs ih =>
    obtain ⟨hc, hcs⟩ := List.forall_mem_cons.mp h
    rw [List.foldlM_cons, hc]
    exact ih hcs

/-- Characters may be replaced as long as brackets are not. -/
theorem scan_map {f : Char → Char} (hf : ∀ c, Mark.of (f c) = Mark.of c)
    (h : t.toList = s.toList.map f) (pairs : List Bracket) : scan pairs t = scan pairs s := by
  rw [scan, h, List.foldlM_map]
  simp only [hf]
  rfl

/-- Nested items with a nested text between them. -/
theorem nested_join {items : List String} {separator : String} (hseparator : Nested separator)
    (h : ∀ item ∈ items, Nested item) : Nested (Form.join items separator) := by
  rw [Form.join]
  induction items with
  | nil => exact nested_empty
  | cons item items ih =>
    obtain ⟨hitem, hitems⟩ := List.forall_mem_cons.mp h
    cases items with
    | nil => simpa using hitem
    | cons next items =>
      rw [String.intercalate_cons_cons]
      exact (hitem.append hseparator).append (ih hitems)

/-! ### Literals around nested texts -/

section

variable {s₁ s₂ s₃ l₀ l₁ l₂ l₃ : String}

/-- A nested part can be taken out of a text. -/
theorem nested_within (h : Nested (l₀ ++ l₁)) (hs : Nested s) : Nested (l₀ ++ s ++ l₁) := by
  rw [Nested, scan_append] at h
  rw [Nested, scan_append, scan_append]
  simp only [hs.scan, Option.bind_fun_some]
  exact h

theorem nested_within_two (h : Nested (l₀ ++ l₁ ++ l₂)) (h₁ : Nested s₁) (h₂ : Nested s₂) :
    Nested (l₀ ++ s₁ ++ l₁ ++ s₂ ++ l₂) := by
  refine nested_within ?_ h₂
  rw [String.append_assoc] at h ⊢
  exact nested_within h h₁

theorem nested_within_three (h : Nested (l₀ ++ l₁ ++ l₂ ++ l₃)) (h₁ : Nested s₁) (h₂ : Nested s₂)
    (h₃ : Nested s₃) : Nested (l₀ ++ s₁ ++ l₁ ++ s₂ ++ l₂ ++ s₃ ++ l₃) := by
  refine nested_within ?_ h₃
  rw [String.append_assoc] at h ⊢
  exact nested_within_two h h₁ h₂

end

end LoweringIR.Text
