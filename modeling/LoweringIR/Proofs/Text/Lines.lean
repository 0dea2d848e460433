import LoweringIR.Form

/-!
# Lines

A line break ends a line. So the lines of a text are what stands before each of its breaks, and what
comes after the last break is not a line yet. A text in which nothing comes after it is *terminated*:
it is made of its lines, and what is written after it begins a line of its own. That is why the lines
of several terminated texts, one after the other, are the lines of each in turn
(`Terminated.lines_append`).

## Main definitions

* `Text.Unbroken` — texts without line breaks
* `Text.lines`, `Text.Terminated` — the lines of a text, and texts that are made of lines

## Main results

* `Text.count_break` — a break for every line
* `Text.terminated_join`, `Text.lines_join` — terminated texts one after the other
-/

namespace LoweringIR.Text

variable {r s t : String} {items : List String}

/-! ### Texts without breaks -/

/-- The text has no line break. -/
def Unbroken (s : String) : Prop := '\n' ∉ s.toList

instance (s : String) : Decidable (Unbroken s) := inferInstanceAs (Decidable ('\n' ∉ s.toList))

@[simp] theorem unbroken_append : Unbroken (s ++ t) ↔ Unbroken s ∧ Unbroken t := by
  simp [Unbroken]

/-! ### Lines -/

/-- The lines of a text, each without the break that ends it. -/
def lines (s : String) : List String := (s.toList.splitOn '\n').dropLast.map String.ofList

/-- Nothing comes after the last break. -/
def Terminated (s : String) : Prop := s = "" ∨ ∃ r, s = r ++ "\n"

@[simp] theorem terminated_empty : Terminated "" := .inl rfl

theorem terminated_break (s : String) : Terminated (s ++ "\n") := .inr ⟨s, rfl⟩

theorem Terminated.append (hs : Terminated s) (ht : Terminated t) : Terminated (s ++ t) := by
  obtain rfl | ⟨r, rfl⟩ := ht
  · rwa [String.append_empty]
  · exact .inr ⟨s ++ r, String.append_assoc.symm⟩

@[simp] theorem lines_empty : lines "" = [] := rfl

/-- A break ends what stands before it, and lines begin anew. -/
theorem lines_break_append (r t : String) :
    lines (r ++ "\n" ++ t) = (r.toList.splitOn '\n').map String.ofList ++ lines t := by
  have hsplit : (r ++ "\n" ++ t).toList.splitOn '\n' =
      r.toList.splitOn '\n' ++ t.toList.splitOn '\n' := by
    rw [← List.splitOn_append_cons_self]
    simp
  rw [lines, hsplit, List.dropLast_append_of_ne_nil (List.splitOn_ne_nil _ _), List.map_append]
  rfl

/-- A text without breaks is the first line of what follows it after a break. -/
theorem lines_unbroken_append (h : Unbroken r) (t : String) :
    lines (r ++ "\n" ++ t) = r :: lines t := by
  rw [lines_break_append, List.splitOn_eq_singleton h]
  simp

theorem lines_unbroken (h : Unbroken r) : lines (r ++ "\n") = [r] := by
  simpa using lines_unbroken_append h ""

/-- **The lines of a terminated text** come before the lines of what follows it. -/
theorem Terminated.lines_append (h : Terminated s) (t : String) :
    lines (s ++ t) = lines s ++ lines t := by
  obtain rfl | ⟨r, rfl⟩ := h
  · simp
  · have hr := lines_break_append r ""
    rw [String.append_empty, lines_empty, List.append_nil] at hr
    rw [lines_break_append, hr]

/-- A text has a break for every line. -/
theorem count_break (s : String) : s.toList.count '\n' = (lines s).length := by
  have hlength : ∀ cs : List Char, (cs.splitOn '\n').length = cs.count '\n' + 1 := by
    intro cs
    induction cs with
    | nil => rfl
    | cons c cs ih =>
      by_cases hc : c = '\n'
      · subst hc
        rw [← List.nil_append ('\n' :: cs), List.splitOn_append_cons_self, List.length_append, ih]
        simp [Nat.add_comm]
      · rw [List.splitOn_eq_splitOnP, List.splitOnP_cons_eq_if_modifyHead] at *
        simp [hc, ih]
  rw [lines, List.length_map, List.length_dropLast, hlength, Nat.add_sub_cancel]

/-! ### Texts one after the other -/

theorem join_cons (item : String) (items : List String) :
    Form.join (item :: items) "" = item ++ Form.join items "" := by
  cases items <;> simp [Form.join]

theorem terminated_join (h : ∀ item ∈ items, Terminated item) :
    Terminated (Form.join items "") := by
  induction items with
  | nil => simp
  | cons item items ih =>
    rw [List.forall_mem_cons] at h
    rw [join_cons]
    exact h.1.append (ih h.2)

/-- **Terminated texts have their own lines**, one text after the other. -/
theorem lines_join (h : ∀ item ∈ items, Terminated item) :
    lines (Form.join items "") = items.flatMap lines := by
  induction items with
  | nil => simp
  | cons item items ih =>
    rw [List.forall_mem_cons] at h
    rw [join_cons, h.1.lines_append, ih h.2, List.flatMap_cons]

end LoweringIR.Text
