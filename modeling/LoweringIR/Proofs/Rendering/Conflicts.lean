import LoweringIR.Proofs.Rendering.Sorting
import Mathlib.Data.List.Forall2

/-!
# Reading a conflict graph back

A conflict graph is written as one list inside another, with the same blank between the members of
both, and behind it comes the text of a tail, which may be anything, even what looks like more
entries. The text is unambiguous all the same, because every part of it ends at a mark that the part
cannot hold: a variable at a blank, a set of conflicts at a brace, and the graph at the one bracket
that stands where an entry would begin with another. So an entry is known together with the place
where it ends, whatever comes after it (`Form.entryText_append_inj`), and the graph is known
entry by entry.

A set with nothing in it and a set of one empty name would be written alike, so names have to be
words. Nothing is asked of the tail, and of the name of the form only that it is the same.

Sorting is done before writing. So what the sorted text tells is the graph after sorting, and no
more.

## Main definitions

* `Text.IsWord` — names that can be told from what is written around them
* `Arrangement.SortsGraph` — a conflict graph and the sorted one, with no algorithm in between

## Main results

* `Form.join_words_inj` — words with blanks between them
* `Form.join_entries_append_inj` — entries with blanks between them, and whatever follows
* `Form.conflictGraph_eq_iff` — a conflict graph and its tail are known from the text
-/

namespace LoweringIR

/-! ### Words -/

namespace Text

/-- The blanks and brackets that conflict graphs are written with. -/
def graphMarks : List Char := [' ', '\n', '(', ')', '\x7b', '\x7d']

/-- The text is not empty, and holds neither blanks nor the brackets of conflict graphs. -/
def IsWord (s : String) : Prop := s ≠ "" ∧ ∀ c ∈ graphMarks, c ∉ s.toList

-- The marks are tried one by one, and not all characters.
instance (s : String) : Decidable (IsWord s) :=
  have : Decidable (∀ c ∈ graphMarks, c ∉ s.toList) := List.decidableBAll _ _
  inferInstanceAs (Decidable (s ≠ "" ∧ ∀ c ∈ graphMarks, c ∉ s.toList))

variable {c : Char} {s t m m' : String}

theorem IsWord.blank_notMem (h : IsWord s) : ' ' ∉ s.toList := h.2 ' ' (by simp [graphMarks])

theorem IsWord.brace_notMem (h : IsWord s) : '\x7d' ∉ s.toList := h.2 '\x7d' (by simp [graphMarks])

/-- A text that is followed by a mark ends where the mark stands for the first time. -/
theorem append_mark_inj (hs : c ∉ s.toList) (ht : c ∉ t.toList) (hm : m.toList.head? = some c)
    (hm' : m'.toList.head? = some c) (h : s ++ m = t ++ m') : s = t ∧ m = m' := by
  have hupTo : ∀ {r n : String}, c ∉ r.toList → n.toList.head? = some c →
      (r ++ n).toList.takeWhile (fun d => d ≠ c) = r.toList := by
    intro r n hr hn
    obtain ⟨ds, hds⟩ := List.head?_eq_some_iff.mp hn
    have hpass : ∀ d ∈ r.toList, (decide (d ≠ c)) = true := by
      intro d hd
      exact decide_eq_true fun hdc => hr (hdc ▸ hd)
    rw [String.toList_append, List.takeWhile_append_of_pos hpass, hds]
    simp
  have hst : s = t := by
    rw [← String.toList_inj, ← hupTo hs hm, h, hupTo ht hm']
  subst hst
  exact ⟨rfl, (String.append_right_inj s).mp h⟩

end Text

open Text (IsWord)

namespace Form

/-! ### Entries -/

/-- **Words with blanks between them** are known from the text. -/
theorem join_words_inj {ns ms : List String} (hns : ∀ n ∈ ns, IsWord n) (hms : ∀ m ∈ ms, IsWord m)
    (h : join ns " " = join ms " ") : ns = ms := by
  have hsplit : ∀ {ls : List String}, (∀ l ∈ ls, IsWord l) → ls ≠ [] →
      ((join ls " ").toList.splitOn ' ').map String.ofList = ls := by
    intro ls hls hne
    have hfree : ∀ cs ∈ ls.map String.toList, ' ' ∉ cs :=
      List.forall_mem_map.mpr fun l hl => (hls l hl).blank_notMem
    have hne : ls.map String.toList ≠ [] := by simpa using hne
    rw [join, String.toList_intercalate, show " ".toList = [' '] from rfl,
      List.splitOn_intercalate ' ' hfree hne, List.map_map]
    simp
  -- No word is empty, so only the empty list is written as nothing.
  have hnil : ∀ {ls : List String}, (∀ l ∈ ls, IsWord l) → join ls " " = "" → ls = [] := by
    intro ls hls hempty
    by_contra hne
    have hls' := hsplit hls hne
    rw [hempty] at hls'
    have hmem : "" ∈ ls := hls' ▸ List.mem_singleton.mpr rfl
    exact (hls "" hmem).1 rfl
  by_cases hn : ns = []
  · subst hn
    exact (hnil hms (h ▸ join_nil " ")).symm
  · have hm : ms ≠ [] := by
      rintro rfl
      exact hn (hnil hns (h.trans (join_nil " ")))
    rw [← hsplit hns hn, h, hsplit hms hm]

theorem brace_notMem_join {ns : List String} (hns : ∀ n ∈ ns, IsWord n) :
    '\x7d' ∉ (join ns " ").toList := by
  rw [join]
  induction ns with
  | nil => simp
  | cons n ns ih =>
    obtain ⟨hn, hns⟩ := List.forall_mem_cons.mp hns
    cases ns with
    | nil => simpa using hn.brace_notMem
    | cons m ns =>
      have hrest := ih hns
      rw [String.intercalate_cons_cons, String.toList_append, String.toList_append, List.mem_append,
        List.mem_append]
      rintro ((h | h) | h)
      · exact hn.brace_notMem h
      · simp at h
      · exact hrest h

variable {e d : String × List String} {g g₁ g₂ : List (String × List String)}
  {r r₁ r₂ s s₁ s₂ : String}

/-- The variable of an entry and the names it conflicts with are words. -/
def OfWords (e : String × List String) : Prop := IsWord e.1 ∧ ∀ n ∈ e.2, IsWord n

instance (e : String × List String) : Decidable (OfWords e) :=
  inferInstanceAs (Decidable (IsWord e.1 ∧ ∀ n ∈ e.2, IsWord n))

/-- An entry as it is written. -/
def entryText (e : String × List String) : String := conflictEntry e.1 e.2

theorem entryText_append (e : String × List String) (r : String) :
    entryText e ++ r = "(" ++ (e.1 ++ (" \x7b" ++ (join e.2 " " ++ ("\x7d)" ++ r)))) := by
  simp only [entryText, conflictEntry, String.append_assoc]

/-- **An entry is known together with what follows it.** -/
theorem entryText_append_inj (he : OfWords e) (hd : OfWords d)
    (h : entryText e ++ r = entryText d ++ s) : e = d ∧ r = s := by
  rw [entryText_append, entryText_append, String.append_right_inj] at h
  obtain ⟨hvariable, h⟩ :=
    Text.append_mark_inj he.1.blank_notMem hd.1.blank_notMem (by simp) (by simp) h
  rw [String.append_right_inj] at h
  obtain ⟨hnames, h⟩ :=
    Text.append_mark_inj (brace_notMem_join he.2) (brace_notMem_join hd.2) (by simp) (by simp) h
  exact ⟨Prod.ext hvariable (join_words_inj he.2 hd.2 hnames), (String.append_right_inj _).mp h⟩

/-- No entry begins as the end of a graph does. -/
theorem entryText_append_ne (e : String × List String) (r s : String) :
    entryText e ++ r ≠ ")" ++ s := by
  rw [entryText_append]
  intro h
  simpa using congrArg (fun t => t.toList.head?) h

/-! ### Graphs -/

/-- The text of a graph whose first entry is `e`: what follows that entry is the end, or a blank and
the text of the others. -/
theorem join_entries_cons_append (e : String × List String) (g : List (String × List String))
    (r : String) :
    join ((e :: g).map entryText) " " ++ (")" ++ r) =
      entryText e ++
        if g = [] then ")" ++ r else " " ++ (join (g.map entryText) " " ++ (")" ++ r)) := by
  cases g with
  | nil => simp [join]
  | cons d g =>
    simp only [join, List.map_cons, String.intercalate_cons_cons, String.append_assoc,
      reduceCtorEq, if_false]

/-- **Entries with blanks between them** are known from the text, and so is what follows the bracket
behind them. -/
theorem join_entries_append_inj (h₁ : ∀ e ∈ g₁, OfWords e) (h₂ : ∀ e ∈ g₂, OfWords e)
    (h : join (g₁.map entryText) " " ++ (")" ++ r₁) = join (g₂.map entryText) " " ++ (")" ++ r₂)) :
    g₁ = g₂ ∧ r₁ = r₂ := by
  induction g₁ generalizing g₂ with
  | nil =>
    cases g₂ with
    | nil =>
      rw [String.append_right_inj, String.append_right_inj] at h
      exact ⟨rfl, h⟩
    | cons d g₂ =>
      rw [join_entries_cons_append, List.map_nil, join_nil, String.empty_append] at h
      exact absurd h.symm (entryText_append_ne d _ r₁)
  | cons e g₁ ih =>
    cases g₂ with
    | nil =>
      rw [join_entries_cons_append, List.map_nil, join_nil, String.empty_append] at h
      exact absurd h (entryText_append_ne e _ r₂)
    | cons d g₂ =>
      obtain ⟨he, hg₁⟩ := List.forall_mem_cons.mp h₁
      obtain ⟨hd, hg₂⟩ := List.forall_mem_cons.mp h₂
      rw [join_entries_cons_append, join_entries_cons_append] at h
      obtain ⟨rfl, hrest⟩ := entryText_append_inj he hd h
      -- Behind an entry the end of the graph is told from a blank.
      have hend : ∀ t u : String, ")" ++ t ≠ " " ++ u := by
        intro t u heq
        simpa using congrArg (fun w => w.toList.head?) heq
      by_cases hlast₁ : g₁ = [] <;> by_cases hlast₂ : g₂ = [] <;>
        simp only [hlast₁, hlast₂, if_true, if_false] at hrest
      · exact ⟨by rw [hlast₁, hlast₂], (String.append_right_inj _).mp hrest⟩
      · exact absurd hrest (hend _ _)
      · exact absurd hrest.symm (hend _ _)
      · obtain ⟨rfl, hr⟩ := ih hg₁ hg₂ ((String.append_right_inj _).mp hrest)
        exact ⟨rfl, hr⟩

/-- A graph is arranged and then written as it stands. -/
theorem conflictGraph_eq (name : String) (g : List (String × List String)) (tail : String)
    (a : Arrangement) :
    conflictGraph name g tail a =
      "(" ++ (name ++ (" (" ++ (join ((a.graph g).map entryText) " " ++
        (")" ++ ("\n  " ++ (tail ++ ")"))))))  := by
  have hend : ")\n  " = ")" ++ "\n  " := rfl
  simp only [conflictGraph, wrap, hend, String.append_assoc]
  rfl

/-- **A conflict graph and its tail are known from the text**, once the graph is arranged. -/
theorem conflictGraph_inj {a : Arrangement} (h₁ : ∀ e ∈ a.graph g₁, OfWords e)
    (h₂ : ∀ e ∈ a.graph g₂, OfWords e) (name tail₁ tail₂ : String) :
    conflictGraph name g₁ tail₁ a = conflictGraph name g₂ tail₂ a ↔
      a.graph g₁ = a.graph g₂ ∧ tail₁ = tail₂ := by
  constructor
  · intro h
    simp only [conflictGraph_eq, String.append_right_inj] at h
    obtain ⟨hg, htail⟩ := join_entries_append_inj h₁ h₂ h
    exact ⟨hg, by simpa [String.append_right_inj, String.append_left_inj] using htail⟩
  · rintro ⟨hg, rfl⟩
    rw [conflictGraph_eq, conflictGraph_eq, hg]

end Form

/-! ### Sorted graphs -/

namespace Arrangement

variable {g s : List (String × List String)}

/-- The second graph is the first one sorted: the conflicts of every entry are in ascending order,
and then the entries are stably sorted by variable. -/
def SortsGraph (g s : List (String × List String)) : Prop :=
  ∃ d, List.Forall₂ (fun e d => e.1 = d.1 ∧ StablySorted nameLE id e.2 d.2) g d ∧
    StablySorted nameLE Prod.fst d s

theorem sortsGraph_iff : SortsGraph g s ↔ s = sorted.graph g := by
  rw [graph_eq]
  constructor
  · rintro ⟨d, hinner, houter⟩
    rw [Kind.forall₂_stablySorted_iff.mp hinner] at houter
    exact (stablySorted_iff nameLE_isOrder).mp houter
  · rintro rfl
    exact ⟨_, Kind.forall₂_stablySorted_iff.mpr rfl, (stablySorted_iff nameLE_isOrder).mpr rfl⟩

/-- As given, a graph stays as it is. -/
theorem graph_insertion (g : List (String × List String)) : insertion.graph g = g := g.map_id

/-- Arranging a graph makes no names. -/
theorem ofWords_graph (a : Arrangement) (h : ∀ e ∈ g, Form.OfWords e) :
    ∀ e ∈ a.graph g, Form.OfWords e := by
  refine List.forall_mem_map.mpr fun e he => ?_
  obtain ⟨hvariable, hnames⟩ := h e ((arrangeOn_perm ..).mem_iff.mp he)
  exact ⟨hvariable, fun n hn => hnames n ((arrangeOn_perm ..).mem_iff.mp hn)⟩

end Arrangement

namespace Form

open Arrangement (SortsGraph)

variable {g₁ g₂ : List (String × List String)}

/-- **Conflict graphs are written unambiguously.** As given, the graph and the tail are known from
the text; sorted, the tail is known and the graph up to sorting. -/
theorem conflictGraph_eq_iff (h₁ : ∀ e ∈ g₁, OfWords e) (h₂ : ∀ e ∈ g₂, OfWords e)
    (name tail₁ tail₂ : String) :
    (conflictGraph name g₁ tail₁ .insertion = conflictGraph name g₂ tail₂ .insertion ↔
      g₁ = g₂ ∧ tail₁ = tail₂) ∧
    (conflictGraph name g₁ tail₁ .sorted = conflictGraph name g₂ tail₂ .sorted ↔
      (∃ g, SortsGraph g₁ g ∧ SortsGraph g₂ g) ∧ tail₁ = tail₂) := by
  constructor
  · have h := conflictGraph_inj (Arrangement.ofWords_graph .insertion h₁)
      (Arrangement.ofWords_graph .insertion h₂) name tail₁ tail₂
    rwa [Arrangement.graph_insertion, Arrangement.graph_insertion] at h
  · rw [conflictGraph_inj (Arrangement.ofWords_graph .sorted h₁)
      (Arrangement.ofWords_graph .sorted h₂)]
    simp only [Arrangement.sortsGraph_iff, exists_eq_left]

/-- An entry without conflicts, a repeated variable, and a tail that looks like another entry. The
order of the conflicts is known from the text as given, and forgotten by the sorted text. -/
theorem conflictGraph_eq_iff_repeated :
    conflictGraph "register-conflict" [("x.1", []), ("x.1", ["r8", "fv0"])] "t) (y \x7b\x7d"
        .insertion ≠
      conflictGraph "register-conflict" [("x.1", []), ("x.1", ["fv0", "r8"])] "t) (y \x7b\x7d"
        .insertion ∧
    conflictGraph "register-conflict" [("x.1", []), ("x.1", ["r8", "fv0"])] "t) (y \x7b\x7d"
        .sorted =
      conflictGraph "register-conflict" [("x.1", []), ("x.1", ["fv0", "r8"])] "t) (y \x7b\x7d"
        .sorted := by
  have h₁ : ∀ e ∈ [("x.1", []), ("x.1", ["r8", "fv0"])], OfWords e := by decide
  have h₂ : ∀ e ∈ [("x.1", []), ("x.1", ["fv0", "r8"])], OfWords e := by decide
  have h := conflictGraph_eq_iff h₁ h₂ "register-conflict" "t) (y \x7b\x7d" "t) (y \x7b\x7d"
  constructor
  · intro heq
    exact absurd (h.1.mp heq).1 (by decide)
  · have hsorted : Arrangement.sorted.graph [("x.1", []), ("x.1", ["r8", "fv0"])] =
        Arrangement.sorted.graph [("x.1", []), ("x.1", ["fv0", "r8"])] := by
      have hnames := Arrangement.names_eq_of_perm (List.Perm.swap "fv0" "r8" [])
      simp only [Arrangement.graph_eq, List.map_cons, List.map_nil, hnames]
    exact h.2.mpr
      ⟨⟨_, Arrangement.sortsGraph_iff.mpr rfl, Arrangement.sortsGraph_iff.mpr hsorted⟩, rfl⟩

end Form

end LoweringIR
