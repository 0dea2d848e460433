import LoweringIR.Proofs.Json.Number
import LoweringIR.Proofs.Rendering.Sorting
import LoweringIR.Proofs.Text.Brackets

/-!
# The brackets of a rendered text

Texts are written with three pairs of brackets. The two brackets of a pair often belong to different
literals, with names and the texts of children between them, and nothing but the way in which the
literals are put together makes sure that they meet again. Here it is shown that they always do: the
text of a tree is nested if its names are, and most names have no brackets at all.

A node writes literals, its own names, and the texts of its children. Each kind is looked at once,
with nested texts in the places of names and children (`Kind.nested_write`). It does not matter
whether there are as many as the schema says, since a node whose fields do not fit writes nothing.

## Main definitions

* `Tree.identifiers` — the names that a node writes
* `Field.Nested` — fields that bring nested texts into the text of their node

## Main results

* `Kind.nested_write` — a node with such fields writes a nested text
* `Tree.nested_render` — what is rendered is nested
-/

namespace LoweringIR

open Text (Mark Nested nested_empty nested_of_plain nested_join nested_within nested_within_two
  nested_within_three)

/-! ### Identifiers -/

/-- The names in a field, as often as they are written. -/
def Field.identifiers {α : Type} : Field α → List String
  | name s => [s]
  | flag _ | int64 _ | node _ | nodes _ => []
  | names ns | nameSet ns => ns
  | bindings es => es.map Prod.fst
  | locations es => es.flatMap fun e => [e.1, e.2]
  | graph es => es.flatMap fun e => e.1 :: e.2
  | frames fs => fs.flatten
  | records rs => rs.flatMap fun r => r.name :: r.label :: r.free

/-- The names in a node. -/
def Tree.identifiers : Tree → List String
  | blank _ _ => []
  | node _ fs => fs.flatMap Field.identifiers

/-- What a field brings into the text of its node is nested: its names and the texts in the places
of its children. -/
def Field.Nested : Field Part → Prop
  | name s => Text.Nested s
  | flag _ | int64 _ => True
  | node c => Text.Nested c.2
  | nodes cs => ∀ c ∈ cs, Text.Nested c.2
  | names ns | nameSet ns => ∀ n ∈ ns, Text.Nested n
  | bindings es => ∀ e ∈ es, Text.Nested e.1 ∧ Text.Nested e.2.2
  | locations es => ∀ e ∈ es, Text.Nested e.1 ∧ Text.Nested e.2
  | graph es => ∀ e ∈ es, Text.Nested e.1 ∧ ∀ n ∈ e.2, Text.Nested n
  | frames fs => ∀ ns ∈ fs, ∀ n ∈ ns, Text.Nested n
  | records rs => ∀ r ∈ rs, Text.Nested r.name ∧ Text.Nested r.label ∧ ∀ n ∈ r.free, Text.Nested n

theorem Field.nested_iff {x : Field Part} :
    x.Nested ↔ (∀ s ∈ x.identifiers, Text.Nested s) ∧ ∀ c ∈ x.children, Text.Nested c.2 := by
  cases x with
  | bindings es =>
    simp only [Field.Nested, identifiers, children, List.forall_mem_map]
    exact forall₂_and
  | frames fs =>
    have hframes : (∀ s ∈ fs.flatten, Text.Nested s) ↔ ∀ ns ∈ fs, ∀ n ∈ ns, Text.Nested n := by
      rw [List.flatten_eq_flatMap]
      exact List.forall_mem_flatMap
    simp [Field.Nested, identifiers, children, -List.mem_flatten, hframes]
  | _ =>
    simp [Field.Nested, identifiers, children, List.forall_mem_flatMap, List.forall_mem_cons,
      -List.mem_flatMap, -List.mem_cons]

/-! ### Forms -/

section

variable {name separator tail : String} {items : List String}

theorem nested_words (h : ∀ item ∈ items, Nested item) : Nested (Form.join items " ") :=
  nested_join rfl h

theorem nested_wrap (hname : Nested name) (hseparator : Nested separator)
    (hitems : ∀ item ∈ items, Nested item) (htail : Nested tail) :
    Nested (Form.wrap name items separator tail) :=
  nested_within_three rfl hname (nested_join hseparator hitems) htail

theorem nested_phrase (hname : Nested name) (h : ∀ item ∈ items, Nested item) :
    Nested (phrase name items) :=
  nested_within_two rfl hname (nested_words h)

theorem nested_conflictGraph {graph : List (String × List String)} (hname : Nested name)
    (hgraph : ∀ e ∈ graph, Nested e.1 ∧ ∀ n ∈ e.2, Nested n) (htail : Nested tail) :
    Nested (Form.conflictGraph name graph tail .insertion) := by
  have hentry : ∀ e ∈ graph, Nested (Form.conflictEntry e.1 e.2) := fun e he =>
    nested_within_two rfl (hgraph e he).1 (nested_words (hgraph e he).2)
  have hgiven : Arrangement.insertion.graph graph = graph :=
    Field.graph.inj (Field.arrange_insertion (α := Part) (.graph graph))
  rw [Form.conflictGraph, hgiven]
  exact nested_wrap hname rfl (List.forall_mem_map.mpr hentry) htail

theorem Closure.nested_text {c : Closure}
    (h : Nested c.name ∧ Nested c.label ∧ ∀ n ∈ c.free, Nested n) : Nested c.text :=
  nested_within_three rfl h.1 h.2.1 (nested_words h.2.2)

theorem nested_bindingTexts {es : List (String × Part)} (h : ∀ e ∈ es, Nested e.1 ∧ Nested e.2.2) :
    ∀ item ∈ bindingTexts es, Nested item :=
  List.forall_mem_map.mpr fun e he => nested_within_two rfl (h e he).1 (h e he).2

/-- A number is written with a sign and digits. -/
theorem nested_int (n : Int) : Nested (toString n) := by
  have hdigits : ∀ m, ∀ c ∈ Nat.toDigits 10 m, Mark.of c = .plain := by
    intro m c hc
    have hdigit := Json.isDigit_of_mem hc
    unfold Mark.of
    split
    all_goals first
      | rfl
      | exact absurd hdigit (by decide)
  refine nested_of_plain ?_
  cases n with
  | ofNat n =>
    rw [show (toString (Int.ofNat n)).toList = Nat.toDigits 10 n from Json.toList_nat n]
    exact hdigits n
  | negSucc n =>
    rw [Json.toList_negSucc]
    exact List.forall_mem_cons.mpr ⟨rfl, hdigits (n + 1)⟩

/-- Mangling replaces no brackets. -/
theorem nested_mangle (h : Nested name) : Nested (Label.mangle name) := by
  have hmark : ∀ c, Mark.of (Label.mangleChar c) = Mark.of c := by
    intro c
    unfold Label.mangleChar
    split_ifs with hdash hquestion hbang
    · rw [hdash]
      rfl
    · rw [hquestion]
      rfl
    · rw [hbang]
      rfl
    · rfl
  rw [Nested, Text.scan_map hmark (Label.toList_mangle name)]
  exact h

theorem nested_address {offset base : String} (hoffset : Nested offset) (hbase : Nested base) :
    Nested (offset ++ "(" ++ base ++ ")") := by
  refine nested_within ?_ hbase
  rw [String.append_assoc]
  exact hoffset.append rfl

theorem nested_jumpOperand {target : Part} (h : Nested target.2) : Nested (jumpOperand target) := by
  unfold jumpOperand
  split
  · exact h
  · exact .append rfl h

end

/-! ### Nodes -/

section

variable {fs : List (Field Part)} (h : ∀ x ∈ fs, x.Nested)
include h

theorem nested_childTexts : ∀ item ∈ childTexts fs, Nested item := by
  refine List.forall_mem_map.mpr fun c hc => ?_
  obtain ⟨x, hx, hcx⟩ := List.mem_flatMap.mp hc
  exact (Field.nested_iff.mp (h x hx)).2 c hcx

theorem nested_writeNames {word : String} (hword : Nested word) : Nested (writeNames word fs) := by
  unfold writeNames
  split
  · rw [List.forall_mem_cons, List.forall_mem_singleton] at h
    exact nested_wrap hword rfl h.1 h.2
  · rw [List.forall_mem_cons, List.forall_mem_singleton] at h
    exact nested_wrap hword rfl h.1 h.2
  · exact nested_empty

theorem nested_writeOperation : Nested (writeOperation fs) := by
  unfold writeOperation
  split
  · obtain ⟨hop, hoperands⟩ := List.forall_mem_cons.mp h
    exact nested_phrase hop (nested_childTexts hoperands)
  · exact nested_empty

theorem CommonKind.nested_write (k : CommonKind) : Nested (k.write fs) := by
  have hchildren := nested_childTexts h
  unfold write
  cases k with
  | locals => exact nested_writeNames h rfl
  | prim1 | prim2 => exact nested_writeOperation h
  | assign | ifElse | alloc | mref | mset => exact nested_phrase rfl hchildren
  | nop =>
    show Nested "(nop)"
    exact rfl
  | block =>
    have hlines : ∀ line ∈ (childTexts fs).map fun t => "  " ++ t, Nested line :=
      List.forall_mem_map.mpr fun t ht => .append rfl (hchildren t ht)
    exact nested_within rfl (nested_join rfl hlines)
  | funcall =>
    dsimp only
    split
    · next func args heq =>
      rw [heq, List.forall_mem_cons] at hchildren
      exact nested_phrase hchildren.1 hchildren.2
    · exact nested_empty
  | symbol =>
    dsimp only
    split
    · rw [List.forall_mem_singleton] at h
      exact h
    · exact nested_empty
  | int64 =>
    dsimp only
    split
    · exact nested_int _
    · exact nested_empty
  | bool =>
    dsimp only
    split
    · next b => cases b <;> exact rfl
    · exact nested_empty

theorem SchemeKind.nested_write (k : SchemeKind) : Nested (k.write fs) := by
  have hchildren := nested_childTexts h
  unfold write
  cases k with
  | assigned | free | bindFree => exact nested_writeNames h rfl
  | prim3 => exact nested_writeOperation h
  | literalList | literalVector => exact nested_within rfl (nested_words hchildren)
  | emptyList =>
    show Nested "()"
    exact rfl
  | void =>
    show Nested "(void)"
    exact rfl
  | letrec =>
    dsimp only
    split
    · rw [List.forall_mem_cons, List.forall_mem_singleton] at h
      exact nested_within_two rfl (nested_join rfl (nested_bindingTexts h.1)) h.2
    · exact nested_empty
  | lambda =>
    dsimp only
    split
    · rw [List.forall_mem_cons, List.forall_mem_singleton] at h
      exact nested_within_two rfl (nested_words h.1) h.2
    · exact nested_empty
  | closures =>
    dsimp only
    split
    · next rs tail =>
      rw [List.forall_mem_cons, List.forall_mem_singleton] at h
      have hrecords : ∀ c ∈ rs, Nested c.text := fun c hc => Closure.nested_text (h.1 c hc)
      exact nested_within_two rfl (nested_words (List.forall_mem_map.mpr hrecords)) h.2
    · exact nested_empty
  | letIn =>
    dsimp only
    split
    · rw [List.forall_mem_cons, List.forall_mem_singleton] at h
      exact nested_within_two rfl (nested_words (nested_bindingTexts h.1)) h.2
    · exact nested_empty
  | quote =>
    dsimp only
    split
    · next b r => cases b <;> exact rfl
    · rw [List.forall_mem_singleton] at h
      exact .append rfl h
    · exact nested_empty

theorem RegallocKind.nested_write (k : RegallocKind) : Nested (k.write fs) := by
  have hchildren := nested_childTexts h
  unfold write
  cases k with
  | ulocals | spills | callLive => exact nested_writeNames h rfl
  | ifThen => exact nested_phrase rfl hchildren
  | letrec =>
    dsimp only
    split
    · rw [List.forall_mem_cons, List.forall_mem_singleton] at h
      exact nested_wrap rfl rfl (List.forall_mem_map.mpr h.1) h.2
    · exact nested_empty
  | locate =>
    dsimp only
    split
    · next es tail =>
      rw [List.forall_mem_cons, List.forall_mem_singleton] at h
      have hentry : ∀ e ∈ es, Nested ("(" ++ e.1 ++ " " ++ e.2 ++ ")") := fun e he =>
        nested_within_two rfl (h.1 e he).1 (h.1 e he).2
      exact nested_within_two rfl (nested_words (List.forall_mem_map.mpr hentry)) h.2
    · exact nested_empty
  | lambda =>
    dsimp only
    split
    · rw [List.forall_mem_cons, List.forall_mem_cons, List.forall_mem_singleton] at h
      exact nested_within_three rfl h.1 (nested_words h.2.1) h.2.2
    · exact nested_empty
  | registerConflict | frameConflict =>
    dsimp only
    split
    · rw [List.forall_mem_cons, List.forall_mem_singleton] at h
      exact nested_conflictGraph rfl h.1 h.2
    · exact nested_empty
  | newFrames =>
    dsimp only
    split
    · next frames tail =>
      rw [List.forall_mem_cons, List.forall_mem_singleton] at h
      have hframe : ∀ ns ∈ frames, Nested ("(" ++ Form.join ns " " ++ ")") := fun ns hns =>
        nested_within rfl (nested_words (h.1 ns hns))
      exact nested_within_two rfl (nested_words (List.forall_mem_map.mpr hframe)) h.2
    · exact nested_empty
  | returnPoint =>
    dsimp only
    split
    · rw [List.forall_mem_cons, List.forall_mem_singleton] at h
      exact nested_phrase rfl (List.forall_mem_cons.mpr ⟨h.1, List.forall_mem_singleton.mpr h.2⟩)
    · exact nested_empty

theorem AsmKind.nested_write (k : AsmKind) : Nested (k.write fs) := by
  have hchildren := nested_childTexts h
  unfold write
  cases k with
  | retq =>
    show Nested "\tretq\n"
    exact rfl
  | prog =>
    have hlines : ∀ line ∈ (childTexts fs).map fun t => t ++ "\n", Nested line :=
      List.forall_mem_map.mpr fun t ht => (hchildren t ht).append rfl
    exact nested_join rfl hlines
  | code => exact nested_join rfl hchildren
  | reg =>
    dsimp only
    split
    · rw [List.forall_mem_singleton] at h
      exact .append rfl h
    · exact nested_empty
  | imm =>
    dsimp only
    split
    · exact .append rfl (nested_int _)
    · exact nested_empty
  | label =>
    dsimp only
    split
    · rw [List.forall_mem_singleton] at h
      exact nested_mangle h
    · exact nested_empty
  | deref =>
    dsimp only
    split
    · rw [List.forall_mem_cons, List.forall_mem_singleton] at h
      exact nested_address (nested_int _) h.1
    · exact nested_empty
  | derefLabel =>
    dsimp only
    split
    · rw [List.forall_mem_cons, List.forall_mem_singleton] at h
      exact nested_address h.2 h.1
    · exact nested_empty
  | derefRegister =>
    dsimp only
    split
    · rw [List.forall_mem_cons, List.forall_mem_singleton] at h
      exact nested_within_two rfl h.1 h.2
    · exact nested_empty
  | op2 =>
    dsimp only
    split
    · rw [List.forall_mem_cons, List.forall_mem_cons, List.forall_mem_singleton] at h
      exact nested_within_three rfl h.1 h.2.1 h.2.2
    · exact nested_empty
  | cfg =>
    dsimp only
    split
    · rw [List.forall_mem_cons, List.forall_mem_singleton] at h
      have hheading := (nested_mangle h.1).append (t := ":\n") rfl
      exact hheading.append (nested_join rfl (List.forall_mem_map.mpr h.2))
    · exact nested_empty
  | jmp =>
    dsimp only
    split
    · rw [List.forall_mem_singleton] at h
      exact nested_within rfl (nested_jumpOperand h)
    · exact nested_empty
  | jmpIf =>
    dsimp only
    split
    · rw [List.forall_mem_cons, List.forall_mem_singleton] at h
      exact nested_within_two rfl h.1 (nested_jumpOperand h.2)
    · exact nested_empty
  | push | pop =>
    dsimp only
    split
    · rw [List.forall_mem_singleton] at h
      exact nested_within rfl h
    · exact nested_empty

theorem Kind.nested_write (k : Kind) : Nested (k.write fs) := by
  cases k with
  | common d k => exact CommonKind.nested_write h k
  | scheme k => exact SchemeKind.nested_write h k
  | regalloc k => exact RegallocKind.nested_write h k
  | asm k => exact AsmKind.nested_write h k

end

/-! ### Trees -/

namespace Field

variable {α β : Type}

@[simp] theorem identifiers_map (f : α → β) (x : Field α) :
    (x.map f).identifiers = x.identifiers := by
  cases x with
  | bindings es => simp [map, identifiers]
  | _ => rfl

/-- Laying out a field neither adds nor loses a name. -/
theorem identifiers_arrange_perm (a : Arrangement) (x : Field α) :
    (x.arrange a).identifiers.Perm x.identifiers := by
  cases x with
  | nameSet ns => exact Arrangement.arrangeOn_perm ..
  | bindings es => exact (Arrangement.arrangeOn_perm ..).map _
  | locations es => exact (Arrangement.arrangeOn_perm ..).flatMap_right _
  | graph es =>
    rw [arrange, identifiers, Arrangement.graph, List.flatMap_map]
    refine (List.Perm.flatMap_left _ fun e _ => ?_).trans
      ((Arrangement.arrangeOn_perm ..).flatMap_right _)
    exact (Arrangement.arrangeOn_perm ..).cons _
  | frames fs => exact (Arrangement.arrangeOn_perm ..).flatten
  | _ => exact .refl _

end Field

namespace Tree

variable {t : Tree}

theorem nested_text (h : t.Everywhere fun u => ∀ s ∈ u.identifiers, Nested s) (a : Arrangement) :
    Nested (t.text a) := by
  -- An arrangement changes where names and children are written, but not which ones.
  induction h with
  | @intro t here below ih =>
    cases t with
    | blank f n =>
      rw [text_blank]
      exact nested_empty
    | node k fs =>
      rw [text_node, List.map_map]
      refine Kind.nested_write (List.forall_mem_map.mpr fun x hx => ?_) k
      refine Field.nested_iff.mpr ⟨fun s hs => ?_, fun c hc => ?_⟩
      · rw [Function.comp_apply, (Field.identifiers_arrange_perm ..).mem_iff,
          Field.identifiers_map] at hs
        exact here s (List.mem_flatMap.mpr ⟨x, hx, hs⟩)
      · rw [Function.comp_apply, (Field.children_arrange_perm ..).mem_iff,
          Field.children_map] at hc
        obtain ⟨u, hu, rfl⟩ := List.mem_map.mp hc
        exact ih u (List.mem_flatMap.mpr ⟨x, hx, hu⟩)

/-- **The brackets in a rendered text are nested**, in both arrangements, if they are in every name
that is written. -/
theorem nested_render (hw : t.WellFormed) (hc : t.Whole)
    (h : t.Everywhere fun u => ∀ s ∈ u.identifiers, Nested s) (a : Arrangement) :
    ∃ text, t.render a = .ok text ∧ Nested text :=
  ⟨t.text a, render_eq_text hw hc, nested_text h a⟩

/-- A vector of one number, bound to this name. -/
def letVector (name : String) : Tree :=
  .node (.scheme .letIn)
    [.bindings
      [(name,
        .node (.scheme .quote)
          [.node
            (.node (.scheme .literalVector)
              [.nodes [.node (.common .scheme .int64) [.int64 7]]])])],
      .node (.node (.common .scheme .symbol) [.name name])]

/-- A name may have brackets as long as they are nested. If they are not, the text may not be nested
either. -/
theorem render_letVector :
    (letVector "v[0]").render .sorted = .ok "(let ([v[0] '#(7)])\n v[0])" ∧
      Nested "(let ([v[0] '#(7)])\n v[0])" ∧
      ¬ Nested ((letVector "v]").text .sorted) := by
  have htext : (letVector "v[0]").text .sorted = "(let ([v[0] '#(7)])\n v[0])" := by
    decide +kernel
  obtain ⟨text, hrender, hnested⟩ := nested_render (t := letVector "v[0]") (by decide) (by decide)
    (by decide) .sorted
  have hgiven : (letVector "v[0]").render .sorted = .ok "(let ([v[0] '#(7)])\n v[0])" := by
    rw [render_eq_text (by decide) (by decide), htext]
  rw [hgiven] at hrender
  obtain rfl := Except.ok.inj hrender
  exact ⟨hgiven, hnested, by decide +kernel⟩

end Tree

end LoweringIR
