import LoweringIR.Proofs.Label.Sequence

/-!
# The first fault

A program that is rejected may have many faults, and one of them is reported. Which one is settled
by the order of labels. The check goes through the names of blocks and stops at the first that it
has met before. Only if there is none does it go through all names, and stop at the first whose
mangled form it has met before. So a repeated block name comes before a shared form, wherever the
two stand.

Both passes look for the same thing, a first *clash*: the first place in a list with an item that
shares its image under some function with an earlier one. The function is the identity for block
names and mangling for all names.

## What a pass knows

Up to the first clash images are distinct. A pass that gets there has therefore gone on at every
item before, and what it has kept is these items with their images, all of them and nothing else
(`firstRepeat?_append`, `assign_append`). It follows that the earlier item of a clash is the only
one that could be named: a second one with the same image would have been a clash before.

## Main definitions

* `FirstClash` — the first place at which an image comes up again
* `Rejected` — what rejecting a program consists of

## Main results

* `exists_parts` — where images are not distinct there is a first clash
* `Parts.firstRepeat?_eq`, `Parts.assign_eq` — each pass stops there
* `check_firstFault` — a program is rejected for its first fault and for no other
-/

namespace LoweringIR.Label

/-! ### Clashes -/

/-- Place `j` is the first one with an item that shares its image under `f` with an item before it,
which is at place `i`. -/
structure FirstClash {α β : Type} (f : α → β) (as : List α) (i j : Nat) (a b : α) : Prop where
  before : i < j
  first : as[i]? = some a
  second : as[j]? = some b
  shared : f a = f b
  /-- No other item before place `j` has that image. -/
  unique : ∀ p < j, as[p]?.map f = some (f b) → p = i
  /-- At no place before `j` does an image come up again. -/
  least : ∀ q < j, ∀ p < q, as[p]?.map f ≠ as[q]?.map f

/-- The parts of a list around its first clash. -/
structure Parts {α β : Type} (f : α → β) (as before : List α) (a : α) (between : List α) (b : α)
    (after : List α) : Prop where
  eq_append : as = before ++ a :: between ++ b :: after
  nodup : ((before ++ a :: between).map f).Nodup
  shared : f a = f b

section

variable {α β : Type} {f : α → β} {as before between after : List α} {a b : α}

/-- **Where images are not distinct there is a first clash.** The induction takes the list from its
end, where the clash is the last item or lies before it. -/
theorem exists_parts (h : ¬ (as.map f).Nodup) :
    ∃ before a between b after, Parts f as before a between b after := by
  induction as using List.reverseRecOn with
  | nil => exact absurd List.nodup_nil h
  | append_singleton as b ih =>
    by_cases has : (as.map f).Nodup
    · have hb : f b ∈ as.map f := by
        by_contra hb
        refine h ?_
        rw [List.map_append, List.map_singleton, ← List.concat_eq_append]
        exact has.concat hb
      obtain ⟨a, ha, hab⟩ := List.mem_map.mp hb
      obtain ⟨before, between, rfl⟩ := List.append_of_mem ha
      exact ⟨before, a, between, b, [], rfl, has, hab⟩
    · obtain ⟨before, a, between, c, after, heq, hnodup, hac⟩ := ih has
      exact ⟨before, a, between, c, after ++ [b], by simp [heq], hnodup, hac⟩

theorem Parts.firstClash (h : Parts f as before a between b after) :
    FirstClash f as before.length (before ++ a :: between).length a b := by
  have hbefore : before.length < (before ++ a :: between).length := by simp
  have hlookup : ∀ p < (before ++ a :: between).length,
      as[p]? = (before ++ a :: between)[p]? := by
    intro p hp
    rw [h.eq_append, List.getElem?_append_left hp]
  have hinj : ∀ p < (before ++ a :: between).length, ∀ q < (before ++ a :: between).length,
      as[p]?.map f = as[q]?.map f → p = q := by
    intro p hp q hq hpq
    rw [hlookup p hp, hlookup q hq, ← List.getElem?_map, ← List.getElem?_map] at hpq
    exact (List.getElem?_inj (by rwa [List.length_map]) h.nodup).mp hpq
  have hfirst : as[before.length]? = some a := by
    rw [hlookup _ hbefore]
    simp
  have hsecond : as[(before ++ a :: between).length]? = some b := by
    rw [h.eq_append, List.getElem?_append_right (Nat.le_refl _)]
    simp
  refine ⟨hbefore, hfirst, hsecond, h.shared, fun p hp hpb => ?_, fun q hq p hp hpq => ?_⟩
  · refine hinj p hp _ hbefore ?_
    rw [hpb, hfirst, Option.map_some, h.shared]
  · exact Nat.ne_of_lt hp (hinj p (Nat.lt_trans hp hq) q hq hpq)

end

/-! ### The two passes -/

variable {names more seen before between after : List String} {owned : List (String × String)}
  {a b n : String}

/-- Names that are distinct and new are all kept. -/
theorem firstRepeat?_append (hnodup : names.Nodup) (hnew : ∀ n ∈ names, n ∉ seen) :
    firstRepeat? seen (names ++ more) = firstRepeat? (names.reverse ++ seen) more := by
  induction names generalizing seen with
  | nil => rfl
  | cons n names ih =>
    obtain ⟨hn, hnodup⟩ := List.nodup_cons.mp hnodup
    obtain ⟨hseen, hnew⟩ := List.forall_mem_cons.mp hnew
    have hstep : ∀ m ∈ names, m ∉ n :: seen := by
      intro m hm hmem
      rcases List.mem_cons.mp hmem with rfl | hmem
      · exact hn hm
      · exact hnew m hm hmem
    rw [List.cons_append, firstRepeat?, if_neg (by simpa using hseen), ih hnodup hstep,
      List.reverse_cons, List.append_assoc, List.singleton_append]

/-- The first pass stops at the first clash of names. -/
theorem Parts.firstRepeat?_eq (h : Parts id names before a between b after) :
    firstRepeat? [] names = some b := by
  obtain rfl : a = b := h.shared
  have hnodup := h.nodup
  rw [List.map_id] at hnodup
  rw [h.eq_append, firstRepeat?_append hnodup (by simp), firstRepeat?, if_pos (by simp)]

theorem find?_owned_eq_none (h : mangle n ∉ owned.map Prod.snd) :
    (owned.find? fun o => o.2 == mangle n) = none := by
  rw [List.find?_eq_none]
  intro o ho heq
  exact h (List.mem_map.mpr ⟨o, ho, by simpa using heq⟩)

/-- Names whose mangled forms are distinct and new are all kept, with these forms. -/
theorem assign_append (hnodup : (names.map mangle).Nodup)
    (hnew : ∀ n ∈ names, mangle n ∉ owned.map Prod.snd) :
    assign owned (names ++ more) =
      assign ((names.map fun n => (n, mangle n)).reverse ++ owned) more := by
  induction names generalizing owned with
  | nil => rfl
  | cons n names ih =>
    obtain ⟨hn, hnodup⟩ := List.nodup_cons.mp hnodup
    obtain ⟨howned, hnew⟩ := List.forall_mem_cons.mp hnew
    have hstep : ∀ m ∈ names, mangle m ∉ ((n, mangle n) :: owned).map Prod.snd := by
      intro m hm hmem
      rw [List.map_cons, List.mem_cons] at hmem
      rcases hmem with heq | hmem
      · exact hn (List.mem_map.mpr ⟨m, hm, heq⟩)
      · exact hnew m hm hmem
    rw [List.cons_append, assign, find?_owned_eq_none howned, List.map_cons, List.reverse_cons,
      List.append_assoc, List.singleton_append]
    exact ih hnodup hstep

/-- The second pass stops at the first clash of mangled forms. It has kept the names before in
reverse, so it comes upon the earlier one from behind, past names with other forms. -/
theorem Parts.assign_eq (h : Parts mangle names before a between b after) :
    assign [] names = .error (.collision a b (mangle b)) := by
  have hnodup := h.nodup
  have hbetween : ∀ n ∈ between, mangle n ≠ mangle b := by
    intro n hn heq
    rw [List.map_append, List.map_cons, List.nodup_append, List.nodup_cons, h.shared] at hnodup
    exact hnodup.2.1.1 (List.mem_map.mpr ⟨n, hn, heq⟩)
  have howner : ((((before ++ a :: between).map fun n => (n, mangle n)).reverse ++ []).find?
      fun o => o.2 == mangle b) = some (a, mangle a) := by
    refine List.find?_eq_some_iff_append.mpr ⟨by simp [h.shared],
      (between.map fun n => (n, mangle n)).reverse, (before.map fun n => (n, mangle n)).reverse,
      by simp, ?_⟩
    intro o ho
    obtain ⟨n, hn, rfl⟩ := List.mem_map.mp (List.mem_reverse.mp ho)
    simpa using hbetween n hn
  rw [h.eq_append, assign_append h.nodup (by simp), assign, howner]
  dsimp only
  rw [h.shared]

/-! ### Rejection -/

/-- A program is rejected for a fault: the check fails with this message, nothing is emitted, and
one warning is all that is logged. -/
structure Rejected (t : Tree) (fault : Fault) (message : String) : Prop where
  check : check t = ⟨[fault.record], .error fault⟩
  emit : emit true t = ⟨[fault.record], .error (.label fault)⟩
  message : fault.message = message
  warning : fault.record.level = .warning

variable {t : Tree}

theorem Rejected.of_mapping {fault : Fault} (h : mapping t = .error fault) :
    Rejected t fault fault.message where
  check := by rw [Label.check, h]
  emit := by rw [emit_checked, h]
  message := rfl
  warning := by cases fault <;> rfl

theorem mapping_of_repeat (h : Parts id t.blockNames before a between b after) :
    mapping t = .error (.duplicate b) := by
  rw [mapping, headings_eq, h.firstRepeat?_eq]

theorem mapping_of_shared (hnodup : t.blockNames.Nodup)
    (h : Parts mangle t.labelNames before a between b after) :
    mapping t = .error (.collision a b (mangle b)) := by
  have hrepeat : firstRepeat? [] t.blockNames = none :=
    firstRepeat?_eq_none_iff.mpr ⟨hnodup, by simp⟩
  rw [mapping, headings_eq, hrepeat, collect_eq]
  exact h.assign_eq

/-- **A program is rejected for its first fault.** If a name heads two blocks, it is the one at the
first place among the names of blocks that has occurred before, whatever is wrong besides. If none
does and mangling confuses two names, they are the one at the first place among all names whose
mangled form has occurred before, and the only one before it with this form. Otherwise the check
passes in silence, and emitting the program logs the number of its names. -/
theorem check_firstFault (t : Tree) :
    (¬ t.blockNames.Nodup → ∃ i j n, FirstClash id t.blockNames i j n n ∧
      Rejected t (.duplicate n) ("Duplicate label: " ++ n)) ∧
    (t.blockNames.Nodup →
      ¬ (∀ a ∈ t.labelNames, ∀ b ∈ t.labelNames, mangle a = mangle b → a = b) →
      ∃ i j a b, FirstClash mangle t.labelNames i j a b ∧
        Rejected t (.collision a b (mangle b))
          ("Labels '" ++ a ++ "' and '" ++ b ++ "' both emit as '" ++ mangle b ++ "'")) ∧
    (t.blockNames.Nodup →
      (∀ a ∈ t.labelNames, ∀ b ∈ t.labelNames, mangle a = mangle b → a = b) →
      check t = ⟨[], .ok (t.labelNames.map fun n => (n, mangle n))⟩ ∧
        (emit true t).records = [⟨.debug, logger,
          "emitting program with " ++ toString t.labelNames.length ++ " labels"⟩]) := by
  have hdistinct : t.labelNames.Nodup := by
    rw [← collect_eq]
    exact nodup_firstSeen .nil
  refine ⟨fun hrepeat => ?_, fun hnodup hshared => ?_, fun hnodup hinj => ?_⟩
  · rw [← List.map_id t.blockNames] at hrepeat
    obtain ⟨before, a, between, b, after, h⟩ := exists_parts hrepeat
    obtain rfl : a = b := h.shared
    exact ⟨_, _, a, h.firstClash, .of_mapping (mapping_of_repeat h)⟩
  · rw [← List.nodup_map_iff_inj_on hdistinct] at hshared
    obtain ⟨before, a, between, b, after, h⟩ := exists_parts hshared
    exact ⟨_, _, a, b, h.firstClash, .of_mapping (mapping_of_shared hnodup h)⟩
  · have hmapping : mapping t = .ok (t.labelNames.map fun n => (n, mangle n)) :=
      mapping_eq_ok_iff_labelNames.mpr ⟨⟨hnodup, hinj⟩, rfl⟩
    refine ⟨by rw [check, hmapping], ?_⟩
    rw [emit_checked, hmapping]
    dsimp only
    rw [emitting, List.length_map]

/-- Blocks with these names and no instructions. -/
def emptyBlocks (names : List String) : Tree :=
  .node (.asm .prog) [.nodes (names.map fun n => .node (.asm .cfg) [.name n, .nodes []])]

/-- The name of two blocks is reported, though names before it share a form; and of the names that
share a form those that do so first. -/
theorem check_emptyBlocks :
    Rejected (emptyBlocks ["a-b", "a_b", "c", "a-b"]) (.duplicate "a-b")
        "Duplicate label: a-b" ∧
      Rejected (emptyBlocks ["c", "a-b", "x?", "a_b", "xq"]) (.collision "a-b" "a_b" "a_b")
        "Labels 'a-b' and 'a_b' both emit as 'a_b'" := by
  constructor
  · have hcheck : (check (emptyBlocks ["a-b", "a_b", "c", "a-b"])).result =
        .error (.duplicate "a-b") := by
      decide +kernel
    obtain ⟨hrepeat, -, -⟩ := check_firstFault (emptyBlocks ["a-b", "a_b", "c", "a-b"])
    obtain ⟨i, j, n, -, h⟩ := hrepeat (by decide +kernel)
    rw [h.check] at hcheck
    obtain rfl : n = "a-b" := by simpa using hcheck
    exact h
  · have hcheck : (check (emptyBlocks ["c", "a-b", "x?", "a_b", "xq"])).result =
        .error (.collision "a-b" "a_b" "a_b") := by
      decide +kernel
    obtain ⟨-, hshared, -⟩ := check_firstFault (emptyBlocks ["c", "a-b", "x?", "a_b", "xq"])
    obtain ⟨i, j, a, b, -, h⟩ := hshared (by decide +kernel) (by decide +kernel)
    rw [h.check] at hcheck
    obtain ⟨rfl, rfl, hform⟩ : a = "a-b" ∧ b = "a_b" ∧ mangle b = "a_b" := by simpa using hcheck
    rwa [hform] at h

end LoweringIR.Label
