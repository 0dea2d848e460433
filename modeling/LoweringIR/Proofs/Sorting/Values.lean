import LoweringIR.Proofs.Sorting.Runs
import LoweringIR.Value.Form

/-!
# Laying out values

What is laid out by anybody who asks for it are values that nobody has checked, so a comparison may
fail and sorting with it. Where the keys are texts, or tuples of texts, none does, and laying out
values is the sorted arrangement of what they stand for. This joins the two places where collections
are put in order: the fields of a node, which are checked, and values.

The order is said once more here, in terms of the numbers of characters and the items of tuples, so
that it can be read off. Of the keys it is a total order, which is why the sorted arrangement is the
only one: no two orders of a collection ascend and keep equal keys as they were given.

## Main definitions

* `Arrangement.lexLE`, `codePointLE`, `elementsLE` — the orders of texts and of tuples of texts
* `Value.Items` — items of one kind as values, with their keys
* `Value.LaysOut` — what laying out items of one kind does

## Main results

* `Arrangement.nameLE_eq`, `namesLE_eq` — names are compared in these orders
* `Value.sortOn_eq` — sorting values does not fail, and is the sorted arrangement of what they are
* `Value.arrange_laysOut` — laying out texts, tuples of texts and pairs
-/

namespace LoweringIR

/-! ### Orders -/

namespace Arrangement

variable {α : Type}

/-- Element by element: the first unequal ones decide, and a list that ends before comes first. -/
def lexLE [DecidableEq α] (le : α → α → Bool) : List α → List α → Bool
  | [], _ => true
  | _ :: _, [] => false
  | x :: xs, y :: ys => if x = y then lexLE le xs ys else le x y

/-- Texts by the numbers of their characters. -/
def codePointLE (x y : String) : Bool :=
  lexLE (fun c d => decide (c.toNat ≤ d.toNat)) x.toList y.toList

/-- Tuples of texts by their items. -/
def elementsLE (x y : List String) : Bool := lexLE codePointLE x y

/-- Where no element comes before itself, this is the lexicographic order. -/
theorem lexLE_iff [DecidableEq α] [LT α] {le : α → α → Bool} (hirrefl : ∀ x : α, ¬ x < x)
    (hle : ∀ x y : α, le x y = true ↔ ¬ y < x) (xs ys : List α) :
    lexLE le xs ys = true ↔ ¬ ys < xs := by
  induction xs generalizing ys with
  | nil => simp [lexLE]
  | cons x xs ih =>
    cases ys with
    | nil => simp [lexLE]
    | cons y ys =>
      rw [lexLE, List.cons_lt_cons_iff]
      split
      · next hxy => simp [ih, hxy, hirrefl]
      · next hxy => simp [hle, Ne.symm hxy]

theorem codePointLE_iff (x y : String) : codePointLE x y = true ↔ ¬ y < x := by
  have hle : ∀ c d : Char, decide (c.toNat ≤ d.toNat) = true ↔ ¬ d < c := by
    intro c d
    rw [decide_eq_true_iff, Char.lt_def, UInt32.lt_iff_toNat_lt, Nat.not_lt]
    rfl
  rw [codePointLE, lexLE_iff Char.lt_irrefl hle]
  rfl

/-- **Names are compared by code point**. -/
theorem nameLE_eq : nameLE = codePointLE := by
  funext x y
  rw [Bool.eq_iff_iff, codePointLE_iff, nameLE, decide_eq_true_iff, String.not_lt]

/-- **Lists of names are compared element by element**, a proper prefix first. -/
theorem namesLE_eq : namesLE = elementsLE := by
  funext x y
  rw [Bool.eq_iff_iff, elementsLE, lexLE_iff String.lt_irrefl codePointLE_iff, namesLE,
    decide_eq_true_iff, List.not_lt]

example : codePointLE "B" "a" = true ∧ elementsLE ["a", ""] ["a"] = false := by decide

end Arrangement

open Arrangement (IsOrder StablySorted arrangeOn nameLE namesLE codePointLE elementsLE lenient)

namespace Value

/-! ### Items and their keys -/

/-- Items of one kind, as values with keys. -/
structure Items (α β : Type) where
  /-- The value of an item. -/
  value : α → Value
  /-- How the key is got from a value. -/
  keyOf : Value → Except ValueFault Value
  /-- The key of an item. -/
  key : α → β
  /-- The value of a key. -/
  keyValue : β → Value

namespace Items

/-- Texts are their own keys. -/
def texts : Items String String := ⟨str, pure, id, str⟩

/-- Tuples of texts are their own keys. -/
def tuples : Items (List String) (List String) :=
  ⟨fun ns => tuple (ns.map str), pure, id, fun ns => tuple (ns.map str)⟩

/-- Pairs have their first components as keys, which are texts. -/
def pairs : Items (String × Value) String :=
  ⟨fun e => tuple [str e.1, e.2], first, Prod.fst, str⟩

/-- An item with its key, as a pair of values. -/
def keyed {α β : Type} (i : Items α β) (x : α) : Value × Value := (i.keyValue (i.key x), i.value x)

/-- Comparing the keys of items follows an order. `read` gets a key back from its value. -/
structure Ordered {α β : Type} (i : Items α β) (le : β → β → Bool) (read : Value → β) : Prop where
  order : IsOrder le
  keyOf_eq : ∀ x, i.keyOf (i.value x) = .ok (i.keyValue (i.key x))
  read_eq : ∀ k, read (i.keyValue k) = k
  less_eq : ∀ k l, less (i.keyValue k) (i.keyValue l) = .ok (!le l k)

end Items

/-! ### Sorting -/

section

variable {α β : Type} {i : Items α β} {le : β → β → Bool} {read : Value → β}

theorem Items.Ordered.compares (h : i.Ordered le read) :
    Sorting.Compares (fun x y : Value × Value => less x.1 y.1) le (fun x => read x.1)
      fun x => ∃ k, x.1 = i.keyValue k where
  order := h.order
  less_eq := by
    rintro ⟨v, v'⟩ ⟨w, w'⟩ ⟨k, rfl⟩ ⟨l, rfl⟩
    rw [h.less_eq, h.read_eq, h.read_eq]

/-- The comparisons of a sort by runs put items where the sorted arrangement has them. -/
theorem sort_keyed (h : i.Ordered le read) (xs : List α) :
    Sorting.sort (fun x y => less x.1 y.1) (xs.map i.keyed) =
      .ok ((arrangeOn le i.key .sorted xs).map i.keyed) := by
  have hread : ∀ x, read (i.keyed x).1 = i.key x := fun x => h.read_eq (i.key x)
  have hmap : (arrangeOn le i.key .sorted xs).map i.keyed =
      arrangeOn le (fun x => read x.1) .sorted (xs.map i.keyed) :=
    Arrangement.map_arrangeOn (f := i.keyed) .sorted hread xs
  rw [h.compares.sort_eq (List.forall_mem_map.mpr fun x _ => ⟨i.key x, rfl⟩), hmap]

/-- **Sorting values** does not fail, and is the sorted arrangement of what they are. -/
theorem sortOn_eq (h : i.Ordered le read) (xs : List α) :
    sortOn i.keyOf (xs.map i.value) = .ok ((arrangeOn le i.key .sorted xs).map i.value) := by
  have hkeys : (xs.map i.value).mapM (fun v => do pure ((← i.keyOf v), v)) =
      (.ok (xs.map i.keyed) : Except ValueFault (List (Value × Value))) := by
    rw [mapM_eq_ok_iff, List.forall₂_map_left_iff, List.forall₂_map_right_iff]
    refine List.forall₂_same.mpr fun x _ => ?_
    rw [h.keyOf_eq]
    rfl
  have hsort : (arrangeOn le i.key .sorted xs).map i.keyed =
      (xs.map i.keyed).mergeSort fun x y => !precedes y.1 x.1 := by
    refine List.map_mergeSort fun x _ y _ => ?_
    simp [Items.keyed, precedes, h.less_eq]
  rw [sortOn, hkeys, ok_bind, sort_keyed h, ok_bind, ← hsort, List.map_map]
  rfl

end

/-! ### Texts, tuples and pairs -/

/-- The text that a value is, if it is one. -/
def asText : Value → String
  | str s => s
  | _ => ""

/-- The texts that the items of a tuple are. -/
def asTexts : Value → List String
  | tuple vs => vs.map asText
  | _ => []

theorem not_nameLE (s t : String) : (!nameLE t s) = decide (s < t) := by
  rw [Bool.eq_iff_iff, Bool.not_eq_true', nameLE, decide_eq_false_iff_not, String.not_le,
    decide_eq_true_iff]

theorem less_str (s t : String) : less (str s) (str t) = .ok (!nameLE t s) :=
  congrArg Except.ok (not_nameLE s t).symm

theorem lessItems_str (ns ms : List String) :
    lessItems (ns.map str) (ms.map str) = .ok (decide (ns < ms)) := by
  induction ns generalizing ms with
  | nil => cases ms <;> simp [lessItems]
  | cons n ns ih =>
    cases ms with
    | nil => simp [lessItems]
    | cons m ms =>
      have hsame : same (str n) (str m) = (m == n) := rfl
      rw [List.map_cons, List.map_cons, lessItems, hsame]
      split
      · next hmn => simp [ih, eq_of_beq hmn]
      · next hmn =>
        have hnm : n ≠ m := fun h => hmn (by simp [h])
        rw [less_str, not_nameLE]
        simp [List.cons_lt_cons_iff, hnm]

theorem less_tuple (ns ms : List String) :
    less (tuple (ns.map str)) (tuple (ms.map str)) = .ok (!namesLE ms ns) := by
  have hless : less (tuple (ns.map str)) (tuple (ms.map str)) =
      lessItems (ns.map str) (ms.map str) := rfl
  have hnot : (!namesLE ms ns) = decide (ns < ms) := by
    rw [Bool.eq_iff_iff, Bool.not_eq_true', namesLE, decide_eq_false_iff_not, List.not_le,
      decide_eq_true_iff]
  rw [hless, lessItems_str, hnot]

theorem texts_ordered : Items.texts.Ordered nameLE asText where
  order := Arrangement.nameLE_isOrder
  keyOf_eq _ := rfl
  read_eq _ := rfl
  less_eq := less_str

theorem tuples_ordered : Items.tuples.Ordered namesLE asTexts where
  order := Arrangement.namesLE_isOrder
  keyOf_eq _ := rfl
  read_eq ns := by simp [Items.tuples, asTexts, asText, Function.comp_def]
  less_eq := less_tuple

theorem pairs_ordered : Items.pairs.Ordered nameLE asText where
  order := Arrangement.nameLE_isOrder
  keyOf_eq _ := rfl
  read_eq _ := rfl
  less_eq := less_str

/-! ### Laying out -/

section

variable {α β : Type}

/-- What laying out a list of items gives, by whatever text says how. -/
def Items.laidOut (i : Items α β) (ordering : String) (xs : List α) :
    Shared ValueFault (List Value) :=
  arrange (lenient ordering) i.keyOf (list (xs.map i.value))

/-- What laying out items of one kind does to their values. To the items it is `lay`. -/
structure LaysOut [DecidableEq β] (i : Items α β) (le : β → β → Bool)
    (lay : Arrangement → List α → List α) : Prop where
  /-- A list of items is laid out without a fault, and no stream is touched. -/
  laidOut_eq : ∀ ordering xs,
    i.laidOut ordering xs = pure ((lay (lenient ordering) xs).map i.value)
  /-- The sort that makes the comparisons comes to the same. -/
  byRuns : ∀ xs, Sorting.sort (fun x y => less x.1 y.1) (xs.map i.keyed) =
    .ok ((lay (lenient "sorted") xs).map i.keyed)
  /-- Sorting permutes and ascends and keeps equal keys as they were, and nothing else does. -/
  sorted : ∀ xs ys, StablySorted le i.key xs ys ↔ ys = lay (lenient "sorted") xs
  /-- What is sorted stays as it is. -/
  idempotent : ∀ xs,
    i.laidOut "sorted" (lay (lenient "sorted") xs) = i.laidOut "sorted" xs
  /-- Asked for anything else, items stay as they were given. -/
  given : ∀ ordering, ordering ≠ "sorted" →
    ∀ xs, i.laidOut ordering xs = pure (xs.map i.value)

variable {i : Items α β} {le : β → β → Bool} {read : Value → β}

theorem Items.Ordered.laidOut_eq (h : i.Ordered le read) (ordering : String) (xs : List α) :
    i.laidOut ordering xs = pure ((arrangeOn le i.key (lenient ordering) xs).map i.value) := by
  rw [laidOut]
  cases lenient ordering with
  | sorted =>
    have hsort : arrange .sorted i.keyOf (list (xs.map i.value)) =
      (MonadExcept.ofExcept (sortOn i.keyOf (xs.map i.value)) : Shared ValueFault _) := rfl
    rw [hsort, sortOn_eq h]
    rfl
  | insertion => rfl

theorem Items.Ordered.laysOut [DecidableEq β] (h : i.Ordered le read) :
    LaysOut i le (arrangeOn le i.key) where
  laidOut_eq := h.laidOut_eq
  byRuns := sort_keyed h
  sorted _ _ := Arrangement.stablySorted_iff h.order
  idempotent xs := by
    have hsorted : lenient "sorted" = .sorted := rfl
    rw [h.laidOut_eq, h.laidOut_eq, hsorted, Arrangement.arrangeOn_arrangeOn h.order]
  given ordering hne xs := by
    have hinsertion : lenient ordering = .insertion := if_neg hne
    rw [h.laidOut_eq, hinsertion, Arrangement.arrangeOn_insertion]

/-- **The same result** comes from the same items in two orders and from no others, if items have
keys and values of their own. -/
theorem Items.Ordered.laidOut_eq_iff (h : i.Ordered le read) (hkey : Function.Injective i.key)
    (hvalue : Function.Injective i.value) (xs ys : List α) :
    i.laidOut "sorted" xs = i.laidOut "sorted" ys ↔ xs.Perm ys := by
  rw [h.laidOut_eq, h.laidOut_eq]
  constructor
  · intro heq
    have hrun : ∀ vs : List Value,
        ((pure vs : Shared ValueFault (List Value)).run .untouched).1 = .ok vs := fun _ => rfl
    have hvalues := congrArg (fun x => (x.run Streams.untouched).1) heq
    simp only [hrun, Except.ok.injEq] at hvalues
    have hsame := hvalue.list_map hvalues
    exact (Arrangement.arrangeOn_perm ..).symm.trans
      (hsame ▸ Arrangement.arrangeOn_perm le i.key _ ys)
  · intro hperm
    have hsame : arrangeOn le i.key .sorted xs = arrangeOn le i.key .sorted ys :=
      Arrangement.arrangeOn_eq_of_perm h.order hperm fun x _ y _ hxy => hkey hxy
    rw [show lenient "sorted" = .sorted from rfl, hsame]

end

theorem str_injective : Function.Injective str := fun _ _ h => str.inj h

theorem tuple_str_injective : Function.Injective fun ns : List String => tuple (ns.map str) :=
  fun _ _ h => str_injective.list_map (tuple.inj h)

/-- **Laying out** texts, tuples of texts, and pairs by their first components. -/
theorem arrange_laysOut :
    LaysOut Items.texts codePointLE Arrangement.names ∧
      LaysOut Items.tuples elementsLE Arrangement.frames ∧
      LaysOut Items.pairs codePointLE Arrangement.entries ∧
      (∀ xs ys, Items.texts.laidOut "sorted" xs = Items.texts.laidOut "sorted" ys ↔ xs.Perm ys) ∧
      ∀ xs ys, Items.tuples.laidOut "sorted" xs = Items.tuples.laidOut "sorted" ys ↔
        xs.Perm ys := by
  refine ⟨?_, ?_, ?_, ?_, ?_⟩
  · exact Arrangement.nameLE_eq ▸ texts_ordered.laysOut
  · exact Arrangement.namesLE_eq ▸ tuples_ordered.laysOut
  · exact Arrangement.nameLE_eq ▸ pairs_ordered.laysOut
  · exact texts_ordered.laidOut_eq_iff Function.injective_id str_injective
  · exact tuples_ordered.laidOut_eq_iff Function.injective_id tuple_str_injective

end Value

end LoweringIR
