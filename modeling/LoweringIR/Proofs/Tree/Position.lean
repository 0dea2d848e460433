import LoweringIR.Proofs.Tree.WellFormed
import LoweringIR.Tree.Preorder
import Mathlib.Data.List.Basic
import Mathlib.Data.List.Pairwise

/-!
# Positions in a tree

One tree may stand at several places of another, and a list of the trees in it does not tell them
apart. A *position* does: it is the way from the root, by the numbers of the members that are gone
through. Positions are compared as lists of numbers, so a tree comes before what is below it, and
what is below one member comes before what is below the next.

Pre-order is the order of positions. This holds where walks go through all members, as they do in
assembly, which has no quotations.

## Main definitions

* `Tree.at?` — the tree at a position
* `Tree.positions` — all positions, in pre-order

## Main results

* `Tree.mem_positions_iff`, `Tree.positions_sorted` — there is a tree at each of them, and none is
  met twice
* `Tree.filterMap_preorder` — what is gathered in pre-order is gathered along the positions
-/

namespace LoweringIR.Tree

/-- The tree at a position. -/
def at? : Tree → List Nat → Option Tree
  | t, [] => some t
  | t, i :: p => t.members[i]?.bind fun u => u.at? p

/-- All positions in a tree. -/
def positions : Tree → List (List Nat) :=
  fold (fun _ _ => [[]]) fun _ fs =>
    [] :: (fs.flatMap Field.children).zipIdx.flatMap fun u => u.1.map (u.2 :: ·)

variable {t : Tree} {p : List Nat}

theorem positions_eq (t : Tree) :
    t.positions = [] :: t.members.zipIdx.flatMap fun u => u.1.positions.map (u.2 :: ·) := by
  cases t with
  | blank f n => simp [positions, members]
  | node k fs =>
    rw [positions, fold_node, Field.flatMap_children_map, List.zipIdx_map, List.flatMap_map]
    rfl

theorem mem_positions_iff : p ∈ t.positions ↔ ∃ u, t.at? p = some u := by
  induction p generalizing t with
  | nil =>
    rw [positions_eq]
    simp [at?]
  | cons i p ih =>
    simp only [positions_eq t, List.mem_cons, reduceCtorEq, false_or, List.mem_flatMap,
      List.mem_map, List.cons.injEq, at?, Option.bind_eq_some_iff]
    constructor
    · rintro ⟨⟨u, j⟩, hu, q, hq, rfl, rfl⟩
      obtain ⟨v, hv⟩ := ih.mp hq
      exact ⟨v, u, List.mem_zipIdx_iff_getElem?.mp hu, hv⟩
    · rintro ⟨v, u, hu, hv⟩
      exact ⟨(u, i), List.mem_zipIdx_iff_getElem?.mpr hu, p, ih.mpr ⟨v, hv⟩, rfl, rfl⟩

theorem zipIdx_sorted {α : Type} (as : List α) :
    as.zipIdx.Pairwise fun a b => a.2 < b.2 := by
  rw [← List.pairwise_map, List.zipIdx_map_snd]
  exact List.pairwise_lt_range'

/-- Positions are met in ascending order. -/
theorem positions_sorted (t : Tree) : t.positions.Pairwise (· < ·) := by
  induction t using induct with
  | blank f n => simp [positions]
  | node k fs ih =>
    rw [positions_eq, List.pairwise_cons, List.pairwise_flatMap]
    refine ⟨?_, ?_, (zipIdx_sorted _).imp ?_⟩
    · simp only [List.mem_flatMap, List.mem_map]
      rintro p ⟨⟨u, i⟩, -, q, -, rfl⟩
      exact List.nil_lt_cons i q
    · rintro ⟨u, i⟩ hu
      obtain ⟨x, hx, hux⟩ := List.mem_flatMap.mp (List.fst_mem_of_mem_zipIdx hu)
      exact List.pairwise_map.mpr ((ih x hx u hux).imp fun h =>
        List.cons_lt_cons_iff.mpr (.inr ⟨rfl, h⟩))
    · rintro ⟨u, i⟩ ⟨v, j⟩ hij p hp q hq
      obtain ⟨p, -, rfl⟩ := List.mem_map.mp hp
      obtain ⟨q, -, rfl⟩ := List.mem_map.mp hq
      exact List.cons_lt_cons_iff.mpr (.inl hij)

theorem positions_nodup (t : Tree) : t.positions.Nodup :=
  t.positions_sorted.imp fun h => (List.lt_irrefl _ <| · ▸ h)

/-! ### Pre-order -/

/-- What holds everywhere in a tree holds everywhere in the trees that are met in pre-order. -/
theorem Everywhere.of_mem_preorder {P : Tree → Prop} (h : t.Everywhere P) (hu : u ∈ t.preorder) :
    u.Everywhere P := by
  induction h with
  | @intro t here below ih =>
    rw [preorder_eq, List.mem_cons, List.mem_flatMap] at hu
    obtain rfl | ⟨v, hv, hu⟩ := hu
    · exact .intro here below
    · exact ih v (t.children_sublist_members.subset hv) hu

/-- The trees that are met in pre-order are of one family. -/
theorem WellFormed.family_of_mem_preorder (hw : t.WellFormed) (hu : u ∈ t.preorder) :
    u.family? = t.family? := by
  induction hw with
  | @intro t here below ih =>
    have hw : t.WellFormed := .intro here below
    rw [preorder_eq, List.mem_cons, List.mem_flatMap] at hu
    obtain rfl | ⟨v, hv, hu⟩ := hu
    · rfl
    · have hmember := t.children_sublist_members.subset hv
      exact (ih v hmember hu).trans (hw.family_of_mem hmember)

/-- Walks over the tree go through all members of every node. -/
def Unquoted (t : Tree) : Prop := t.Everywhere fun u => u.children = u.members

/-- Assembly has no quotations. -/
theorem WellFormed.unquoted (hw : t.WellFormed) (hf : t.family? = some .asm) : t.Unquoted :=
  hw.induct_asm hf (fun _ _ => .intro rfl nofun) fun _ _ _ ih => .intro rfl ih

theorem map_at?_positions (h : t.Unquoted) : t.positions.map t.at? = t.preorder.map some := by
  induction h with
  | @intro t here below ih =>
    have hmembers : ∀ u ∈ t.members.zipIdx,
        (u.1.positions.map (u.2 :: ·)).map t.at? = u.1.preorder.map some := by
      rintro ⟨u, i⟩ hu
      rw [← ih u (List.fst_mem_of_mem_zipIdx hu), List.map_map]
      refine List.map_congr_left fun p _ => ?_
      simp [at?, List.mem_zipIdx_iff_getElem?.mp hu]
    rw [positions_eq, preorder_eq, here, List.map_cons, List.map_cons, List.map_flatMap,
      List.map_flatMap, List.flatMap_congr hmembers, at?]
    conv_rhs => rw [← List.zipIdx_map_fst 0 t.members, List.flatMap_map]

/-- **Pre-order is the order of positions.** -/
theorem filterMap_preorder {α : Type} (h : t.Unquoted) (f : Tree → Option α) :
    t.preorder.filterMap f = t.positions.filterMap fun p => (t.at? p).bind f := by
  calc t.preorder.filterMap f = (t.preorder.map some).filterMap fun u => u.bind f := by
        simp [List.filterMap_map]
    _ = (t.positions.map t.at?).filterMap fun u => u.bind f := by rw [map_at?_positions h]
    _ = t.positions.filterMap fun p => (t.at? p).bind f := by
        simp [List.filterMap_map]

section

variable {α : Type} {f : Tree → Option α} {b : α}

theorem mem_filterMap_preorder_iff (h : t.Unquoted) :
    b ∈ t.preorder.filterMap f ↔ ∃ p, (t.at? p).bind f = some b := by
  rw [filterMap_preorder h, List.mem_filterMap]
  constructor
  · rintro ⟨p, -, hp⟩
    exact ⟨p, hp⟩
  · rintro ⟨p, hp⟩
    obtain ⟨u, hu, -⟩ := Option.bind_eq_some_iff.mp hp
    exact ⟨p, mem_positions_iff.mpr ⟨u, hu⟩, hp⟩

/-- Nothing is gathered twice if it is found at one position only. -/
theorem nodup_filterMap_preorder_iff (h : t.Unquoted) :
    (t.preorder.filterMap f).Nodup ↔
      ∀ p q b, (t.at? p).bind f = some b → (t.at? q).bind f = some b → p = q := by
  have hmem : ∀ {p b}, (t.at? p).bind f = some b → p ∈ t.positions := by
    intro p b hp
    obtain ⟨u, hu, -⟩ := Option.bind_eq_some_iff.mp hp
    exact mem_positions_iff.mpr ⟨u, hu⟩
  rw [filterMap_preorder h, List.Nodup, List.pairwise_filterMap]
  constructor
  · intro hpairs p q b hp hq
    by_contra hne
    have hsymm : Std.Symm fun p q => ∀ b, (t.at? p).bind f = some b →
        ∀ c, (t.at? q).bind f = some c → b ≠ c :=
      ⟨fun p q h b hb c hc heq => h c hc b hb heq.symm⟩
    exact hpairs.forall (hmem hp) (hmem hq) hne b hp b hq rfl
  · intro hsame
    refine t.positions_nodup.imp fun {p q} hne b hp c hq heq => ?_
    exact hne (hsame p q b hp (heq ▸ hq))

end

end LoweringIR.Tree
