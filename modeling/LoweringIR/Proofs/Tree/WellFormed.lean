import LoweringIR.Proofs.Outcome
import LoweringIR.Tree.Build

/-!
# Well-formed trees

The type of trees lets a node have any fields. Building lets it have only those of its kind, and
this module says which those are, without mention of how they are read: the shapes are the ones of
the schema, children belong to the family of their parent, and the few kinds that ask for more get
it. A tree is *well formed* if this holds at every node, and *whole* if it has no blank. Both are
about all nodes at once, so both are instances of `Tree.Everywhere`.

A blank is well formed: it may stand wherever a node of its family may. What has a text or a
document is a tree that is whole as well.

## Main definitions

* `Tree.Everywhere` — a property of all nodes and blanks of a tree
* `Kind.Fits` — what the fields of a node of some kind are
* `Tree.WellFormed`, `Tree.Whole`

## Main results

* `Kind.check_eq_ok_iff` — the conditions that building checks are those of `Kind.Admits`
* `Tree.WellFormed.family_of_mem` — a tree is of one family throughout
-/

namespace LoweringIR

/-! ### Children of several fields -/

namespace Field

variable {α β : Type}

@[simp] theorem flatMap_children_map (f : α → β) (xs : List (Field α)) :
    (xs.map (map f)).flatMap children = (xs.flatMap children).map f := by
  simp [List.flatMap_map, List.map_flatMap]

theorem map_shape_map (f : α → β) (xs : List (Field α)) :
    (xs.map (map f)).map shape = xs.map shape := by
  rw [List.map_map]
  exact List.map_congr_left fun x _ => x.shape_map f

/-- Children that are replaced and put back leave the fields as they were. -/
theorem map_map_eq_self {f : α → β} {g : β → α} {xs : List (Field α)}
    (h : ∀ x ∈ xs, ∀ a ∈ x.children, g (f a) = a) : (xs.map (map f)).map (map g) = xs := by
  rw [List.map_map]
  refine (List.map_congr_left fun x hx => ?_).trans xs.map_id
  rw [Function.comp_apply, map_map, id]
  exact (map_congr fun a ha => h x hx a ha).trans x.map_id

section

variable {g : α → β} {x : Field α}

theorem map_eq_name_iff {s : String} : x.map g = .name s ↔ x = .name s := by
  cases x <;> simp [map]

theorem map_eq_int64_iff {n : Int64} : x.map g = .int64 n ↔ x = .int64 n := by
  cases x <;> simp [map]

theorem map_eq_node_iff {b : β} : x.map g = .node b ↔ ∃ a, x = .node a ∧ g a = b := by
  cases x <;> simp [map]

theorem map_eq_nodes_iff {bs : List β} :
    x.map g = .nodes bs ↔ ∃ as, x = .nodes as ∧ as.map g = bs := by
  cases x <;> simp [map]

theorem map_eq_bindings_iff {es : List (String × β)} :
    x.map g = .bindings es ↔ ∃ ds, x = .bindings ds ∧ ds.map (fun e => (e.1, g e.2)) = es := by
  cases x <;> simp [map]

end

end Field

namespace Tree

/-! ### Properties of all nodes -/

/-- `P` holds of a tree and of the trees in its fields, at any depth. -/
inductive Everywhere (P : Tree → Prop) : Tree → Prop
  | intro {t : Tree} (here : P t) (below : ∀ u ∈ t.members, Everywhere P u) : Everywhere P t

section

variable {P : Tree → Prop} {t u : Tree}

theorem everywhere_iff : t.Everywhere P ↔ P t ∧ ∀ u ∈ t.members, u.Everywhere P := by
  constructor
  · rintro ⟨here, below⟩
    exact ⟨here, below⟩
  · rintro ⟨here, below⟩
    exact .intro here below

theorem Everywhere.here (h : t.Everywhere P) : P t := (everywhere_iff.mp h).1

theorem Everywhere.of_mem (h : t.Everywhere P) (hu : u ∈ t.members) : u.Everywhere P :=
  (everywhere_iff.mp h).2 u hu

theorem Everywhere.of_mem_children (h : t.Everywhere P) (hu : u ∈ t.children) :
    u.Everywhere P :=
  h.of_mem (t.children_sublist_members.subset hu)

end

/-- The kind of a node. A blank has none. -/
def kind? : Tree → Option Kind
  | blank _ _ => none
  | node k _ => some k

theorem kind?_eq_some_iff {k : Kind} {t : Tree} : t.kind? = some k ↔ ∃ fs, t = node k fs := by
  cases t <;> simp [kind?]

/-- No place in the tree is blank. -/
def Whole (t : Tree) : Prop := t.Everywhere fun u => u.kind?.isSome

@[simp] theorem not_whole_blank (f : Option Family) (n : Nat) : ¬ (blank f n).Whole := by
  intro h
  have := h.here
  simp [kind?] at this

@[simp] theorem whole_node_iff {k : Kind} {fs : List (Field Tree)} :
    (node k fs).Whole ↔ ∀ u ∈ fs.flatMap Field.children, u.Whole := by
  rw [Whole, everywhere_iff]
  simp [kind?, members, Whole]

end Tree

/-! ### Well-formedness -/

/-- The conditions that a few kinds put on what stands in their fields: registers are those of the
machine, addresses are made of registers and labels, and recursive bindings bind lambdas. -/
def Kind.Admits : Kind → List (Field Tree) → Prop
  | .asm .reg, [.name n] => n ∈ registerNames
  | .asm .deref, [.node base, .int64 _] => base.kind? = some (.asm .reg)
  | .asm .derefLabel, [.node base, .node label] =>
    base.kind? = some (.asm .reg) ∧ label.kind? = some (.asm .label)
  | .asm .derefRegister, [.node base, .node index] =>
    base.kind? = some (.asm .reg) ∧ index.kind? = some (.asm .reg)
  | .scheme .letrec, [.bindings es, .node _] => ∀ e ∈ es, e.2.kind? = some (.scheme .lambda)
  | .regalloc .letrec, [.nodes ts, .node _] => ∀ t ∈ ts, t.kind? = some (.regalloc .lambda)
  | _, _ => True

/-- What a kind admits depends on the kinds of the children alone. -/
theorem Kind.Admits.map {k : Kind} {fs : List (Field Tree)} {g : Tree → Tree}
    (hg : ∀ u, (g u).kind? = u.kind?) (h : k.Admits fs) :
    k.Admits (fs.map (Field.map g)) := by
  unfold Kind.Admits
  split <;> simp only [List.map_eq_cons_iff, List.map_eq_nil_iff, Field.map_eq_name_iff,
    Field.map_eq_int64_iff, Field.map_eq_node_iff, Field.map_eq_nodes_iff,
    Field.map_eq_bindings_iff] at *
  · next heq =>
    obtain ⟨_, _, rfl, rfl, rfl⟩ := heq
    exact h
  · next heq =>
    obtain ⟨_, _, rfl, ⟨base, rfl, rfl⟩, _, _, rfl, rfl, rfl⟩ := heq
    exact (hg base).trans h
  · next heq =>
    obtain ⟨_, _, rfl, ⟨base, rfl, rfl⟩, _, _, rfl, ⟨label, rfl, rfl⟩, rfl⟩ := heq
    exact ⟨(hg base).trans h.1, (hg label).trans h.2⟩
  · next heq =>
    obtain ⟨_, _, rfl, ⟨base, rfl, rfl⟩, _, _, rfl, ⟨index, rfl, rfl⟩, rfl⟩ := heq
    exact ⟨(hg base).trans h.1, (hg index).trans h.2⟩
  · next heq =>
    obtain ⟨_, _, rfl, ⟨es, rfl, rfl⟩, _, _, rfl, ⟨_, rfl, rfl⟩, rfl⟩ := heq
    exact List.forall_mem_map.mpr fun e he => (hg e.2).trans (h e he)
  · next heq =>
    obtain ⟨_, _, rfl, ⟨ts, rfl, rfl⟩, _, _, rfl, ⟨_, rfl, rfl⟩, rfl⟩ := heq
    exact List.forall_mem_map.mpr fun t ht => (hg t).trans (h t ht)

/-- What the fields of a node of this kind are. -/
structure Kind.Fits (k : Kind) (fs : List (Field Tree)) : Prop where
  /-- Every field of the schema is there with its shape, and no other. -/
  shapes : fs.map Field.shape = k.schema.map Prod.snd
  /-- Children belong to the family of their parent. -/
  family : ∀ t ∈ fs.flatMap Field.children, t.family? = some k.family
  /-- The kind admits what stands in the fields. -/
  admitted : k.Admits fs

theorem Kind.Fits.length_eq {k : Kind} {fs : List (Field Tree)} (h : k.Fits fs) :
    fs.length = k.schema.length := by
  have := congrArg List.length h.shapes
  simpa using this

namespace Tree

/-- A node fits its kind. -/
def FitsKind : Tree → Prop
  | blank _ _ => True
  | node k fs => k.Fits fs

/-- Every node fits its kind. -/
def WellFormed (t : Tree) : Prop := t.Everywhere FitsKind

variable {k : Kind} {fs : List (Field Tree)} {t u : Tree}

@[simp] theorem wellFormed_blank (f : Option Family) (n : Nat) : (blank f n).WellFormed := by
  rw [WellFormed, everywhere_iff]
  simp [FitsKind, members]

theorem wellFormed_node_iff :
    (node k fs).WellFormed ↔ k.Fits fs ∧ ∀ u ∈ fs.flatMap Field.children, u.WellFormed := by
  rw [WellFormed, everywhere_iff]
  rfl

theorem WellFormed.fits (h : (node k fs).WellFormed) : k.Fits fs := h.here

/-- A tree is of one family throughout. -/
theorem WellFormed.family_of_mem (h : t.WellFormed) (hu : u ∈ t.members) :
    u.family? = t.family? := by
  cases t with
  | blank f n => simp [members] at hu
  | node k fs => exact h.fits.family u hu

end Tree

/-- Only kinds of assembly are of its family. -/
theorem Kind.family_eq_asm_iff {k : Kind} : k.family = .asm ↔ ∃ a, k = .asm a := by
  rcases k with ⟨_ | _, k⟩ | k | k | k <;> simp [family, Dialect.family]

/-- Induction on well-formed trees of assembly. -/
theorem Tree.WellFormed.induct_asm {P : Tree → Prop} {t : Tree} (hw : t.WellFormed)
    (hf : t.family? = some .asm) (blank : ∀ f n, P (.blank f n))
    (node : ∀ k fs, (Tree.node (.asm k) fs).WellFormed →
      (∀ u ∈ fs.flatMap Field.children, P u) → P (.node (.asm k) fs)) : P t := by
  induction hw with
  | @intro t here below ih =>
    have hw : t.WellFormed := .intro here below
    cases t with
    | blank f n => exact blank f n
    | node k fs =>
      obtain ⟨k, rfl⟩ := Kind.family_eq_asm_iff.mp (Option.some.inj hf)
      exact node k fs hw fun u hu => ih u hu (hw.fits.family u hu)

/-- Induction on well-formed trees that are whole. -/
theorem Tree.WellFormed.induct_whole {P : Tree → Prop} {t : Tree} (hw : t.WellFormed)
    (hc : t.Whole)
    (node : ∀ k fs, (Tree.node k fs).WellFormed → (Tree.node k fs).Whole →
      (∀ u ∈ fs.flatMap Field.children, P u) → P (.node k fs)) : P t := by
  induction hw with
  | @intro t here below ih =>
    cases t with
    | blank f n => exact absurd hc (not_whole_blank f n)
    | node k fs => exact node k fs (.intro here below) hc fun u hu => ih u hu (hc.of_mem hu)

/-! ### The checks of building

Building runs through its conditions with messages at hand for the first that fails. Without the
messages, it accepts exactly what `Kind.Admits` says. -/

@[simp] theorem Place.refuse_ne_ok {α : Type} {p : Place} {w : Wanted} {v : Value} {a : α} :
    (p.refuse w v : Except BuildFault α) ≠ .ok a := by
  simp [Place.refuse, throw, throwThe, MonadExceptOf.throw]

theorem forall_mem_zipIdx_iff {α : Type} {P : α → Prop} {as : List α} :
    (∀ a i, (a, i) ∈ as.zipIdx → P a) ↔ ∀ a ∈ as, P a := by
  rw [← Prod.forall (p := fun p => p ∈ as.zipIdx → P p.1),
    ← List.forall_mem_map (P := P) (f := Prod.fst), List.zipIdx_map_fst]

namespace Kind

variable {k : Kind} {field : String} {t : Tree}

theorem checkRegister_eq_ok_iff :
    k.checkRegister field t = .ok () ↔ t.kind? = some (.asm .reg) := by
  rw [Tree.kind?_eq_some_iff]
  unfold checkRegister
  split <;> simp_all

theorem checkLabel_eq_ok_iff :
    k.checkLabel field t = .ok () ↔ t.kind? = some (.asm .label) := by
  rw [Tree.kind?_eq_some_iff]
  unfold checkLabel
  split <;> simp_all

theorem isSchemeLambda_iff :
    isSchemeLambda t = true ↔ t.kind? = some (.scheme .lambda) := by
  rw [Tree.kind?_eq_some_iff]
  unfold isSchemeLambda
  split <;> simp_all

theorem isRegallocLambda_iff :
    isRegallocLambda t = true ↔ t.kind? = some (.regalloc .lambda) := by
  rw [Tree.kind?_eq_some_iff]
  unfold isRegallocLambda
  split <;> simp_all

/-- The conditions that building checks are those of the kind. -/
theorem check_eq_ok_iff {fs : List (Field Tree)} : k.check fs = .ok () ↔ k.Admits fs := by
  unfold check Admits
  split
  · simp
  · exact checkRegister_eq_ok_iff
  · rw [bind_eq_ok_unit_iff, checkRegister_eq_ok_iff, checkLabel_eq_ok_iff]
  · rw [bind_eq_ok_unit_iff, checkRegister_eq_ok_iff, checkRegister_eq_ok_iff]
  · simp [forM_eq_ok_iff, isSchemeLambda_iff]
  · simpa [forM_eq_ok_iff, isRegallocLambda_iff] using forall_mem_zipIdx_iff
  · simp

theorem fits_iff {fs : List (Field Tree)} :
    k.Fits fs ↔ fs.map Field.shape = k.schema.map Prod.snd ∧
      (∀ t ∈ fs.flatMap Field.children, t.family? = some k.family) ∧ k.Admits fs :=
  ⟨fun h => ⟨h.shapes, h.family, h.admitted⟩, fun h => ⟨h.1, h.2.1, h.2.2⟩⟩

/-! ### Deciding

The checks of building decide what a kind admits, and a fold decides what holds everywhere. The fold
puts the tree together again on the way, since the property is one of trees. -/

instance (k : Kind) (fs : List (Field Tree)) : Decidable (k.Admits fs) :=
  match h : k.check fs with
  | .ok () => .isTrue (check_eq_ok_iff.mp h)
  | .error _ => .isFalse fun ha => by rw [check_eq_ok_iff.mpr ha] at h; cases h

instance (k : Kind) (fs : List (Field Tree)) : Decidable (k.Fits fs) :=
  decidable_of_iff' _ fits_iff

end Kind

namespace Tree

instance : DecidablePred FitsKind
  | blank _ _ => .isTrue trivial
  | node k fs => inferInstanceAs (Decidable (k.Fits fs))

variable (P : Tree → Prop) [DecidablePred P]

/-- A tree, and whether `P` holds everywhere in it. -/
def surveyed : Tree → Tree × Bool :=
  fold (fun f n => (blank f n, P (blank f n))) fun k fs =>
    let t := node k (fs.map (Field.map Prod.fst))
    (t, P t && fs.all fun x => x.children.all Prod.snd)

theorem surveyed_fst (t : Tree) : (t.surveyed P).1 = t := by
  induction t using induct with
  | blank f n => simp [surveyed]
  | node k fs ih => rw [surveyed, fold_node, ← surveyed, Field.map_map_eq_self ih]

theorem surveyed_snd_iff (t : Tree) : (t.surveyed P).2 = true ↔ t.Everywhere P := by
  induction t using induct with
  | blank f n =>
    rw [everywhere_iff]
    simp [surveyed, members]
  | node k fs ih =>
    rw [surveyed, fold_node, ← surveyed,
      Field.map_map_eq_self fun x _ t _ => surveyed_fst P t, everywhere_iff]
    simp only [Bool.and_eq_true, decide_eq_true_eq, members, List.all_eq_true, List.mem_flatMap,
      List.forall_mem_map, Field.children_map]
    refine and_congr_right fun _ => ⟨?_, fun h x hx t ht => (ih x hx t ht).mpr (h t ⟨x, hx, ht⟩)⟩
    rintro h t ⟨x, hx, ht⟩
    exact (ih x hx t ht).mp (h x hx t ht)

instance : DecidablePred (Everywhere P) := fun t => decidable_of_iff _ (surveyed_snd_iff P t)

instance : DecidablePred WellFormed := fun t => inferInstanceAs (Decidable (t.Everywhere _))

instance : DecidablePred Whole := fun t => inferInstanceAs (Decidable (t.Everywhere _))

end Tree

end LoweringIR
