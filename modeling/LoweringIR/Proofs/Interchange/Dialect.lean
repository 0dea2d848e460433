import LoweringIR.Proofs.Interchange.RoundTrip
import LoweringIR.Proofs.Interchange.Sound
import LoweringIR.Proofs.Interchange.Stored
import LoweringIR.Proofs.Rendering.Text

/-!
# Reading a tree in the other dialect

A document says of which family its tree is, and the tree itself does not. So a tree of one dialect
may be read as one of the other, and this module says what comes of it. It is read if every node in
it is of a kind that the other dialect has as well, under the same name and with the same fields.
What is read then is the same tree in the other dialect, word for word.

## Why nothing else is read

Names are not enough. Both dialects have lambdas and recursive bindings, and their fields differ, so
such a node names a kind that is known and still cannot be built. Nor is it enough to look at the
root: decoding builds a tree from the inside out, so a node that does not fit leaves all that is
around it without a value.

## Main definitions

* `Kind.Shared`, `Tree.Shared` — kinds that another family has as well, and trees of such kinds
* `Tree.inDialect` — the same tree in a dialect

## Main results

* `Tree.encode_inDialect`, `Tree.part_inDialect` — encodings and texts do not show the dialect
* `Tree.shared_of_decoded` — what is read in the other dialect is shared
* `Tree.decode_encode_dialect` — what a tree is in the other dialect
-/

namespace LoweringIR

/-! ### Kinds -/

/-- A kind of a family is found under its name, and nothing else is. -/
theorem Family.head?_eq_some_node_iff {f : Family} {name : String} {k : Kind} :
    f.head? name = some (.node k) ↔ k.family = f ∧ k.name = name := by
  constructor
  · intro h
    have hname := List.find?_some h
    exact ⟨family_of_head? h, eq_of_beq hname⟩
  · rintro ⟨rfl, rfl⟩
    exact head?_name k

/-- Where both dialects have a name and mean different kinds, the names of the fields differ. -/
theorem SchemeKind.not_perm (c : SchemeKind) :
    ∀ h ∈ Family.regalloc.head? c.name, ¬ (c.schema.map Prod.fst).Perm h.fieldNames := by
  cases c <;> decide

@[inherit_doc SchemeKind.not_perm]
theorem RegallocKind.not_perm (c : RegallocKind) :
    ∀ h ∈ Family.scheme.head? c.name, ¬ (c.schema.map Prod.fst).Perm h.fieldNames := by
  cases c <;> decide

namespace Kind

/-- The family has a kind with this name and these fields. -/
def Shared (f : Family) (k : Kind) : Prop :=
  ∃ l : Kind, l.family = f ∧ l.name = k.name ∧ l.schema = k.schema

/-- Such a kind is looked up by its name. -/
theorem shared_iff_head? {f : Family} {k : Kind} :
    k.Shared f ↔ ∃ l, f.head? k.name = some (.node l) ∧ l.schema = k.schema := by
  simp only [Shared, Family.head?_eq_some_node_iff, and_assoc]

instance (f : Family) (k : Kind) : Decidable (k.Shared f) :=
  match h : f.head? k.name with
  | some (.node l) => decidable_of_iff (l.schema = k.schema) (by simp [shared_iff_head?, h])
  | some .closure => .isFalse (by simp [shared_iff_head?, h])
  | none => .isFalse (by simp [shared_iff_head?, h])

/-- The names of the kinds that both dialects have. -/
def sharedNames : List String :=
  ["Locals", "Begin", "Set", "Prim1", "Prim2", "If", "Alloc", "Mref", "Mset", "Funcall", "Symbol",
    "Int64", "Bool", "Nop"]

/-- The kind in a dialect, if it is a common one. -/
def inDialect (e : Dialect) : Kind → Kind
  | common _ k => common e k
  | k => k

variable {d e : Dialect} {k : Kind}

@[simp] theorem name_inDialect (e : Dialect) (k : Kind) : (k.inDialect e).name = k.name := by
  cases k <;> rfl

@[simp] theorem schema_inDialect (e : Dialect) (k : Kind) :
    (k.inDialect e).schema = k.schema := by
  cases k <;> rfl

@[simp] theorem write_inDialect (e : Dialect) (k : Kind) : (k.inDialect e).write = k.write := by
  cases k <;> rfl

theorem mem_sharedNames_iff {name : String} :
    name ∈ sharedNames ↔ ∃ c : CommonKind, c.name = name := by
  constructor
  · intro h
    simp only [sharedNames, List.mem_cons, List.not_mem_nil, or_false] at h
    rcases h with rfl | rfl | rfl | rfl | rfl | rfl | rfl | rfl | rfl | rfl | rfl | rfl | rfl | rfl
    exacts [⟨.locals, rfl⟩, ⟨.block, rfl⟩, ⟨.assign, rfl⟩, ⟨.prim1, rfl⟩, ⟨.prim2, rfl⟩,
      ⟨.ifElse, rfl⟩, ⟨.alloc, rfl⟩, ⟨.mref, rfl⟩, ⟨.mset, rfl⟩, ⟨.funcall, rfl⟩, ⟨.symbol, rfl⟩,
      ⟨.int64, rfl⟩, ⟨.bool, rfl⟩, ⟨.nop, rfl⟩]
  · rintro ⟨c, rfl⟩
    cases c <;> decide

theorem role_inDialect {α : Type} (e : Dialect) (k : Kind) (fs : List (Field α)) :
    Tree.Role.of (k.inDialect e) fs = .of k fs := by
  cases k with
  | common d c =>
    show Tree.Role.of (common e c) fs = .of (common d c) fs
    unfold Tree.Role.of
    split <;> split <;> simp_all
  | _ => rfl

/-- A kind is known by its name in its family. -/
theorem eq_of_name {l : Kind} (hfamily : k.family = l.family) (hname : k.name = l.name) :
    k = l := by
  have hk := Family.head?_name k
  rw [hfamily, hname, Family.head?_name] at hk
  exact (Head.node.inj (Option.some.inj hk)).symm

/-- **A kind that the other dialect takes for one of its own**, by its name and the names of its
fields, is a common one. -/
theorem exists_common_of_head? (hde : d ≠ e) (hk : k.family = d.family) {h : Head}
    (hh : e.family.head? k.name = some h)
    (hfields : (k.schema.map Prod.fst).Perm h.fieldNames) : ∃ c, k = .common d c := by
  rcases k with ⟨d', c⟩ | c | c | c
  · obtain rfl : d' = d := by
      cases d <;> cases d' <;> first | rfl | cases hk
    exact ⟨c, rfl⟩
  · cases d <;> cases e <;> first | exact absurd rfl hde | cases hk
    exact absurd hfields (c.not_perm h hh)
  · cases d <;> cases e <;> first | exact absurd rfl hde | cases hk
    exact absurd hfields (c.not_perm h hh)
  · cases d <;> cases hk

/-- What goes by the name of a kind is built from members with the names of its own fields. -/
theorem perm_of_call {f : Family} {h : Head} {names : List String} {ws : List Value} {v : Value}
    (hh : f.head? k.name = some h) (hlength : ws.length = names.length)
    (hcall : h.call ⟨[], names.zip ws⟩ = (.ok v : Except BuildFault Value)) :
    names.Perm h.fieldNames := by
  have hclosure : h ≠ .closure := by
    rintro rfl
    have hname := List.find?_some hh
    exact k.name_ne_closure (eq_of_beq hname).symm
  obtain ⟨vs, ds, -, hvs, hperm, hds⟩ := Head.perm_of_call hcall
  obtain rfl : ds = [] :=
    List.eq_nil_iff_forall_not_mem.mpr fun x hx => hclosure (hds x hx).1
  have hnames := hperm.map Prod.fst
  rwa [List.append_nil, List.map_fst_zip (Nat.le_of_eq hlength.symm),
    List.map_fst_zip (Nat.le_of_eq hvs.symm)] at hnames

/-- The kinds that the dialects share are the common ones. -/
theorem shared_iff (hde : d ≠ e) (hk : k.family = d.family) :
    k.Shared e.family ↔ ∃ c, k = .common d c := by
  constructor
  · intro h
    obtain ⟨l, hl, hschema⟩ := shared_iff_head?.mp h
    refine exists_common_of_head? hde hk hl ?_
    rw [Head.fieldNames, hschema]
  · rintro ⟨c, rfl⟩
    exact ⟨.common e c, rfl, rfl, rfl⟩

theorem shared_iff_mem (hde : d ≠ e) (hk : k.family = d.family) :
    k.Shared e.family ↔ k.name ∈ sharedNames := by
  rw [shared_iff hde hk, mem_sharedNames_iff]
  constructor
  · rintro ⟨c, rfl⟩
    exact ⟨c, rfl⟩
  · rintro ⟨c, hc⟩
    exact ⟨c, eq_of_name hk hc.symm⟩

end Kind

/-! ### Trees -/

namespace Tree

/-- Every node in the tree is of a kind that the family has as well. -/
def Shared (f : Family) (t : Tree) : Prop :=
  t.Everywhere fun u => ∃ k ∈ u.kind?, k.Shared f

instance (f : Family) : DecidablePred (Shared f) := fun t =>
  inferInstanceAs (Decidable (t.Everywhere _))

/-- The same tree in a dialect. -/
def inDialect (e : Dialect) : Tree → Tree := fold blank fun k fs => node (k.inDialect e) fs

variable {d e : Dialect} {f : Family} {k : Kind} {fs : List (Field Tree)} {t u : Tree}

theorem shared_node_iff :
    (node k fs).Shared f ↔ k.Shared f ∧ ∀ u ∈ fs.flatMap Field.children, u.Shared f := by
  rw [Shared, everywhere_iff]
  simp [kind?, members, Shared]

theorem inDialect_blank (e : Dialect) (g : Option Family) (n : Nat) :
    (blank g n).inDialect e = blank g n := by
  simp [inDialect]

theorem inDialect_node (e : Dialect) (k : Kind) (fs : List (Field Tree)) :
    (node k fs).inDialect e = node (k.inDialect e) (fs.map (Field.map (inDialect e))) := by
  rw [inDialect, fold_node, ← inDialect]

/-- What stands below a tree stands below it in any dialect. -/
theorem forall_mem_children_inDialect {P : Tree → Prop} :
    (∀ u ∈ (fs.map (Field.map (inDialect e))).flatMap Field.children, P u) ↔
      ∀ u ∈ fs.flatMap Field.children, P (u.inDialect e) := by
  rw [Field.flatMap_children_map, List.forall_mem_map]

/-- **The text of a tree** does not depend on its dialect. -/
theorem part_inDialect (e : Dialect) (a : Arrangement) (t : Tree) :
    (t.inDialect e).part a = t.part a := by
  induction t using induct with
  | blank g n => rw [inDialect_blank]
  | node k fs ih =>
    have hparts : (fs.map (Field.map (inDialect e))).map (Field.map (part a)) =
        fs.map (Field.map (part a)) := by
      rw [List.map_map]
      refine List.map_congr_left fun x hx => ?_
      rw [Function.comp_apply, Field.map_map]
      exact Field.map_congr fun u hu => ih x hx u hu
    rw [inDialect_node, part_node, part_node, hparts, Role.of_map, Kind.role_inDialect,
      Kind.write_inDialect]

end Tree

/-- A field is encoded as another one is if their children are. -/
theorem Value.encode_ofField_map {g : Tree → Tree} {x : Field Tree}
    (h : ∀ u ∈ x.children, (node (g u)).encode = (node u).encode) :
    (ofField (x.map g)).encode = (ofField x).encode := by
  cases x with
  | node u => exact h u (by simp [Field.children])
  | nodes us =>
    simp only [Field.map, ofField, encode_tuple, List.map_map]
    exact congrArg list (List.map_congr_left h)
  | bindings es =>
    rw [Field.map, ofField, ofField, List.map_map, encode_pairs node]
    refine (encode_pairs (fun u => node (g u)) es).trans ?_
    refine congrArg list (List.map_congr_left fun x hx => ?_)
    rw [h x.2 (List.mem_map_of_mem hx)]
  | _ => rfl

namespace Tree

variable {d e : Dialect} {f : Family} {k : Kind} {fs : List (Field Tree)} {t u : Tree}

/-- **The encoding of a tree** does not depend on its dialect. -/
theorem encode_inDialect (e : Dialect) (t : Tree) :
    (Value.node (t.inDialect e)).encode = (Value.node t).encode := by
  induction t using induct with
  | blank g n => rw [inDialect_blank]
  | node k fs ih =>
    have hfields : ((fs.map (Field.map (inDialect e))).map Value.ofField).map Value.encode =
        (fs.map Value.ofField).map Value.encode := by
      rw [List.map_map, List.map_map, List.map_map]
      exact List.map_congr_left fun x hx => Value.encode_ofField_map (ih x hx)
    rw [inDialect_node, Value.encode_node, Value.encode_node, hfields, Kind.name_inDialect,
      Kind.schema_inDialect]

/-! ### Shared trees -/

theorem Shared.whole (h : t.Shared f) : t.Whole := by
  induction h with
  | @intro t here below ih =>
    obtain ⟨k, hk, -⟩ := here
    exact .intro (by rw [hk]; rfl) ih

/-- A node of a shared kind belongs to the dialect that it is put in. -/
theorem Shared.family_inDialect (hde : d ≠ e) (hf : t.family? = some d.family)
    (h : t.Shared e.family) : (t.inDialect e).family? = some e.family := by
  cases t with
  | blank g n => exact absurd h.whole (not_whole_blank g n)
  | node k fs =>
    obtain ⟨c, rfl⟩ := (Kind.shared_iff hde (Option.some.inj hf)).mp (shared_node_iff.mp h).1
    rw [inDialect_node]
    rfl

/-- **A shared tree is a tree of the other dialect**, once it is put in that. -/
theorem Shared.wellFormed_inDialect (hde : d ≠ e) (hw : t.WellFormed)
    (hf : t.family? = some d.family) (h : t.Shared e.family) :
    (t.inDialect e).WellFormed ∧ (t.inDialect e).Whole := by
  induction t using induct with
  | blank g n => exact absurd h.whole (not_whole_blank g n)
  | node k fs ih =>
    obtain ⟨hfits, hbelow⟩ := wellFormed_node_iff.mp hw
    obtain ⟨hk, hshared⟩ := shared_node_iff.mp h
    obtain ⟨c, rfl⟩ := (Kind.shared_iff hde (Option.some.inj hf)).mp hk
    have hchildren : ∀ u ∈ fs.flatMap Field.children,
        (u.inDialect e).WellFormed ∧ (u.inDialect e).Whole := by
      intro u hu
      obtain ⟨x, hx, hux⟩ := List.mem_flatMap.mp hu
      exact ih x hx u hux (hbelow u hu) (hfits.family u hu) (hshared u hu)
    rw [inDialect_node]
    refine ⟨wellFormed_node_iff.mpr ⟨⟨?_, ?_, trivial⟩, ?_⟩, whole_node_iff.mpr ?_⟩
    · rw [Field.map_shape_map]
      exact hfits.shapes
    · refine forall_mem_children_inDialect.mpr fun u hu => ?_
      exact (hshared u hu).family_inDialect hde (hfits.family u hu)
    · exact forall_mem_children_inDialect.mpr fun u hu => (hchildren u hu).1
    · exact forall_mem_children_inDialect.mpr fun u hu => (hchildren u hu).2

/-- A shared tree is read as the same tree of the other dialect. -/
theorem Shared.decode_eq_inDialect (hde : d ≠ e) (hw : t.WellFormed)
    (hf : t.family? = some d.family) (h : t.Shared e.family) :
    decode (Value.node t).encode (.str e.family.name) =
      (.ok (t.inDialect e) : Except DecodeFault Tree) := by
  obtain ⟨hwe, hce⟩ := h.wellFormed_inDialect hde hw hf
  have htrip := Value.roundTrips_node hwe hce (h.family_inDialect hde hf)
  rw [← encode_inDialect e t]
  generalize t.inDialect e = u at hce htrip
  cases u with
  | blank g n => exact absurd hce (not_whole_blank g n)
  | node k fs => exact decode_eq_ok htrip

/-! ### What is read -/

/-- A child is decoded wherever it stands in a field. -/
theorem exists_of_decoded_ofField {x : Field Tree} {w : Value}
    (hw : Value.decoded f (Value.ofField x).encode = .ok w) (hu : u ∈ x.children) :
    ∃ v, Value.decoded f (Value.node u).encode = .ok v := by
  cases x with
  | node t =>
    obtain rfl := List.mem_singleton.mp hu
    exact ⟨w, hw⟩
  | nodes ts =>
    rw [Value.ofField, Value.encode_tuple, List.map_map] at hw
    exact Value.exists_of_decoded_list hw (List.mem_map_of_mem hu)
  | bindings es =>
    obtain ⟨b, hb, rfl⟩ := List.mem_map.mp hu
    rw [Value.ofField, Value.encode_pairs Value.node] at hw
    obtain ⟨pair, hpair⟩ := Value.exists_of_decoded_list hw (List.mem_map_of_mem hb)
    exact Value.exists_of_decoded_list hpair (by simp)
  | _ => cases hu

/-- **What is read in the other dialect is shared**, at every node. -/
theorem shared_of_decoded (hde : d ≠ e) (hw : t.WellFormed) (hc : t.Whole)
    (hf : t.family? = some d.family) {w : Value}
    (h : Value.decoded e.family (Value.node t).encode = .ok w) : t.Shared e.family := by
  refine hw.induct_whole (P := fun t => t.family? = some d.family →
    ∀ w, Value.decoded e.family (Value.node t).encode = .ok w → t.Shared e.family) hc ?_ hf w h
  intro k fs hw hc ih hf w h
  have hlength : ((fs.map Value.ofField).map Value.encode).length =
      (k.schema.map Prod.fst).length := by
    simpa using hw.fits.length_eq
  have hkeys : "kind" ∉ k.schema.map Prod.fst :=
    (List.nodup_cons.mp (Head.node k).nodup_kind_fieldNames).1
  rw [Value.encode_node] at h
  obtain ⟨head, ws, hhead, hws, hcall⟩ := Value.exists_of_decoded_described hkeys hlength h
  refine shared_node_iff.mpr ⟨?_, fun u hu => ?_⟩
  · rw [Kind.shared_iff hde (Option.some.inj hf)]
    refine Kind.exists_common_of_head? hde (Option.some.inj hf) hhead ?_
    exact Kind.perm_of_call hhead ((Walk.length_of_mapM hws).trans hlength) hcall
  · obtain ⟨x, hx, hux⟩ := List.mem_flatMap.mp hu
    have hmem : (Value.ofField x).encode ∈ (fs.map Value.ofField).map Value.encode :=
      List.mem_map_of_mem (List.mem_map_of_mem hx)
    obtain ⟨v, hv⟩ := exists_of_mapM_eq_ok hws hmem
    obtain ⟨v', hv'⟩ := exists_of_decoded_ofField hv hux
    exact ih u hu ((hw.fits.family u hu).trans hf) v' hv'

/-- A tree that is decoded from an encoding is what the walk makes of it. -/
theorem decoded_of_decode (hw : t.WellFormed) (hc : t.Whole)
    (h : decode (Value.node t).encode (.str f.name) = (.ok u : Except DecodeFault Tree)) :
    Value.decoded f (Value.node t).encode = .ok (.node u) := by
  obtain ⟨j, -, hj⟩ := Value.stored_node hw hc
  rw [hj, decode_ofJson] at h
  obtain ⟨members, kind, rfl, -, hv⟩ := Json.eq_of_describedTree h
  rw [hj, Value.decoded_ofJson, hv]

/-- **What a tree is in the other dialect.** The kinds of the two dialects with the same name and
the same fields are those with the names in the list. The encoding of a tree is decoded in the other
dialect exactly if every node in the tree is of such a kind. The tree that is decoded then belongs
to the other dialect, so it is not the tree that was encoded, but it has the same encoding and the
same texts. Any other tree is refused for an announced fault. -/
theorem decode_encode_dialect {d e : Dialect} (hde : d ≠ e) :
    (∀ k : Kind, k.family = d.family → (k.Shared e.family ↔ k.name ∈ Kind.sharedNames)) ∧
    ∀ t : Tree, t.WellFormed → t.Whole → t.family? = some d.family →
      ((∃ u, decode (Value.node t).encode (.str e.family.name) =
          (.ok u : Except DecodeFault Tree)) ↔ t.Shared e.family) ∧
      (∀ u, decode (Value.node t).encode (.str e.family.name) =
          (.ok u : Except DecodeFault Tree) →
        u.family? = some e.family ∧ (Value.node u).encode = (Value.node t).encode ∧
          (∀ a, ∃ s, u.render a = .ok s ∧ t.render a = .ok s) ∧ u ≠ t) ∧
      ∀ fault : DecodeFault, decode (Value.node t).encode (.str e.family.name) =
          (.error fault : Except DecodeFault Tree) → fault.Announced := by
  refine ⟨fun k hk => Kind.shared_iff_mem hde hk, fun t hw hc hf => ?_⟩
  have hshared : ∀ u, decode (Value.node t).encode (.str e.family.name) =
      (.ok u : Except DecodeFault Tree) → t.Shared e.family := fun u hu =>
    shared_of_decoded hde hw hc hf (decoded_of_decode hw hc hu)
  refine ⟨⟨fun ⟨u, hu⟩ => hshared u hu, fun h => ⟨_, h.decode_eq_inDialect hde hw hf⟩⟩,
    fun u hu => ?_, fun fault hfault => ?_⟩
  · have h := hshared u hu
    obtain rfl : t.inDialect e = u :=
      Except.ok.inj ((h.decode_eq_inDialect hde hw hf).symm.trans hu)
    obtain ⟨hwe, hce⟩ := h.wellFormed_inDialect hde hw hf
    have hfe := h.family_inDialect hde hf
    refine ⟨hfe, encode_inDialect e t, fun a => ⟨t.text a, ?_, render_eq_text hw hc⟩, ?_⟩
    · rw [render_eq_text hwe hce, text, part_inDialect, ← text]
    · intro heq
      rw [heq, hf] at hfe
      cases d <;> cases e <;> first | exact hde rfl | cases hfe
  · obtain ⟨j, -, hj⟩ := Value.stored_node hw hc
    rw [hj, decode_ofJson] at hfault
    exact Json.announced_of_describedTree hfault

/-- An assignment of a truth value. -/
def assignTrue : Tree :=
  .node (.common .scheme .assign)
    [.node (.node (.common .scheme .symbol) [.name "x"]),
      .node (.node (.common .scheme .bool) [.flag true])]

/-- A lambda with a label, in a block. -/
def blockLambda : Tree :=
  .node (.common .regalloc .block)
    [.nodes [.node (.regalloc .lambda)
      [.name "f", .names ["x"], .node (.node (.common .regalloc .symbol) [.name "x"])]]]

/-- The assignment is one in the other dialect as well. The block is not, although blocks and
lambdas go by the same names there. -/
theorem decode_assignTrue_blockLambda :
    (∃ u, decode (Value.node assignTrue).encode (.str "regalloc") =
        (.ok u : Except DecodeFault Tree) ∧
      u.family? = some .regalloc ∧ (Value.node u).encode = (Value.node assignTrue).encode ∧
        u ≠ assignTrue) ∧
    ∃ fault : DecodeFault, decode (Value.node blockLambda).encode (.str "scheme") =
        (.error fault : Except DecodeFault Tree) ∧ fault.Announced := by
  constructor
  · obtain ⟨hiff, hok, -⟩ := (decode_encode_dialect (d := .scheme) (e := .regalloc) (by decide)).2
      assignTrue (by decide) (by decide) rfl
    obtain ⟨u, hu⟩ := hiff.mpr (by decide)
    obtain ⟨hfamily, hencode, -, hne⟩ := hok u hu
    exact ⟨u, hu, hfamily, hencode, hne⟩
  · obtain ⟨hiff, -, herror⟩ :=
      (decode_encode_dialect (d := .regalloc) (e := .scheme) (by decide)).2
        blockLambda (by decide) (by decide) rfl
    cases hdecode : (decode (Value.node blockLambda).encode (.str Dialect.scheme.family.name) :
      Except DecodeFault Tree) with
    | ok u => exact absurd (hiff.mp ⟨u, hdecode⟩) (by decide)
    | error fault => exact ⟨fault, hdecode, herror fault hdecode⟩

end Tree

end LoweringIR
