import LoweringIR.Proofs.Interchange.Arguments
import LoweringIR.Proofs.Rendering.Text

/-!
# Operands by name

Walks over a tree go from a node to its operands, and which these are is up to the kind: every kind
names the fields that it has operands in. `Tree.children` asks no kind. It takes the trees in all
fields as they come, and this is what the encoding does as well.

So the kinds are asked here. A kind that left out one of its fields, or named two of them the wrong
way round, would keep a part of the tree out of every walk, and nobody who looks at encodings would
see it. None does. Only a quotation answers for itself, and says that a truth value is no operand of
it.

## Main definitions

* `Kind.operandNames` — the fields that a kind has operands in
* `Tree.operands` — the operands of a node, looked up by name

## Main results

* `Kind.operandNames_eq` — every field that can hold trees is named, in its turn
* `Tree.WellFormed.children_eq_operands` — the children of a node are its operands
-/

namespace LoweringIR

/-! ### What kinds say -/

/-- The fields with operands, in the order of the operands. -/
def CommonKind.operandNames : CommonKind → List String
  | .locals => ["tail"]
  | .block => ["exprs"]
  | .assign => ["target", "value"]
  | .prim1 => ["operand"]
  | .prim2 => ["left", "right"]
  | .ifElse => ["cond", "conseq", "alt"]
  | .alloc => ["size"]
  | .mref => ["base", "offset"]
  | .mset => ["base", "offset", "value"]
  | .funcall => ["func", "args"]
  | .symbol => []
  | .int64 => []
  | .bool => []
  | .nop => []

/-- The fields with operands, in the order of the operands. -/
def SchemeKind.operandNames : SchemeKind → List String
  | .letrec => ["bindings", "body"]
  | .assigned => ["tail"]
  | .lambda => ["body"]
  | .free => ["tail"]
  | .bindFree => ["tail"]
  | .closures => ["tail"]
  | .letIn => ["bindings", "tail"]
  | .prim3 => ["first", "second", "third"]
  | .quote => ["datum"]
  | .literalList => ["items"]
  | .literalVector => ["items"]
  | .emptyList => []
  | .void => []

/-- The fields with operands, in the order of the operands. -/
def RegallocKind.operandNames : RegallocKind → List String
  | .letrec => ["lambdas", "body"]
  | .ulocals => ["tail"]
  | .spills => ["tail"]
  | .locate => ["tail"]
  | .lambda => ["body"]
  | .registerConflict => ["tail"]
  | .frameConflict => ["tail"]
  | .newFrames => ["tail"]
  | .callLive => ["tail"]
  | .returnPoint => ["expr"]
  | .ifThen => ["cond", "conseq"]

/-- The fields with operands, in the order of the operands. -/
def AsmKind.operandNames : AsmKind → List String
  | .reg => []
  | .imm => []
  | .label => []
  | .deref => ["reg"]
  | .derefLabel => ["reg", "label"]
  | .derefRegister => ["base", "index"]
  | .op2 => ["src", "dst"]
  | .retq => []
  | .cfg => ["instrs"]
  | .jmp => ["target"]
  | .jmpIf => ["target"]
  | .prog => ["blocks"]
  | .push => ["operand"]
  | .pop => ["operand"]
  | .code => ["instrs"]

/-- The fields with operands, in the order of the operands. -/
def Kind.operandNames : Kind → List String
  | common _ k => k.operandNames
  | scheme k => k.operandNames
  | regalloc k => k.operandNames
  | asm k => k.operandNames

/-- A field of this shape can hold trees. -/
def Shape.holdsTrees : Shape → Bool
  | .node | .nodes | .bindings => true
  | _ => false

/-- **Every field that can hold trees is named**, in the order of the fields, and no other is. -/
theorem Kind.operandNames_eq (k : Kind) :
    k.operandNames = (k.schema.filter fun e => e.2.holdsTrees).map Prod.fst := by
  rcases k with ⟨d, k⟩ | k | k | k
  all_goals cases k <;> rfl

/-! ### Looking fields up -/

namespace Field

variable {α : Type}

/-- The trees in the field of that name. -/
def childrenAt : List String → List (Field α) → String → List α
  | n :: ns, x :: fs, key => if n = key then x.children else childrenAt ns fs key
  | _, _, _ => []

theorem children_eq_nil {x : Field α} (h : ¬ x.shape.holdsTrees = true) : x.children = [] := by
  cases x <;> first | rfl | exact absurd rfl h

/-- Fields that are looked up by name, in the order of the schema, give their trees in order. -/
theorem flatMap_childrenAt {schema : Schema} {fs : List (Field α)}
    (hnodup : (schema.map Prod.fst).Nodup) (hshapes : fs.map shape = schema.map Prod.snd) :
    ((schema.filter fun e => e.2.holdsTrees).map Prod.fst).flatMap
        (childrenAt (schema.map Prod.fst) fs) =
      fs.flatMap children := by
  induction schema generalizing fs with
  | nil =>
    obtain rfl := List.map_eq_nil_iff.mp hshapes
    rfl
  | cons e schema ih =>
    obtain ⟨n, s⟩ := e
    obtain ⟨x, rest, rfl, rfl, hrest⟩ := List.map_eq_cons_iff.mp hshapes
    obtain ⟨hfresh, hnodup⟩ := List.nodup_cons.mp hnodup
    -- The name of the first field is not looked up again.
    have hbelow : ∀ m ∈ (schema.filter fun e => e.2.holdsTrees).map Prod.fst,
        childrenAt (n :: schema.map Prod.fst) (x :: rest) m =
          childrenAt (schema.map Prod.fst) rest m := by
      intro m hm
      obtain ⟨e, he, rfl⟩ := List.mem_map.mp hm
      have hmem : e.1 ∈ schema.map Prod.fst :=
        List.mem_map_of_mem (List.mem_of_mem_filter he)
      have hne : n ≠ e.1 := fun heq => hfresh (heq ▸ hmem)
      rw [childrenAt, if_neg hne]
    rw [List.map_cons, List.flatMap_cons, ← ih hnodup hrest, ← List.flatMap_congr hbelow]
    by_cases htrees : x.shape.holdsTrees = true
    · rw [List.filter_cons, if_pos htrees, List.map_cons, List.flatMap_cons, childrenAt,
        if_pos rfl]
    · rw [List.filter_cons, if_neg htrees, children_eq_nil htrees, List.nil_append]

end Field

/-! ### Operands -/

namespace Tree

/-- The operands of a node, in the fields that its kind names. A truth value is no operand of a
quotation. -/
def operands : Tree → List Tree
  | blank _ _ => []
  | node k fs =>
    let named := k.operandNames.flatMap (Field.childrenAt (k.schema.map Prod.fst) fs)
    if k = .scheme .quote then named.filter fun u => u.kind? ≠ some (.common .scheme .bool)
    else named

variable {k : Kind} {fs : List (Field Tree)} {t u : Tree}

theorem flatMap_operandNames (h : k.Fits fs) :
    k.operandNames.flatMap (Field.childrenAt (k.schema.map Prod.fst) fs) =
      fs.flatMap Field.children := by
  rw [k.operandNames_eq]
  exact Field.flatMap_childrenAt (Head.node k).nodup_fieldNames h.shapes

/-- A truth value is all that such a node has. -/
theorem WellFormed.exists_flag {d : Dialect} (hw : (node (.common d .bool) fs).WellFormed) :
    ∃ b, fs = [.flag b] := by
  obtain ⟨x, rfl, hx⟩ := List.map_eq_singleton_iff.mp hw.fits.shapes
  cases x with
  | flag b => exact ⟨b, rfl⟩
  | _ => cases hx

/-- What plays the role of a truth value is one by its kind. -/
theorem isTruth_iff (hw : t.WellFormed) :
    t.role.isTruth = true ↔ ∃ d, t.kind? = some (.common d .bool) := by
  cases t with
  | blank f n => simp [role, Role.isTruth, kind?]
  | node k fs =>
    constructor
    · intro h
      unfold role at h
      split at h
      · cases h
      · next d b heq =>
        cases heq
        exact ⟨d, rfl⟩
      · cases h
    · rintro ⟨d, hd⟩
      obtain rfl := Option.some.inj hd
      obtain ⟨b, rfl⟩ := hw.exists_flag
      rfl

/-- In the high-level form there is one kind of truth values. -/
theorem isTruth_iff_scheme (hw : t.WellFormed) (hf : t.family? = some .scheme) :
    t.role.isTruth = true ↔ t.kind? = some (.common .scheme .bool) := by
  rw [isTruth_iff hw]
  constructor
  · rintro ⟨d, hd⟩
    obtain ⟨fs, rfl⟩ := kind?_eq_some_iff.mp hd
    cases d with
    | scheme => rfl
    | regalloc => cases hf
  · exact fun h => ⟨.scheme, h⟩

/-- **The children of a node are its operands.** -/
theorem WellFormed.children_eq_operands (hw : t.WellFormed) : t.children = t.operands := by
  cases t with
  | blank f n => rfl
  | node k fs =>
    obtain ⟨hfits, hbelow⟩ := wellFormed_node_iff.mp hw
    rw [operands, flatMap_operandNames hfits]
    by_cases hk : k = .scheme .quote
    · subst hk
      rw [if_pos rfl, children]
      refine List.filter_congr fun u hu => ?_
      rw [Bool.eq_iff_iff, decide_eq_true_iff, ne_eq,
        ← isTruth_iff_scheme (hbelow u hu) (hfits.family u hu), Bool.not_eq_true', Bool.not_eq_true]
    · rw [if_neg hk, children_node hk]

end Tree

end LoweringIR
