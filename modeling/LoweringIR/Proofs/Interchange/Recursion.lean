import LoweringIR.Proofs.Interchange.Accept
import LoweringIR.Proofs.Interchange.Decode
import LoweringIR.Proofs.Interchange.Part
import LoweringIR.Proofs.Walk.Frame

/-!
# Decoding by recursion

Decoding a document is a recursion from the outside in. Where a description is met, its kind and the
names of its members are looked at first; then its members are decoded in the order of the document,
and only then is what it describes built from them, each value under the name of its own member. An
object without a kind becomes a mapping and an array a tuple. The first fault in this order is the
fault of the whole, and that the outermost description describes a tree is looked at last.

The machine that decodes keeps two stacks, and does the same. What it puts together, whenever it
does, are the decoded parts of one value that occurs in the document, all of them and in their
order.

## Main definitions

* `Json.headOf` — what a description describes, by its kind and the names of its members
* `Json.decode`, `Json.describedTree` — the recursion

## Main results

* `Value.decoded_ofJson` — the walk from a document value is the recursion on it
* `Tree.decode_eq_recursion` — so is decoding, and no part is taken for that of another value
-/

namespace LoweringIR

/-! ### The recursion -/

namespace Json

/-- What a description with this kind and these members describes. The kind has to be known, and the
members have to be fields of it. -/
def headOf (f : Family) (kind : Json) (members : List (String × Json)) : Except DecodeFault Head :=
  match kind with
  | .str name =>
    match f.head? name with
    | none => .error (.unknownKind (.str name))
    | some h =>
      let extra := (members.map Prod.fst).filter fun n => n ≠ "kind" ∧ n ∉ h.fieldNames
      if extra = [] then .ok h
      else .error (.unexpectedFields h.name ((Arrangement.sorted.names extra).map .str))
  | _ => .error (.unknownKind (.ofJson kind))

mutual

/-- The value that a document value is decoded to in documents of a family. -/
def decode (f : Family) : Json → Except DecodeFault Value
  | .arr items => do
    let vs ← decodeItems f items
    pure (.tuple vs)
  | .obj members =>
    match get? "kind" members with
    | none => do
      let args ← decodeMembers f members
      pure (.dict (args.map fun a => (.str a.1, a.2)))
    | some kind => do
      let h ← headOf f kind members
      let args ← decodeMembers f members
      Except.mapError (.ofBuild h.name) (h.call ⟨[], args⟩)
  | j => .ok (.ofJson j)

/-- The values of items, from the first to the last. -/
def decodeItems (f : Family) : List Json → Except DecodeFault (List Value)
  | [] => .ok []
  | j :: js => do
    let v ← decode f j
    let vs ← decodeItems f js
    pure (v :: vs)

/-- The values of members besides the kind, from the first to the last, each under its name. -/
def decodeMembers (f : Family) : List (String × Json) → Except DecodeFault (List (String × Value))
  | [] => .ok []
  | m :: ms =>
    if m.1 = "kind" then decodeMembers f ms
    else do
      let v ← decode f m.2
      let args ← decodeMembers f ms
      pure ((m.1, v) :: args)

end

/-- The tree that a document value describes. -/
def describedTree (f : Family) (d : Json) : Except DecodeFault Tree :=
  match d with
  | .obj members =>
    if (get? "kind" members).isSome then do
      match ← decode f d with
      | .node t => pure t
      | _ => throw (.notTree Head.closure.name)
    else throw .missingKind
  | _ => throw .missingKind

variable {f : Family} {members : List (String × Json)}

theorem decodeItems_eq (js : List Json) : decodeItems f js = js.mapM (decode f) := by
  induction js with
  | nil => rfl
  | cons j js ih => rw [decodeItems, ih, List.mapM_cons]

theorem decodeMembers_eq (members : List (String × Json)) :
    decodeMembers f members =
      (fun vs => ((fieldMembers members).map Prod.fst).zip vs) <$>
        (obj members).parts.mapM (decode f) := by
  rw [parts, List.mapM_map, Function.comp_def, ← mapM_beside Prod.fst fun m => decode f m.2]
  induction members with
  | nil => rfl
  | cons m ms ih =>
    rw [decodeMembers, ih, fieldMembers_cons]
    split
    · rfl
    · rw [List.mapM_cons]
      cases decode f m.2 <;> rfl

theorem decode_arr (items : List Json) :
    decode f (.arr items) = Value.tuple <$> items.mapM (decode f) := by
  rw [decode, decodeItems_eq]
  cases items.mapM (decode f) <;> rfl

theorem decode_kindless (h : get? "kind" members = none) :
    decode f (.obj members) =
      (fun vs => .dict (((fieldMembers members).map fun m => .str m.1).zip vs)) <$>
        (obj members).parts.mapM (decode f) := by
  rw [decode, h]
  dsimp only
  rw [decodeMembers_eq]
  cases (obj members).parts.mapM (decode f) with
  | error e => rfl
  | ok vs =>
    have hkeys : ((fieldMembers members).map fun m => Value.str m.1) =
        ((fieldMembers members).map Prod.fst).map .str := by simp
    rw [hkeys]
    exact congrArg (fun es => Except.ok (Value.dict es)) (List.zip_map_left ..).symm

theorem decode_description {kind : Json} (h : get? "kind" members = some kind) :
    decode f (.obj members) = (do
      let h ← headOf f kind members
      let vs ← (obj members).parts.mapM (decode f)
      (Value.DecodeFrame.description h ((fieldMembers members).map Prod.fst)).assemble vs) := by
  rw [decode, h]
  dsimp only
  rw [decodeMembers_eq]
  cases headOf f kind members with
  | error e => rfl
  | ok head => cases (obj members).parts.mapM (decode f) <;> rfl

end Json

/-! ### The walk is the recursion -/

namespace Value

variable {f : Family} {d j : Json} {members : List (String × Json)}

theorem text?_ofJson (j : Json) : (ofJson j).text? = match j with
    | .str s => some s
    | _ => none := by
  cases j <;> simp [ofJson, text?]

/-- The keys of entries that are no fields are the names of members that are none. -/
theorem filter_keys_ofJson (names : List String) (members : List (String × Json)) :
    (((Json.fieldMembers members).map fun m => (str m.1, ofJson m.2)).map Prod.fst).filter
        (fun k => !names.any fun n => k.isText n) =
      ((members.map Prod.fst).filter fun n => n ≠ "kind" ∧ n ∉ names).map str := by
  rw [Json.fieldMembers, List.map_map, List.filter_map, List.filter_map, List.map_map,
    List.filter_filter]
  refine congrArg _ (List.filter_congr fun m _ => ?_)
  simp [isText, List.any_beq, Bool.and_comm]

/-- A description is known by its entries as it is by its members. -/
theorem describedHead_ofJson (kind : Json) (members : List (String × Json)) :
    describedHead f (ofJson kind)
        ((Json.fieldMembers members).map fun m => (str m.1, ofJson m.2)) =
      Json.headOf f kind members := by
  rw [describedHead, text?_ofJson]
  cases kind with
  | str name =>
    rw [Json.headOf, ofJson_str]
    dsimp only [Option.bind_some]
    cases f.head? name with
    | none => rfl
    | some h =>
      dsimp only
      rw [filter_keys_ofJson, List.isEmpty_map]
      split
      · next hempty => rw [if_pos (List.isEmpty_iff.mp hempty)]
      · next hempty =>
        rw [if_neg (fun h => hempty (List.isEmpty_iff.mpr h)), unexpectedFields, sortKeys_map_str]
  | _ => rfl

/-- An object is entered as a mapping or as a description, by whether it has a kind. -/
theorem decodeStep_obj (members : List (String × Json)) :
    decodeStep f (ofJson (.obj members)) =
      match Json.get? "kind" members with
      | none => .ok (.branch (.mapping ((Json.fieldMembers members).map fun m => str m.1))
          ((Json.obj members).parts.map ofJson))
      | some kind =>
        match Json.headOf f kind members with
        | .error e => .error e
        | .ok h => .ok (.branch (.description h ((Json.fieldMembers members).map Prod.fst))
            ((Json.obj members).parts.map ofJson)) := by
  rw [ofJson_obj, decodeStep, fieldEntries_map_ofJson, kindKey, find?_map_ofJson]
  cases Json.get? "kind" members with
  | none => simp [Json.parts]
  | some kind =>
    dsimp only [Option.map_some]
    rw [describedHead_ofJson]
    cases Json.headOf f kind members with
    | error e => rfl
    | ok h => simp [Json.parts, text?, List.filterMap_map, Function.comp_def]

/-- **The walk from a document value is the recursion on it**, faults included. -/
theorem decoded_ofJson (f : Family) (j : Json) : decoded f (ofJson j) = j.decode f := by
  induction j using Json.induct with
  | step j ih =>
    have hparts : (j.parts.map ofJson).mapM (decoded f) = j.parts.mapM (Json.decode f) := by
      rw [List.mapM_map]
      exact mapM_congr ih
    rw [decoded_eq]
    cases j with
    | arr items =>
      rw [ofJson_arr, decodeStep, Json.decode_arr]
      rw [Json.parts] at hparts
      dsimp only
      rw [hparts]
      cases items.mapM (Json.decode f) <;> rfl
    | obj members =>
      rw [decodeStep_obj]
      cases hkind : Json.get? "kind" members with
      | none =>
        dsimp only
        rw [hparts, Json.decode_kindless hkind]
        cases (Json.obj members).parts.mapM (Json.decode f) <;> rfl
      | some kind =>
        rw [Json.decode_description hkind]
        dsimp only
        cases Json.headOf f kind members with
        | error e => rfl
        | ok h =>
          dsimp only
          rw [hparts, ok_bind]
          cases (Json.obj members).parts.mapM (Json.decode f) <;> rfl
    | _ => rfl

/-- What is entered is replaced by its parts. -/
theorem eq_parts_of_decodeStep {g : DecodeFrame} {ms : List Value}
    (h : decodeStep f (ofJson j) = .ok (.branch g ms)) : ms = j.parts.map ofJson := by
  cases j with
  | arr items =>
    rw [ofJson_arr, decodeStep] at h
    cases h
    rfl
  | obj members =>
    rw [decodeStep_obj] at h
    split at h
    · cases h
      rfl
    · split at h
      · cases h
      · cases h
        rfl
  | _ => cases h

/-- What is entered on the way occurs in the document. -/
theorem exists_within_of_within {v : Value}
    (h : Walk.Within (decodeWalk f : Walk (Except DecodeFault) ..) (ofJson d) v) :
    ∃ j, Json.Within d j ∧ v = ofJson j := by
  induction h with
  | root => exact ⟨d, .root, rfl⟩
  | member _ enter hk ih =>
    obtain ⟨j, hj, rfl⟩ := ih
    rw [eq_parts_of_decodeStep enter] at hk
    obtain ⟨part, hpart, rfl⟩ := List.mem_map.mp hk
    exact ⟨part, .part hj hpart, rfl⟩

end Value

/-! ### Trees -/

namespace Json

variable {f : Family} {kind : Json} {members : List (String × Json)} {h : Head} {v : Value}

/-- A description is of what its kind names, and its members are fields of that. -/
theorem eq_of_headOf (hh : headOf f kind members = .ok h) :
    kind = .str h.name ∧ f.head? h.name = some h ∧
      ∀ m ∈ fieldMembers members, m.1 ∈ h.fieldNames := by
  unfold headOf at hh
  split at hh
  · next name =>
    split at hh
    · cases hh
    · next g hg =>
      have hname : g.name = name := by
        simpa using List.find?_some hg
      dsimp only at hh
      split at hh
      · next hextra =>
        obtain rfl := Except.ok.inj hh
        refine ⟨by rw [hname], by rw [hname, hg], fun m hm => ?_⟩
        obtain ⟨hm, hkind⟩ := mem_fieldMembers.mp hm
        have := List.filter_eq_nil_iff.mp hextra m.1 (List.mem_map_of_mem hm)
        simpa [hkind] using this
      · cases hh
  · cases hh

/-- What a description describes is a matter of its kind and of the names of its members. -/
theorem headOf_eq_ok_iff :
    headOf f kind members = .ok h ↔
      kind = .str h.name ∧ f.head? h.name = some h ∧
        ∀ n ∈ members.map Prod.fst, n ≠ "kind" → n ∈ h.fieldNames := by
  constructor
  · intro hh
    obtain ⟨hkind, hname, hfields⟩ := eq_of_headOf hh
    refine ⟨hkind, hname, List.forall_mem_map.mpr fun m hm hne => ?_⟩
    exact hfields m (mem_fieldMembers.mpr ⟨hm, hne⟩)
  · rintro ⟨rfl, hname, hfields⟩
    have hextra : ((members.map Prod.fst).filter fun n => n ≠ "kind" ∧ n ∉ h.fieldNames) = [] := by
      rw [List.filter_eq_nil_iff]
      intro n hn hextra
      obtain ⟨hkind, hfield⟩ := by simpa using hextra
      exact hfield (hfields n hn hkind)
    rw [headOf, hname]
    simp only [hextra, if_pos]

/-- What describes a tree is a description that is decoded to it. -/
theorem eq_of_describedTree {d : Json} {t : Tree} (h : describedTree f d = .ok t) :
    ∃ members kind, d = .obj members ∧ get? "kind" members = some kind ∧
      decode f d = .ok (.node t) := by
  unfold describedTree at h
  split at h
  · next members =>
    split at h
    · next hkind =>
      obtain ⟨kind, hkind⟩ := Option.isSome_iff_exists.mp hkind
      obtain ⟨v, hv, h⟩ := bind_eq_ok_iff.mp h
      split at h
      · obtain rfl := Except.ok.inj h
        exact ⟨members, kind, rfl, hkind, hv⟩
      · cases h
    · cases h
  · cases h

/-- What a description is decoded to is built from its decoded members, by name. -/
theorem call_of_decode (hkind : get? "kind" members = some kind)
    (hv : decode f (.obj members) = .ok v) :
    ∃ h vs, headOf f kind members = .ok h ∧ (obj members).parts.mapM (decode f) = .ok vs ∧
      h.call ⟨[], ((fieldMembers members).map Prod.fst).zip vs⟩ =
        (.ok v : Except BuildFault Value) := by
  rw [decode_description hkind, bind_eq_ok_iff] at hv
  obtain ⟨h, hh, hv⟩ := hv
  obtain ⟨vs, hvs, hv⟩ := bind_eq_ok_iff.mp hv
  rw [Value.assemble_description, mapError_eq_ok_iff] at hv
  exact ⟨h, vs, hh, hvs, hv⟩

/-- A description is decoded to a node, unless it is one of a record. -/
theorem node_or_closure_of_decode (hkind : get? "kind" members = some kind)
    (hv : decode f (.obj members) = .ok v) :
    (∃ t, v = .node t) ∨ (∃ c, v = .record c) ∧ kind = .str Head.closure.name := by
  obtain ⟨h, vs, hh, -, hcall⟩ := call_of_decode hkind hv
  obtain ⟨ws, ds, hbuild, -⟩ := Head.perm_of_call hcall
  obtain ⟨k, t, -, -, rfl⟩ | ⟨name, label, free, c, rfl, -, -, rfl⟩ := Head.eq_of_build hbuild
  · exact .inl ⟨t, rfl⟩
  · exact .inr ⟨⟨c, rfl⟩, (eq_of_headOf hh).1⟩

end Json

namespace Tree

/-- The tree that a document value describes is found by the recursion. -/
theorem ofDescription_ofJson (f : Family) (d : Json) :
    (ofDescription f (.ofJson d) : Except DecodeFault Tree) = d.describedTree f := by
  cases d with
  | obj members =>
    have hresult : (Value.decodeWalk f).result (Value.ofJson (.obj members)) =
        Json.decode f (.obj members) := by
      rw [Walk.result_eq_value]
      exact Value.decoded_ofJson f _
    rw [Value.ofJson_obj] at hresult ⊢
    rw [ofDescription, Value.kindKey, Value.find?_map_ofJson, Json.describedTree]
    cases hkind : Json.get? "kind" members with
    | none => rfl
    | some kind =>
      dsimp only [Option.map_some]
      rw [hresult, if_pos Option.isSome_some]
      cases hv : Json.decode f (.obj members) with
      | error e => rfl
      | ok v =>
        obtain ⟨t, rfl⟩ | ⟨⟨c, rfl⟩, rfl⟩ := Json.node_or_closure_of_decode hkind hv
        · rfl
        · simp [Value.text?, ok_bind]
  | _ => rfl

/-- Decoding a document value is the recursion on it. -/
theorem decode_ofJson (f : Family) (d : Json) :
    (decode (.ofJson d) (.str f.name) : Except DecodeFault Tree) = d.describedTree f := by
  rw [decode, Family.ofValue_name, ofExcept_ok, ok_bind, ofDescription_ofJson]

/-- An assignment whose members do not stand in the order of its fields. -/
def assignReversed : Json :=
  .obj [("value", .obj [("kind", .str "Nop")]), ("kind", .str "Set"),
    ("target", .obj [("name", .str "x"), ("kind", .str "Symbol")])]

end Tree

end LoweringIR
