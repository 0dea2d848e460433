import LoweringIR.Proofs.Interchange.Arguments
import LoweringIR.Tree.Decode
import LoweringIR.Tree.Encode

/-!
# What decoding makes of a value

As encoding, decoding is a walk with a stack of its own, and is known by what it makes of each form
of value that encoding produces: scalars, lists, and descriptions that have all fields in order. A
description is what has to be looked at closely. Its kind is told apart from its fields by a key, so
it matters that no field is called by that key; then its entries are matched to the fields by name,
and building takes over.

## Main results

* `Value.decoded_list` — the items are decoded in order
* `Value.decoded_described` — the members are decoded in order, and what is described is built
-/

namespace LoweringIR

/-- A family is known by its name. -/
@[simp] theorem Family.ofValue_name (f : Family) : ofValue (.str f.name) = .ok f := by
  rw [ofValue, Value.text?, Option.bind_some, Family.ofName?_name]
  all_goals simp

namespace Value

/-- What a value is decoded to in documents of a family. -/
def decoded (f : Family) (v : Value) : Except DecodeFault Value := (decodeWalk f).value v

variable {f : Family} {v : Value} {h : Head} {names : List String} {vs ws : List Value}

theorem decoded_eq (v : Value) :
    decoded f v = match decodeStep f v with
      | .error e => .error e
      | .ok (.leaf w) => .ok w
      | .ok (.branch g ms) =>
        match ms.mapM (decoded f) with
        | .error e => .error e
        | .ok vs => g.assemble vs := by
  rw [decoded, Walk.value_eq, show (decodeWalk f).enter v = decodeStep f v from rfl]
  cases decodeStep f v with
  | error e => rfl
  | ok x =>
    cases x with
    | leaf w => rfl
    | branch g ms =>
      dsimp only
      rw [show ms.mapM (decodeWalk f).value = ms.mapM (decoded f) from rfl]
      cases ms.mapM (decoded f) <;> rfl

theorem decoded_of_leaf (hv : decodeStep f v = .ok (.leaf v)) : decoded f v = .ok v := by
  rw [decoded_eq, hv]

theorem decoded_of_branch {g : DecodeFrame} {ms : List Value}
    (hv : decodeStep f v = .ok (.branch g ms)) (hms : ms.mapM (decoded f) = .ok ws) :
    decoded f v = g.assemble ws := by
  rw [decoded_eq, hv]
  dsimp only
  rw [hms]

theorem decoded_list (hvs : vs.mapM (decoded f) = .ok ws) :
    decoded f (list vs) = .ok (tuple ws) := by
  rw [decoded_of_branch (g := .items) rfl hvs]
  rfl

/-! ### Descriptions -/

/-- The entries of fields with these names. -/
theorem zipWith_str_eq :
    names.zipWith (fun n v => (str n, v)) vs = (names.zip vs).map fun e => (str e.1, e.2) := by
  rw [List.map_zip_eq_zipWith]
  rfl

theorem map_fst_entries (hlength : vs.length = names.length) :
    (names.zipWith (fun n v => (str n, v)) vs).map Prod.fst = names.map str := by
  calc (names.zipWith (fun n v => (str n, v)) vs).map Prod.fst
      = ((names.zip vs).map Prod.fst).map str := by simp [zipWith_str_eq, Function.comp_def]
    _ = names.map str := by rw [List.map_fst_zip (Nat.le_of_eq hlength.symm)]

theorem map_snd_entries (hlength : vs.length = names.length) :
    (names.zipWith (fun n v => (str n, v)) vs).map Prod.snd = vs := by
  rw [zipWith_str_eq, List.map_map]
  exact List.map_snd_zip (Nat.le_of_eq hlength)

/-- The entry of the kind goes, and no other entry is taken for it. -/
theorem fieldEntries_described {kind : Value} (hnames : "kind" ∉ names) :
    fieldEntries ((str "kind", kind) :: names.zipWith (fun n v => (str n, v)) vs) =
      names.zipWith (fun n v => (str n, v)) vs := by
  rw [fieldEntries, List.filter_cons_of_neg (by simp [isText, kindKey]), List.filter_eq_self,
    zipWith_str_eq]
  intro e he
  obtain ⟨⟨n, v⟩, hn, rfl⟩ := List.mem_map.mp he
  have hne : n ≠ "kind" := fun h => hnames (h ▸ (List.of_mem_zip hn).1)
  simp [isText, kindKey, hne]

/-- Entries that are all fields leave nothing to object to. -/
theorem describedHead_eq_ok (hh : f.head? h.name = some h)
    (hlength : vs.length = h.fieldNames.length) :
    describedHead f (str h.name) (h.fieldNames.zipWith (fun n v => (str n, v)) vs) = .ok h := by
  have hextra : (h.fieldNames.map str).filter (fun k => !h.fieldNames.any fun n => k.isText n) =
      [] := by
    rw [List.filter_eq_nil_iff]
    rintro k hk
    obtain ⟨n, hn, rfl⟩ := List.mem_map.mp hk
    simpa [isText] using hn
  rw [describedHead, text?, Option.bind_some, hh]
  dsimp only
  rw [map_fst_entries hlength, hextra]
  rfl

/-- A description is entered once its kind is known and has the fields that are described. -/
theorem decodeStep_description {kind : String} (hnames : "kind" ∉ names)
    (hlength : vs.length = names.length) :
    decodeStep f (described kind names vs) =
      match describedHead f (str kind) (names.zipWith (fun n v => (str n, v)) vs) with
      | .error e => .error e
      | .ok h => .ok (.branch (.description h names) vs) := by
  have hkeys : (names.zipWith (fun n v => (str n, v)) vs).filterMap (fun e => e.1.text?) =
      names := by
    calc (names.zipWith (fun n v => (str n, v)) vs).filterMap (fun e => e.1.text?)
        = ((names.zipWith (fun n v => (str n, v)) vs).map Prod.fst).filterMap text? := by
          rw [List.filterMap_map]
          rfl
      _ = names := by
          rw [map_fst_entries hlength, List.filterMap_map]
          exact List.filterMap_some
  have hkind : find? kindKey
      ((str "kind", str kind) :: names.zipWith (fun n v => (str n, v)) vs) = some (str kind) := by
    rw [find?, List.find?_cons_of_pos (by simp [isText, kindKey]), Option.map_some]
  rw [described, decodeStep, fieldEntries_described hnames, hkind]
  dsimp only
  cases describedHead f (str kind) (names.zipWith (fun n v => (str n, v)) vs) with
  | error e => rfl
  | ok h => rw [hkeys, map_snd_entries hlength]

/-- A description is entered by its own kind, with its values as members. -/
theorem decodeStep_described (hh : f.head? h.name = some h)
    (hlength : vs.length = h.fieldNames.length) :
    decodeStep f (described h.name h.fieldNames vs) =
      .ok (.branch (.description h h.fieldNames) vs) := by
  rw [decodeStep_description (List.nodup_cons.mp h.nodup_kind_fieldNames).1 hlength,
    describedHead_eq_ok hh hlength]

/-- **A description with all fields in order** is decoded by building what it describes from its
decoded members. -/
theorem decoded_described (hh : f.head? h.name = some h)
    (hlength : vs.length = h.fieldNames.length) (hvs : vs.mapM (decoded f) = .ok ws) :
    decoded f (described h.name h.fieldNames vs) =
      Except.mapError (.ofBuild h.name) (h.build ws) := by
  rw [decoded_of_branch (decodeStep_described hh hlength) hvs, assemble_description,
    Head.call_zip]
  rw [Walk.length_of_mapM hvs, hlength]

/-! ### What has been decoded -/

/-- What has a value after it was entered has it from the values of its members. -/
theorem exists_of_decoded_branch {g : DecodeFrame} {ms : List Value} {w : Value}
    (hv : decodeStep f v = .ok (.branch g ms)) (hw : decoded f v = .ok w) :
    ∃ ws, ms.mapM (decoded f) = .ok ws ∧ g.assemble ws = (.ok w : Except DecodeFault Value) := by
  rw [decoded_eq, hv] at hw
  dsimp only at hw
  cases hms : ms.mapM (decoded f) with
  | error e =>
    rw [hms] at hw
    cases hw
  | ok ws =>
    rw [hms] at hw
    exact ⟨ws, rfl, hw⟩

/-- A list is decoded only if its items are. -/
theorem exists_of_decoded_list {w : Value} (hw : decoded f (list vs) = .ok w) (hv : v ∈ vs) :
    ∃ u, decoded f v = .ok u := by
  obtain ⟨ws, hws, -⟩ := exists_of_decoded_branch (g := .items) rfl hw
  exact exists_of_mapM_eq_ok hws hv

theorem head?_of_describedHead {kind : String} {entries : List (Value × Value)}
    (hh : describedHead f (str kind) entries = .ok h) : f.head? kind = some h := by
  unfold describedHead at hh
  split at hh
  · cases hh
  · next g hg =>
    dsimp only at hh
    split at hh
    · obtain rfl := Except.ok.inj hh
      exact hg
    · cases hh

/-- **What a description is decoded to** is built by its kind from the decoded members, each under
its own name. -/
theorem exists_of_decoded_described {kind : String} {w : Value} (hnames : "kind" ∉ names)
    (hlength : vs.length = names.length) (hw : decoded f (described kind names vs) = .ok w) :
    ∃ h ws, f.head? kind = some h ∧ vs.mapM (decoded f) = .ok ws ∧
      h.call ⟨[], names.zip ws⟩ = (.ok w : Except BuildFault Value) := by
  have hstep : decodeStep f (described kind names vs) = _ := decodeStep_description hnames hlength
  cases hhead : describedHead f (str kind) (names.zipWith (fun n v => (str n, v)) vs) with
  | error e =>
    rw [hhead] at hstep
    rw [decoded_eq, hstep] at hw
    cases hw
  | ok h =>
    rw [hhead] at hstep
    obtain ⟨ws, hws, hassemble⟩ := exists_of_decoded_branch hstep hw
    rw [assemble_description, mapError_eq_ok_iff] at hassemble
    exact ⟨h, ws, head?_of_describedHead hhead, hws, hassemble⟩

end Value

end LoweringIR
