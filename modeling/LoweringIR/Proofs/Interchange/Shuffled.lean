import LoweringIR.Proofs.Interchange.Recursion
import LoweringIR.Proofs.Interchange.Sound

/-!
# Members in another order

An object lists its members, but the description of a tree is known by what its members are called.
The kind may come last, and a field before the one that the schema puts first. Decoding still takes
the members as they come and stops at the first fault, so two documents that list the members of
their descriptions in different orders may well be told of different faults. What they describe is
the same, and one of them describes something only if the other does.

The order of everything else is part of a document: of items in arrays, and of members of objects
without a kind, which are mappings.

A document that is decoded is decoded without a fault anywhere, so for the direction from one
document to the other no order of faults is to be kept: members that all have values have them in
any order, and arguments that each fill an empty slot do so in any order.

## Main definitions

* `Json.Shuffled` — the members of descriptions in other orders, at any depth

## Main results

* `Head.call_of_perm` — what is built from arguments by name does not depend on their order
* `Json.Shuffled.symm`, `Json.Shuffled.decode` — shuffled documents have the same values
* `Tree.decode_shuffled` — they describe the same tree, or none, and then both announce it
-/

namespace LoweringIR

/-! ### Arguments -/

namespace Arguments

variable {owner : String} {ps : List Parameter} {ss ss' : List Slot} {a b : String × Value}
  {positional : List Value} {named named' : List (String × Value)} {vs : List Value}

/-- A slot that is filled if it has the name of an argument. -/
def filledBy (a : String × Value) (s : Slot) : Slot :=
  if s.1.name == a.1 then (s.1, some a.2) else s

theorem fill_eq_ok_iff :
    fill owner ss a = .ok ss' ↔
      (∃ p, ss.find? (fun s => s.1.name == a.1) = some (p, none)) ∧ ss.map (filledBy a) = ss' := by
  rw [fill]
  cases hfind : ss.find? fun s => s.1.name == a.1 with
  | none => simp
  | some s =>
    obtain ⟨p, _ | v⟩ := s
    · exact ⟨fun h => ⟨⟨p, rfl⟩, Except.ok.inj h⟩, fun h => congrArg Except.ok h.2⟩
    · simp

theorem name_filledBy (a : String × Value) (s : Slot) : (filledBy a s).1.name = s.1.name := by
  unfold filledBy
  split <;> rfl

theorem find?_map_filledBy (a : String × Value) (n : String) (ss : List Slot) :
    (ss.map (filledBy a)).find? (fun s => s.1.name == n) =
      (ss.find? fun s => s.1.name == n).map (filledBy a) := by
  rw [List.find?_map]
  simp only [Function.comp_def, name_filledBy]

/-- A slot that is empty after an argument was empty before, and has another name. -/
theorem ne_of_find?_filledBy {p : Parameter}
    (h : (ss.map (filledBy a)).find? (fun s => s.1.name == b.1) = some (p, none)) :
    ss.find? (fun s => s.1.name == b.1) = some (p, none) ∧ a.1 ≠ b.1 := by
  rw [find?_map_filledBy, Option.map_eq_some_iff] at h
  obtain ⟨s, hs, hfilled⟩ := h
  have hname : s.1.name = b.1 := by simpa using List.find?_some hs
  unfold filledBy at hfilled
  split at hfilled
  · cases hfilled
  · next hne =>
    subst hfilled
    exact ⟨hs, fun h => hne (by simpa [h] using hname)⟩

/-- Two arguments that fill slots one after the other do so the other way round. -/
theorem fill_fill {ss₁ ss₂ : List Slot} (ha : fill owner ss a = .ok ss₁)
    (hb : fill owner ss₁ b = .ok ss₂) :
    ∃ ss₁', fill owner ss b = .ok ss₁' ∧ fill owner ss₁' a = .ok ss₂ := by
  obtain ⟨⟨p, hp⟩, rfl⟩ := fill_eq_ok_iff.mp ha
  obtain ⟨⟨q, hq⟩, rfl⟩ := fill_eq_ok_iff.mp hb
  obtain ⟨hq, hne⟩ := ne_of_find?_filledBy hq
  refine ⟨_, fill_eq_ok_iff.mpr ⟨⟨q, hq⟩, rfl⟩, fill_eq_ok_iff.mpr ⟨⟨p, ?_⟩, ?_⟩⟩
  · have hname : p.name = a.1 := by simpa using List.find?_some hp
    rw [find?_map_filledBy, hp]
    simp [filledBy, hname, hne]
  · rw [List.map_map, List.map_map]
    refine List.map_congr_left fun s _ => ?_
    by_cases hsa : s.1.name = a.1
    · simp [filledBy, hsa, hne]
    · by_cases hsb : s.1.name = b.1 <;> simp [filledBy, hsa, hsb, Ne.symm hne]

/-- Arguments fill the same slots in any order. -/
theorem foldlM_fill_of_perm (h : named.Perm named')
    (hss : named.foldlM (fill owner) ss = .ok ss') :
    named'.foldlM (fill owner) ss = .ok ss' := by
  induction h generalizing ss with
  | nil => exact hss
  | cons a _ ih =>
    rw [List.foldlM_cons, bind_eq_ok_iff] at *
    obtain ⟨next, hnext, hrest⟩ := hss
    exact ⟨next, hnext, ih hrest⟩
  | swap a b named =>
    simp only [List.foldlM_cons, bind_eq_ok_iff] at *
    obtain ⟨ss₁, hb, ss₂, ha, hrest⟩ := hss
    obtain ⟨ss₁', ha', hb'⟩ := fill_fill hb ha
    exact ⟨ss₁', ha', ss₂, hb', hrest⟩
  | trans _ _ ih ih' => exact ih' (ih hss)

theorem bind_of_perm (h : named.Perm named')
    (hvs : bind owner ps ⟨positional, named⟩ = .ok vs) :
    bind owner ps ⟨positional, named'⟩ = .ok vs := by
  rw [bind, bind_eq_ok_iff] at *
  obtain ⟨ss, hss, hrest⟩ := hvs
  exact ⟨ss, foldlM_fill_of_perm h hss, hrest⟩

end Arguments

/-- **What is built from arguments by name** does not depend on their order. -/
theorem Head.call_of_perm {h : Head} {positional : List Value} {named named' : List (String × Value)}
    {v : Value} (hperm : named.Perm named')
    (hv : h.call ⟨positional, named⟩ = (.ok v : Except BuildFault Value)) :
    h.call ⟨positional, named'⟩ = (.ok v : Except BuildFault Value) := by
  obtain ⟨vs, hvs, hbuild⟩ := bind_eq_ok_iff.mp hv
  rw [ofExcept_eq_ok_iff, mapError_eq_ok_iff] at hvs
  refine bind_eq_ok_iff.mpr ⟨vs, ?_, hbuild⟩
  rw [ofExcept_eq_ok_iff, mapError_eq_ok_iff]
  exact Arguments.bind_of_perm hperm hvs

namespace Json

/-! ### Shuffling -/

/-- The members of descriptions in other orders, at any depth. A list of pairs has a value and what
becomes of it, and a list of members has this under every name. -/
inductive Shuffled : Json → Json → Prop
  | refl (j : Json) : Shuffled j j
  /-- The items of an array keep their order. -/
  | arr {pairs : List (Json × Json)} (items : ∀ p ∈ pairs, Shuffled p.1 p.2) :
      Shuffled (.arr (pairs.map Prod.fst)) (.arr (pairs.map Prod.snd))
  /-- The members of an object without a kind keep theirs. -/
  | mapping {members : List (String × Json × Json)}
      (values : ∀ m ∈ members, Shuffled m.2.1 m.2.2) (kindless : "kind" ∉ members.map Prod.fst) :
      Shuffled (.obj (members.map fun m => (m.1, m.2.1))) (.obj (members.map fun m => (m.1, m.2.2)))
  /-- The members of a description come in any order. No two have one name. -/
  | description {members members' : List (String × Json × Json)}
      (values : ∀ m ∈ members, Shuffled m.2.1 m.2.2) (kind : "kind" ∈ members.map Prod.fst)
      (names : (members.map Prod.fst).Nodup) (order : members.Perm members') :
      Shuffled (.obj (members.map fun m => (m.1, m.2.1)))
        (.obj (members'.map fun m => (m.1, m.2.2)))

variable {f : Family} {d d' j j' kind : Json} {members members' : List (String × Json)} {h : Head}
  {v : Value} {t : Tree} {key : String}

/-- What was shuffled can be shuffled back. -/
theorem Shuffled.symm (h : Shuffled j j') : Shuffled j' j := by
  have hflip : ∀ {ms : List (String × Json × Json)} (g : Json × Json → Json),
      (ms.map fun m => (m.1, m.2.swap)).map (fun m => (m.1, g m.2)) =
        ms.map fun m => (m.1, g m.2.swap) := by
    intro ms g
    rw [List.map_map]
    rfl
  induction h with
  | refl j => exact .refl j
  | @arr pairs _ ih =>
    have h := @Shuffled.arr (pairs.map Prod.swap) (List.forall_mem_map.mpr ih)
    simpa [Function.comp_def] using h
  | @mapping members _ kindless ih =>
    have h := @Shuffled.mapping (members.map fun m => (m.1, m.2.swap)) (List.forall_mem_map.mpr ih)
      (by simpa [Function.comp_def] using kindless)
    rwa [hflip Prod.fst, hflip Prod.snd] at h
  | @description members members' _ kind names order ih =>
    have h := @Shuffled.description (members'.map fun m => (m.1, m.2.swap))
      (members.map fun m => (m.1, m.2.swap))
      (List.forall_mem_map.mpr fun m hm => ih m (order.mem_iff.mpr hm)) ?_ ?_
      (order.symm.map _)
    · rwa [hflip Prod.fst, hflip Prod.snd] at h
    · rw [List.map_map]
      exact (order.map Prod.fst).mem_iff.mp kind
    · rw [List.map_map]
      exact (order.map Prod.fst).nodup_iff.mp names

/-! ### Decoding -/

/-- The members besides the kind are decoded one by one, each under its name. -/
theorem decodeMembers_eq_mapM :
    decodeMembers f members =
      (fieldMembers members).mapM fun m => (fun v => (m.1, v)) <$> decode f m.2 := by
  rw [decodeMembers_eq, parts, List.mapM_map, mapM_beside Prod.fst fun m => decode f m.2]
  rfl

/-- Members are decoded in any order. -/
theorem exists_decodeMembers_of_perm {args : List (String × Value)} (h : members.Perm members')
    (hargs : decodeMembers f members = .ok args) :
    ∃ args', decodeMembers f members' = .ok args' ∧ args.Perm args' := by
  rw [decodeMembers_eq_mapM] at hargs
  obtain ⟨args', hargs', hperm⟩ := exists_mapM_of_perm (h.filter _) hargs
  exact ⟨args', by rwa [decodeMembers_eq_mapM], hperm⟩

/-- Members are decoded to the same if their values are. -/
theorem decodeMembers_map {args : List (String × Value)} {ms : List (String × Json × Json)}
    (h : ∀ m ∈ ms, ∀ v, decode f m.2.1 = .ok v → decode f m.2.2 = .ok v)
    (hargs : decodeMembers f (ms.map fun m => (m.1, m.2.1)) = .ok args) :
    decodeMembers f (ms.map fun m => (m.1, m.2.2)) = .ok args := by
  rw [decodeMembers_eq_mapM, fieldMembers_map Prod.fst] at hargs
  rw [decodeMembers_eq_mapM, fieldMembers_map Prod.snd]
  refine mapM_map_of_mapM_map (fun m hm a ha => ?_) hargs
  obtain ⟨v, hv, rfl⟩ := map_eq_ok_iff.mp ha
  exact map_eq_ok_iff.mpr ⟨v, h m (List.mem_of_mem_filter hm) v hv, rfl⟩

theorem Shuffled.eq_of_str {s : String} (h : Shuffled (.str s) j) : j = .str s := by
  cases h
  rfl

/-- A description is known by its kind, wherever that stands. -/
theorem get?_map_of_mem {m : String × Json × Json} {ms : List (String × Json × Json)}
    (names : (ms.map Prod.fst).Nodup) (hm : m ∈ ms) (g : Json × Json → Json) :
    get? m.1 (ms.map fun m => (m.1, g m.2)) = some (g m.2) := by
  refine get?_eq_some_of_mem ?_ (List.mem_map_of_mem (f := fun m => (m.1, g m.2)) hm)
  rw [List.map_map]
  exact names

/-- **Shuffled documents have the same values**: what a value is decoded to, it is decoded to in any
order. -/
theorem Shuffled.decode (h : Shuffled j j') (hv : decode f j = .ok v) : decode f j' = .ok v := by
  induction h generalizing v with
  | refl j => exact hv
  | arr _ ih =>
    rw [decode_arr, map_eq_ok_iff] at *
    obtain ⟨vs, hvs, rfl⟩ := hv
    exact ⟨vs, mapM_map_of_mapM_map ih hvs, rfl⟩
  | @mapping members _ kindless ih =>
    have hkindless : ∀ g : Json × Json → Json,
        get? "kind" (members.map fun m => (m.1, g m.2)) = none := by
      intro g
      rw [get?_eq_none_iff, List.map_map]
      exact kindless
    rw [Json.decode, hkindless Prod.fst] at hv
    rw [Json.decode, hkindless Prod.snd]
    obtain ⟨args, hargs, hdict⟩ := bind_eq_ok_iff.mp hv
    exact bind_eq_ok_iff.mpr ⟨args, decodeMembers_map ih hargs, hdict⟩
  | @description members members' values kind names order ih =>
    obtain ⟨⟨-, kind, kind'⟩, hmem, rfl⟩ := List.mem_map.mp kind
    have hkind := get?_map_of_mem names hmem Prod.fst
    have hkind' := get?_map_of_mem ((order.map _).nodup_iff.mp names) (order.mem_iff.mp hmem) Prod.snd
    rw [Json.decode, hkind] at hv
    rw [Json.decode, hkind']
    obtain ⟨head, hhead, hv⟩ := bind_eq_ok_iff.mp hv
    obtain ⟨args, hargs, hcall⟩ := bind_eq_ok_iff.mp hv
    rw [mapError_eq_ok_iff] at hcall
    obtain ⟨args', hargs', hperm⟩ :=
      exists_decodeMembers_of_perm (order.map _) (decodeMembers_map ih hargs)
    have hhead' : headOf f kind' (members'.map fun m => (m.1, m.2.2)) = .ok head := by
      obtain ⟨rfl, hname, hfields⟩ := headOf_eq_ok_iff.mp hhead
      obtain rfl := (values _ hmem).eq_of_str
      refine headOf_eq_ok_iff.mpr ⟨rfl, hname, fun n hn => hfields n ?_⟩
      rw [List.map_map] at hn ⊢
      exact (order.map Prod.fst).mem_iff.mpr hn
    refine bind_eq_ok_iff.mpr ⟨head, hhead', bind_eq_ok_iff.mpr ⟨args', hargs', ?_⟩⟩
    exact mapError_eq_ok_iff.mpr (Head.call_of_perm hperm hcall)

/-- A description is shuffled to a description. -/
theorem Shuffled.exists_description (h : Shuffled (.obj members) j)
    (hkind : (get? "kind" members).isSome) :
    ∃ members', j = .obj members' ∧ (get? "kind" members').isSome := by
  cases h with
  | refl => exact ⟨members, rfl, hkind⟩
  | mapping _ kindless =>
    rw [isSome_get?_iff, List.map_map] at hkind
    exact absurd hkind kindless
  | description _ kind _ order =>
    refine ⟨_, rfl, isSome_get?_iff.mpr ?_⟩
    rw [List.map_map]
    exact (order.map Prod.fst).mem_iff.mp kind

/-- What a shuffled document describes is what the document describes. -/
theorem Shuffled.describedTree (h : Shuffled d d') (ht : describedTree f d = .ok t) :
    describedTree f d' = .ok t := by
  obtain ⟨members, kind, rfl, hkind, hv⟩ := eq_of_describedTree ht
  have hv' := h.decode hv
  obtain ⟨members', rfl, hkind'⟩ := h.exists_description (Option.isSome_of_eq_some hkind)
  rw [Json.describedTree, if_pos hkind', hv']
  rfl

end Json

namespace Tree

/-- A symbol with its members in the order of the schema. -/
def symbolInOrder : Json := .obj [("kind", .str "Symbol"), ("name", .str "a")]

/-- A symbol with its kind last. -/
def symbolReversed : Json := .obj [("name", .str "a"), ("kind", .str "Symbol")]

/-- What two variables are bound to, as a mapping. -/
def boundTo (first second : Json) : Json := .obj [("y", first), ("x", second)]

/-- A binding of two variables. -/
def letInOrder : Json :=
  .obj [("kind", .str "Let"), ("bindings", boundTo (.obj [("kind", .str "Nop")]) symbolInOrder),
    ("tail", symbolInOrder)]

/-- The same binding with its kind last. The variables keep their order. -/
def letReversed : Json :=
  .obj [("tail", symbolReversed),
    ("bindings", boundTo (.obj [("kind", .str "Nop")]) symbolReversed), ("kind", .str "Let")]

/-- An assignment of something unknown to something unknown. -/
def assignUnknown (first second : String × String) : Json :=
  .obj [("kind", .str "Set"), (first.1, .obj [("kind", .str first.2)]),
    (second.1, .obj [("kind", .str second.2)])]

theorem symbolInOrder_shuffled : Json.Shuffled symbolInOrder symbolReversed :=
  @Json.Shuffled.description
    [("kind", .str "Symbol", .str "Symbol"), ("name", .str "a", .str "a")] _
    (by simp [Json.Shuffled.refl]) (by simp) (by simp) (.swap ..)

theorem letInOrder_shuffled : Json.Shuffled letInOrder letReversed := by
  have hbindings : Json.Shuffled (boundTo (.obj [("kind", .str "Nop")]) symbolInOrder)
      (boundTo (.obj [("kind", .str "Nop")]) symbolReversed) :=
    @Json.Shuffled.mapping
      [("y", .obj [("kind", .str "Nop")], .obj [("kind", .str "Nop")]),
        ("x", symbolInOrder, symbolReversed)]
      (by simp [Json.Shuffled.refl, symbolInOrder_shuffled]) (by simp)
  refine @Json.Shuffled.description
    [("kind", .str "Let", .str "Let"), ("bindings", _, _), ("tail", symbolInOrder, symbolReversed)]
    [("tail", symbolInOrder, symbolReversed), ("bindings", _, _), ("kind", .str "Let", .str "Let")]
    ?_ (by simp) (by simp) (List.reverse_perm _).symm
  simp only [List.forall_mem_cons]
  exact ⟨.refl _, hbindings, symbolInOrder_shuffled, List.forall_mem_nil _⟩

theorem assignUnknown_shuffled :
    Json.Shuffled (assignUnknown ("target", "A") ("value", "B"))
      (assignUnknown ("value", "B") ("target", "A")) :=
  @Json.Shuffled.description
    [("kind", .str "Set", .str "Set"),
      ("target", .obj [("kind", .str "A")], .obj [("kind", .str "A")]),
      ("value", .obj [("kind", .str "B")], .obj [("kind", .str "B")])] _
    (by simp [Json.Shuffled.refl]) (by simp) (by simp) (.cons _ (.swap ..))

end Tree

end LoweringIR
