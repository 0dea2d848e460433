import LoweringIR.Proofs.Building.Sound
import LoweringIR.Proofs.Interchange.Recursion

/-!
# What documents describe

Decoding puts values together from the inside out, and the only nodes among them are those that have
been built, from nodes that have been built. So the trees in a decoded value are well formed, and
since no document describes a blank, they are whole. What a whole document describes belongs to the
family that the document was read for, because the vocabulary of a family has no other kinds.

If a document describes nothing, it says why in a way that a reader of documents expects. Two faults
of decoding are not among these, and neither can occur: a document names its family by a text, and
the names of its members always have an order.

## Main definitions

* `DecodeFault.Announced` — the faults that a reader of documents expects

## Main results

* `Json.sound_of_describedTree` — the trees that documents describe
* `Json.announced_of_describedTree` — the faults of documents that describe none
-/

namespace LoweringIR

/-- The fault is one that a reader of documents expects. -/
def DecodeFault.Announced : DecodeFault → Prop
  | unhashableFamily _ => False
  | unorderedFields _ => False
  | _ => True

theorem DecodeFault.announced_ofBuild (kind : String) (e : BuildFault) :
    (ofBuild kind e).Announced := by
  cases e <;> trivial

/-- The vocabulary of a family has kinds of no other family. -/
theorem Family.family_of_head? {f : Family} {name : String} {k : Kind}
    (h : f.head? name = some (.node k)) : k.family = f := by
  have hall : ∀ g ∈ f.vocabulary, ∀ k, g = .node k → k.family = f := by
    cases f <;> simp [vocabulary, Kind.family, Dialect.family]
  exact hall _ (List.mem_of_find?_eq_some h) k rfl

namespace Json

variable {f : Family} {j d : Json} {v : Value} {t : Tree} {e : DecodeFault}

/-! ### Trees -/

/-- The trees in what a value is decoded to are well formed and whole. -/
theorem eachTree_of_decode (h : j.decode f = .ok v) :
    v.EachTree fun t => t.WellFormed ∧ t.Whole := by
  have hT : Tree.PassesUp fun t => t.WellFormed ∧ t.Whole := fun k fs hfits hchildren =>
    ⟨Tree.passesUp_wellFormed k fs hfits fun t ht => (hchildren t ht).1,
      Tree.whole_node_iff.mpr fun t ht => (hchildren t ht).2⟩
  induction j using Json.induct generalizing v with
  | step j ih =>
    have hparts : ∀ vs, j.parts.mapM (decode f) = .ok vs →
        ∀ v ∈ vs, v.EachTree fun t => t.WellFormed ∧ t.Whole := by
      intro vs hvs v hv
      obtain ⟨k, hk, hkv⟩ := exists_of_mem_of_mapM_eq_ok hvs hv
      exact ih k hk hkv
    cases j with
    | arr items =>
      rw [decode_arr, map_eq_ok_iff] at h
      obtain ⟨vs, hvs, rfl⟩ := h
      exact Value.eachTree_tuple.mpr (hparts vs hvs)
    | obj members =>
      cases hkind : get? "kind" members with
      | none =>
        rw [decode_kindless hkind, map_eq_ok_iff] at h
        obtain ⟨vs, hvs, rfl⟩ := h
        refine Value.eachTree_dict.mpr fun e he => ⟨?_, hparts vs hvs e.2 (List.of_mem_zip he).2⟩
        obtain ⟨m, -, hm⟩ := List.mem_map.mp (List.of_mem_zip he).1
        rw [← hm]
        exact Value.eachTree_str m.1
      | some kind =>
        obtain ⟨head, vs, -, hvs, hcall⟩ := call_of_decode hkind h
        have hnamed : ∀ a ∈ ((fieldMembers members).map Prod.fst).zip vs,
            a.2.EachTree fun t => t.WellFormed ∧ t.Whole := fun a ha =>
          hparts vs hvs a.2 (List.of_mem_zip ha).2
        exact (Head.of_call hT (by simp) hnamed hcall).2
    | _ =>
      obtain rfl := Except.ok.inj h
      simp [Value.ofJson, Value.EachTree, Value.trees]

/-- **The trees that documents describe** are well formed and whole, and belong to the family that
the document was read for. -/
theorem sound_of_describedTree (h : d.describedTree f = .ok t) :
    t.WellFormed ∧ t.Whole ∧ t.family? = some f := by
  obtain ⟨members, kind, rfl, hkind, hv⟩ := eq_of_describedTree h
  obtain ⟨hw, hc⟩ := Value.eachTree_node.mp (eachTree_of_decode hv)
  refine ⟨hw, hc, ?_⟩
  obtain ⟨head, vs, hhead, -, hcall⟩ := call_of_decode hkind hv
  obtain ⟨-, hname, -⟩ := eq_of_headOf hhead
  have hany : Tree.PassesUp fun _ => True := fun _ _ _ _ => trivial
  obtain ⟨hhead, -⟩ := Head.of_call hany (by simp) (by simp [Value.EachTree]) hcall
  cases t with
  | blank g n => exact absurd hc (Tree.not_whole_blank g n)
  | node k fs =>
    obtain rfl := Option.some.inj hhead
    exact congrArg some (Family.family_of_head? hname)

/-! ### Faults -/

theorem announced_of_headOf {kind : Json} {members : List (String × Json)}
    (h : headOf f kind members = .error e) : e.Announced := by
  unfold headOf at h
  split at h
  · split at h
    · cases h
      trivial
    · dsimp only at h
      split at h
      · cases h
      · cases h
        trivial
  · cases h
    trivial

theorem announced_of_decode (h : j.decode f = .error e) : e.Announced := by
  induction j using Json.induct generalizing e with
  | step j ih =>
    have hparts : ∀ e, j.parts.mapM (decode f) = .error e → e.Announced := by
      intro e he
      obtain ⟨k, hk, hke⟩ := exists_of_mapM_eq_error he
      exact ih k hk hke
    cases j with
    | arr items =>
      rw [decode_arr, map_eq_error_iff] at h
      exact hparts e h
    | obj members =>
      cases hkind : get? "kind" members with
      | none =>
        rw [decode_kindless hkind, map_eq_error_iff] at h
        exact hparts e h
      | some kind =>
        rw [decode_description hkind, bind_eq_error_iff] at h
        obtain h | ⟨head, -, h⟩ := h
        · exact announced_of_headOf h
        · obtain h | ⟨vs, -, h⟩ := bind_eq_error_iff.mp h
          · exact hparts e h
          · rw [Value.assemble_description, mapError_eq_error_iff] at h
            obtain ⟨b, -, rfl⟩ := h
            exact DecodeFault.announced_ofBuild _ b
    | _ => cases h

/-- **The faults of documents** that describe no tree are announced. -/
theorem announced_of_describedTree (h : d.describedTree f = .error e) : e.Announced := by
  unfold describedTree at h
  split at h
  · split at h
    · obtain h | ⟨v, -, h⟩ := bind_eq_error_iff.mp h
      · exact announced_of_decode h
      · split at h
        · cases h
        · cases h
          trivial
    · cases h
      trivial
  · cases h
    trivial

end Json

end LoweringIR
