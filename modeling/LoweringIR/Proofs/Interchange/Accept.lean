import LoweringIR.Proofs.Interchange.Arguments
import Mathlib.Data.List.Nodup

/-!
# What building accepts

When something has been built from arguments, these were for its fields, each field has had one
value, and what no argument was given for had a fallback. So the arguments together with the
fallbacks are the values of the fields, in some order. From the values the fields were then read one
by one, and nothing else went into what was built.

## Main definitions

* `Arguments.given` — what the slots have been filled with

## Main results

* `Arguments.perm_of_bind` — the values of the parameters, by name
* `Kind.forall₂_of_readFields` — every field was read from its own value
* `Head.perm_of_call` — so are the values of what is built
* `Head.eq_of_build` — what is built is a node or a record
-/

namespace LoweringIR

namespace Arguments

variable {owner : String} {ps : List Parameter} {ss ss' : List Slot} {a : String × Value}
  {named : List (String × Value)} {ws : List Value}

/-- What the slots have been filled with, by name. -/
def given (ss : List Slot) : List (String × Value) :=
  ss.filterMap fun s => s.2.map fun v => (s.1.name, v)

theorem given_append (ss ss' : List Slot) : given (ss ++ ss') = given ss ++ given ss' :=
  List.filterMap_append

theorem given_cons_some (p : Parameter) (v : Value) (ss : List Slot) :
    given ((p, some v) :: ss) = (p.name, v) :: given ss := rfl

theorem given_cons_none (p : Parameter) (ss : List Slot) : given ((p, none) :: ss) = given ss := rfl

/-- An argument fills one slot, which was empty and has its name. -/
theorem exists_of_fill {n : String} {v : Value} (hnames : (ss.map fun s => s.1.name).Nodup)
    (h : fill owner ss (n, v) = .ok ss') :
    ∃ filled p rest, ss = filled ++ (p, none) :: rest ∧ p.name = n ∧
      ss' = filled ++ (p, some v) :: rest := by
  cases hfind : ss.find? fun s => s.1.name == n with
  | none =>
    rw [fill, hfind] at h
    cases h
  | some s =>
    obtain ⟨p, _ | w⟩ := s
    · obtain ⟨hp, filled, rest, rfl, -⟩ := List.find?_eq_some_iff_append.mp hfind
      obtain rfl : p.name = n := by simpa using hp
      rw [List.map_append, List.map_cons, List.nodup_middle, List.nodup_cons, ← List.map_append]
        at hnames
      have hother : ∀ s ∈ filled ++ rest, s.1.name ≠ p.name := fun s hs heq =>
        hnames.1 (heq ▸ List.mem_map_of_mem (f := fun s : Slot => s.1.name) hs)
      rw [List.forall_mem_append] at hother
      rw [fill_empty hother.1 hother.2] at h
      exact ⟨filled, p, rest, rfl, rfl, (Except.ok.inj h).symm⟩
    · rw [fill, hfind] at h
      cases h

/-- Arguments fill slots and do nothing else: the slots stay the same, and what they have been
filled with is what they were filled with before and the arguments. -/
theorem perm_of_foldlM_fill (hnames : (ss.map fun s => s.1.name).Nodup)
    (h : named.foldlM (fill owner) ss = .ok ss') :
    ss'.map Prod.fst = ss.map Prod.fst ∧ (given ss').Perm (given ss ++ named) := by
  induction named generalizing ss with
  | nil =>
    obtain rfl := Except.ok.inj h
    simp
  | cons a named ih =>
    rw [List.foldlM_cons, bind_eq_ok_iff] at h
    obtain ⟨next, hfill, hrest⟩ := h
    obtain ⟨filled, p, rest, rfl, hp, rfl⟩ := exists_of_fill hnames hfill
    obtain ⟨hslots, hgiven⟩ := ih (by simpa using hnames) hrest
    refine ⟨by simpa using hslots, hgiven.trans ?_⟩
    rw [given_append, given_append, given_cons_some, given_cons_none, hp, List.append_assoc,
      List.append_assoc]
    exact List.Perm.append_left _ List.perm_middle.symm

/-- The value that a slot stands for. -/
def slotValue (s : Slot) : Option Value := s.2 <|> s.1.fallback

/-- Slots that are filled or need not be, with the values that they stand for. -/
theorem perm_values (h : ∀ s ∈ ss, s.2.isNone → s.1.fallback.isSome) :
    ∃ ds : List (String × Value),
      (∀ d ∈ ds, ∃ s ∈ ss, s.1.name = d.1 ∧ s.1.fallback = some d.2) ∧
      (given ss ++ ds).Perm ((ss.map fun s => s.1.name).zip (ss.filterMap slotValue)) ∧
      (ss.filterMap slotValue).length = ss.length := by
  induction ss with
  | nil => exact ⟨[], by simp [given]⟩
  | cons s ss ih =>
    obtain ⟨ds, hds, hperm, hlength⟩ := ih fun t ht => h t (List.mem_cons_of_mem _ ht)
    have htail : ∀ d ∈ ds, ∃ t ∈ s :: ss, t.1.name = d.1 ∧ t.1.fallback = some d.2 := by
      intro d hd
      obtain ⟨t, ht, hname⟩ := hds d hd
      exact ⟨t, List.mem_cons_of_mem _ ht, hname⟩
    obtain ⟨p, _ | v⟩ := s
    · obtain ⟨v, hv⟩ := Option.isSome_iff_exists.mp (h (p, none) (List.mem_cons_self ..) rfl)
      rw [List.filterMap_cons_some (b := v) (show slotValue (p, none) = some v from hv)]
      refine ⟨(p.name, v) :: ds, ?_, List.perm_middle.trans (hperm.cons _), by simp [hlength]⟩
      rintro d (_ | ⟨_, hd⟩)
      · exact ⟨(p, none), List.mem_cons_self .., rfl, hv⟩
      · exact htail d hd
    · rw [List.filterMap_cons_some (b := v) (show slotValue (p, some v) = some v from rfl)]
      exact ⟨ds, htail, hperm.cons (p.name, v), by simp [hlength]⟩

/-- The slots after arguments by position are filled with these, as far as there are slots. -/
theorem given_slots (ps : List Parameter) (vs : List Value) :
    given (slots ps vs) = (ps.map Parameter.name).zip vs := by
  induction ps generalizing vs with
  | nil => rfl
  | cons p ps ih =>
    obtain _ | ⟨v, vs⟩ := vs
    · simp [given, slots]
    · have hslots : slots (p :: ps) (v :: vs) = (p, some v) :: slots ps vs := by
        rw [slots, List.zipIdx_cons', List.map_cons, List.map_map]
        rfl
      rw [hslots, given_cons_some, ih, List.map_cons, List.zip_cons_cons]

theorem map_fst_slots (ps : List Parameter) (vs : List Value) :
    (slots ps vs).map Prod.fst = ps := by
  rw [slots, List.map_map]
  exact List.zipIdx_map_fst 0 ps

/-- **The values of the parameters**, by name, are the arguments and fallbacks, in some order. -/
theorem perm_of_bind {args : Arguments} (hnames : (ps.map Parameter.name).Nodup)
    (h : bind owner ps args = .ok ws) :
    ∃ ds : List (String × Value),
      (∀ d ∈ ds, ∃ p ∈ ps, p.name = d.1 ∧ p.fallback = some d.2) ∧
      ((ps.map Parameter.name).zip args.positional ++ args.named ++ ds).Perm
        ((ps.map Parameter.name).zip ws) ∧
      args.positional.length ≤ ps.length ∧ ws.length = ps.length := by
  rw [bind, bind_eq_ok_iff] at h
  obtain ⟨ss, hfill, h⟩ := h
  have hslots : ((slots ps args.positional).map fun s => s.1.name) = ps.map Parameter.name := by
    rw [← Function.comp_def Parameter.name, ← List.map_map, map_fst_slots]
  obtain ⟨hss, hgiven⟩ := perm_of_foldlM_fill (hslots ▸ hnames) hfill
  rw [map_fst_slots] at hss
  rw [given_slots] at hgiven
  dsimp only at h
  split at h
  · cases h
  · next hmost =>
    split at h
    · next hmissing =>
      obtain rfl : ss.filterMap slotValue = ws := Except.ok.inj h
      obtain ⟨ds, hds, hperm, hlength⟩ := @perm_values ss fun s hs hnone => by
        have hs' := List.filter_eq_nil_iff.mp (List.isEmpty_iff.mp hmissing) s hs
        simpa [hnone, ← Option.isSome_iff_ne_none] using hs'
      refine ⟨ds, fun d hd => ?_, ?_, Nat.not_lt.mp hmost, by simpa [← hss] using hlength⟩
      · obtain ⟨s, hs, hname⟩ := hds d hd
        exact ⟨s.1, hss ▸ List.mem_map_of_mem hs, hname⟩
      · have hssnames : (ss.map fun s => s.1.name) = ps.map Parameter.name := by
          rw [← hss, List.map_map]
          rfl
        rw [hssnames] at hperm
        exact (hgiven.symm.append_right ds).trans hperm
    · cases h

end Arguments

/-! ### Fields -/

/-- **Every field was read from its own value**, by its shape. -/
theorem Kind.forall₂_of_readFields {k : Kind} {schema : Schema} {ws : List Value}
    {fs : List (Field Tree)} (hlength : ws.length = schema.length)
    (h : k.readFields schema ws = (.ok fs : Except BuildFault (List (Field Tree)))) :
    List.Forall₂ (fun (e : (String × Shape) × Value) x =>
      e.1.2.read k.family (k.place e.1.1) e.2 = (.ok x : Except BuildFault (Field Tree)))
      (schema.zip ws) fs := by
  induction schema generalizing ws fs with
  | nil =>
    obtain rfl := List.length_eq_zero_iff.mp hlength
    cases h
    exact .nil
  | cons e schema ih =>
    obtain ⟨n, s⟩ := e
    obtain _ | ⟨w, ws⟩ := ws
    · simp at hlength
    · have hread : ∃ x rest, s.read k.family (k.place n) w = (.ok x : Except BuildFault _) ∧
          k.readFields schema ws = (.ok rest : Except BuildFault _) ∧ x :: rest = fs := by
        by_cases hs : s = .records
        · subst hs
          rw [readFields, bind_eq_ok_iff] at h
          obtain ⟨rest, hrest, h⟩ := h
          obtain ⟨x, hx, h⟩ := bind_eq_ok_iff.mp h
          exact ⟨x, rest, hx, hrest, Except.ok.inj h⟩
        · rw [readFields, bind_eq_ok_iff] at h
          · obtain ⟨x, hx, h⟩ := h
            obtain ⟨rest, hrest, h⟩ := bind_eq_ok_iff.mp h
            exact ⟨x, rest, hx, hrest, Except.ok.inj h⟩
          · exact hs
      obtain ⟨x, rest, hx, hrest, rfl⟩ := hread
      exact .cons hx (ih (Nat.succ.inj hlength) hrest)

theorem Kind.eq_of_build {k : Kind} {ws : List Value} {t : Tree}
    (h : k.build ws = (.ok t : Except BuildFault Tree)) :
    ∃ fs, k.readFields k.schema ws = (.ok fs : Except BuildFault (List (Field Tree))) ∧
      t = .node k fs := by
  obtain ⟨fs, hfs, h⟩ := bind_eq_ok_iff.mp h
  obtain ⟨-, -, h⟩ := bind_eq_ok_iff.mp h
  exact ⟨fs, hfs, (Except.ok.inj h).symm⟩

theorem Closure.eq_of_textAt {field : String} {v : Value} {s : String}
    (h : textAt field v = (.ok s : Except BuildFault String)) : v = .str s := by
  cases v <;> cases h
  rfl

theorem Closure.eq_of_build {name label free : Value} {c : Closure}
    (h : build name label free = (.ok c : Except BuildFault Closure)) :
    name = .str c.name ∧ label = .str c.label ∧
      Place.freeNames ⟨"Closure", "free", none⟩ free = (.ok c.free : Except BuildFault _) := by
  obtain ⟨n, hn, h⟩ := bind_eq_ok_iff.mp h
  obtain ⟨l, hl, h⟩ := bind_eq_ok_iff.mp h
  obtain ⟨ns, hns, h⟩ := bind_eq_ok_iff.mp h
  obtain rfl := Except.ok.inj h
  exact ⟨eq_of_textAt hn, eq_of_textAt hl, hns⟩

namespace Head

variable {h : Head} {named : List (String × Value)} {ws : List Value} {v : Value}

/-- Only the free variables of a record have a fallback. -/
theorem eq_of_fallback {p : Parameter} (hp : p ∈ h.parameters) (hv : p.fallback = some v) :
    h = .closure ∧ p.name = "free" ∧ v = .tuple [] := by
  obtain ⟨n, -, rfl⟩ := List.mem_map.mp hp
  split at hv
  · next hfree =>
    obtain rfl := Option.some.inj hv
    exact ⟨hfree.1, hfree.2, rfl⟩
  · cases hv

/-- The values of the fields, by name, are the arguments and fallbacks, in some order. -/
theorem perm_of_call (hv : h.call ⟨[], named⟩ = (.ok v : Except BuildFault Value)) :
    ∃ ws ds, h.build ws = (.ok v : Except BuildFault Value) ∧
      ws.length = h.fieldNames.length ∧ (named ++ ds).Perm (h.fieldNames.zip ws) ∧
      ∀ d ∈ ds, h = .closure ∧ d = ("free", .tuple []) := by
  obtain ⟨ws, hws, hbuild⟩ := bind_eq_ok_iff.mp hv
  rw [ofExcept_eq_ok_iff, mapError_eq_ok_iff] at hws
  obtain ⟨ds, hds, hperm, -, hlength⟩ :=
    Arguments.perm_of_bind (by simpa using h.nodup_fieldNames) hws
  rw [map_name_parameters, List.zip_nil_right, List.nil_append] at hperm
  refine ⟨ws, ds, hbuild, by simpa [parameters] using hlength, hperm, ?_⟩
  rintro ⟨n, w⟩ hd
  obtain ⟨p, hp, rfl, hw⟩ := hds (n, w) hd
  obtain ⟨hclosure, hname, rfl⟩ := eq_of_fallback hp hw
  exact ⟨hclosure, by rw [hname]⟩

/-- **What is built is a node or a record**, by what it is a description of. -/
theorem eq_of_build (hv : h.build ws = (.ok v : Except BuildFault Value)) :
    (∃ k t, h = .node k ∧ k.build ws = (.ok t : Except BuildFault Tree) ∧ v = .node t) ∨
      ∃ name label free c, h = .closure ∧ ws = [name, label, free] ∧
        Closure.build name label free = (.ok c : Except BuildFault Closure) ∧ v = .record c := by
  unfold build at hv
  split at hv
  · obtain ⟨t, ht, rfl⟩ := map_eq_ok_iff.mp hv
    exact .inl ⟨_, t, rfl, ht, rfl⟩
  · obtain ⟨c, hc, rfl⟩ := map_eq_ok_iff.mp hv
    exact .inr ⟨_, _, _, c, rfl, rfl, hc, rfl⟩
  · cases hv

end Head

end LoweringIR
