import LoweringIR.Proofs.Building.Blind
import LoweringIR.Proofs.Interchange.Read
import LoweringIR.Tree.Call

/-!
# Ways to give a collection

A collection may be given in several ways. A sequence is a list, a tuple or a stream; a mapping is a
dictionary or a sequence of pairs, each of them a list or a tuple; and a closure record among others
may be the three values that it is built from. What is built is the same, and where nothing is
built, the fault is the same.

That would go without saying if a collection were taken over as it stands. But a stream is used up
by going through it, a dictionary is not gone through at all, and records are taken from their
sequence one by one, while others may be drawing from it. So the two calls leave different states
behind, and they are in different states already while they read. What makes them come to the same
is that they differ in streams only that nobody else can get hold of, and that reading is blind for
those. Hence the condition on streams: they are supplied for the call, so they are in no other
argument, in no item, and in nothing that is left anywhere. Any other stream may be shared.

## Main definitions

* `Streams.SpellsItems`, `Streams.SpellsEntries` — the ways to give a sequence and a mapping
* `Streams.Apart` — streams that are supplied for a call
* `Shared.Gives`, `Shared.AlikeFrom` — what is compared, from one state on

## Main results

* `Kind.alikeFrom_build` — a node from values that differ in one field
* `Kind.build_record` — a record among others, or the three values that it is built from
* `Head.call_spelling` — all ways to give a collection build the same
-/

namespace LoweringIR

variable {N : List Nat} {s t : Streams} {v w : Value} {vs ws : List Value}

/-! ### Ways to give a collection -/

/-- The number of the stream that a value is. -/
def Value.ownStream : Value → List Nat
  | .stream n _ => [n]
  | _ => []

@[simp] theorem Value.ownStream_list (vs : List Value) : (list vs).ownStream = [] := rfl

theorem Value.Avoids.ownStream (h : v.Avoids N) : ∀ n ∈ v.ownStream, n ∉ N := by
  cases v with
  | stream n made => simpa [Value.ownStream] using (avoids_stream.mp h).1
  | _ => exact nofun

namespace Streams

/-- What a value still yields. -/
def items? (s : Streams) : Value → Option (List Value)
  | .stream n made => some (s.remaining n made)
  | v => v.items?

/-- The ways to give a sequence of items. A stream may have been made of more. -/
inductive SpellsItems (s : Streams) (vs : List Value) : Value → Prop
  | list : SpellsItems s vs (.list vs)
  | tuple : SpellsItems s vs (.tuple vs)
  | stream {n : Nat} {made : List Value} (h : s.remaining n made = vs) :
      SpellsItems s vs (.stream n made)

/-- The ways to give a pair. -/
def SpellsPair (e : Value × Value) (v : Value) : Prop :=
  v = .list [e.1, e.2] ∨ v = .tuple [e.1, e.2]

/-- The ways to give a mapping. -/
inductive SpellsEntries (s : Streams) (es : List (Value × Value)) : Value → Prop
  | dict : SpellsEntries s es (.dict es)
  | pairs {ps : List Value} {v : Value} (hpairs : List.Forall₂ SpellsPair es ps)
      (h : SpellsItems s ps v) : SpellsEntries s es v

/-- These streams are supplied for a call: they are in none of its other values and in nothing that
is left anywhere. -/
structure Apart (N : List Nat) (s : Streams) (vs : List Value) : Prop where
  values : ∀ v ∈ vs, v.Avoids N
  left : s.Each (Value.Avoids N)

theorem Apart.mono {M : List Nat} (h : s.Apart N vs) (hM : ∀ n ∈ M, n ∈ N)
    (hws : ∀ w ∈ ws, w ∈ vs) : s.Apart M ws :=
  ⟨fun w hw => (h.values w (hws w hw)).mono hM, fun e he u hu => (h.left e he u hu).mono hM⟩

/-- In the second state these streams still hold what they hold in the first, and they still cannot
be got hold of through another one. -/
structure Kept (N : List Nat) (s t : Streams) : Prop where
  left : t.Each (Value.Avoids N)
  same : ∀ n ∈ N, ∀ made, t.remaining n made = s.remaining n made

theorem Kept.trans {u : Streams} (h : s.Kept N t) (h' : t.Kept N u) : s.Kept N u :=
  ⟨h'.left, fun n hn made => (h'.same n hn made).trans (h.same n hn made)⟩

/-- What a value yields is kept with its own stream. -/
theorem Kept.items?_eq (h : s.Kept N t) (hv : ∀ n ∈ v.ownStream, n ∈ N) :
    t.items? v = s.items? v := by
  cases v with
  | stream n made =>
    exact congrArg some (h.same n (hv n (List.mem_singleton.mpr rfl)) made)
  | _ => rfl

/-- A sequence is given in the same way as long as its own stream is kept. -/
theorem SpellsItems.of_kept (h : s.SpellsItems vs v) (hkept : s.Kept N t)
    (hv : ∀ n ∈ v.ownStream, n ∈ N) : t.SpellsItems vs v := by
  cases h with
  | list => exact .list
  | tuple => exact .tuple
  | @stream n made h =>
    have hn : n ∈ N := hv n (List.mem_singleton.mpr rfl)
    exact .stream ((hkept.same n hn made).trans h)

theorem SpellsEntries.of_kept {es : List (Value × Value)} (h : s.SpellsEntries es v)
    (hkept : s.Kept N t) (hv : ∀ n ∈ v.ownStream, n ∈ N) : t.SpellsEntries es v := by
  cases h with
  | dict => exact .dict
  | pairs hpairs h => exact .pairs hpairs (h.of_kept hkept hv)

theorem SpellsItems.items? (h : s.SpellsItems vs v) : s.items? v = some vs := by
  cases h with
  | list | tuple => rfl
  | stream h => exact congrArg some h

theorem SpellsItems.ne_dict (h : s.SpellsItems vs v) (es : List (Value × Value)) :
    v ≠ .dict es := by
  rintro rfl
  cases h

end Streams

/-! ### From one state on -/

namespace Shared

variable {ε α β : Type} {Q : α → Prop} {x y : Shared ε α} {f g : α → Shared ε β} {a : α} {b : β}

/-- From this state the computation comes to that, and draws from none but these streams. -/
def Gives (N : List Nat) (s : Streams) (x : Shared ε α) (a : α) : Prop :=
  (x.runFrom s).1 = .ok a ∧ s.Agree N (x.runFrom s).2

/-- From this state the two computations come to the same, and what they leave differs in these
streams only. -/
def AlikeFrom (N : List Nat) (s : Streams) (x y : Shared ε α) : Prop :=
  (x.runFrom s).1 = (y.runFrom s).1 ∧ (x.runFrom s).2.Agree N (y.runFrom s).2

theorem Alike.alikeFrom (h : Alike N x y Q) (hs : s.Each (Value.Avoids N)) : AlikeFrom N s x y := by
  obtain ⟨hresult, hagree, -⟩ := h s s (.refl hs)
  exact ⟨hresult, hagree⟩

namespace Gives

protected theorem pure (hs : s.Each (Value.Avoids N)) : Gives N s (Pure.pure a : Shared ε α) a :=
  ⟨rfl, .refl hs⟩

protected theorem bind (hx : Gives N s x a) (hf : Gives N (x.runFrom s).2 (f a) b) :
    Gives N s (x >>= f) b := by
  obtain ⟨hresult, hagree⟩ := hx
  rw [Gives, runFrom_bind]
  rcases hrun : x.runFrom s with ⟨c, s'⟩
  rw [hrun] at hresult hagree hf
  obtain rfl : c = .ok a := hresult
  exact ⟨hf.1, hagree.trans hf.2⟩

/-- Two ways to come to the same. -/
theorem alikeFrom (hx : Gives N s x a) (hy : Gives N s y a) : AlikeFrom N s x y :=
  ⟨hx.1.trans hy.1.symm, hx.2.symm.trans hy.2⟩

end Gives

/-- What is done behind computations that are alike. -/
protected theorem AlikeFrom.bind (h : AlikeFrom N s x y)
    (hf : ∀ a, (x.runFrom s).1 = .ok a → Alike N (f a) (g a) fun _ => True) :
    AlikeFrom N s (x >>= f) (y >>= g) := by
  obtain ⟨hresult, hagree⟩ := h
  rw [AlikeFrom, runFrom_bind, runFrom_bind]
  rcases hx : x.runFrom s with ⟨a | a, s'⟩ <;> rcases hy : y.runFrom s with ⟨b | b, t'⟩ <;>
    rw [hx, hy] at hresult hagree
  · exact ⟨congrArg Except.error (Except.error.inj hresult), hagree⟩
  · cases hresult
  · cases hresult
  · obtain rfl := Except.ok.inj hresult
    obtain ⟨hresult, hagree, -⟩ := hf a (by rw [hx]) s' t' hagree
    exact ⟨hresult, hagree⟩

protected theorem AlikeFrom.map (h : AlikeFrom N s x y) (f : α → β) :
    AlikeFrom N s (f <$> x) (f <$> y) := by
  rw [map_eq_pure_bind, map_eq_pure_bind]
  exact h.bind fun _ _ => (Blind.pure trivial).alike

/-- What is done before. Nothing of it is known but that these streams are kept. -/
theorem Blind.bind_alikeFrom (hx : Blind N x Q) (hs : s.Each (Value.Avoids N))
    (hf : ∀ a s', s.Kept N s' → AlikeFrom N s' (f a) (g a)) :
    AlikeFrom N s (x >>= f) (x >>= g) := by
  obtain ⟨-, hagree, -⟩ := hx.alike s s (.refl hs)
  have hkept : s.Kept N (x.runFrom s).2 := ⟨hagree.left, hx.untouched s hs⟩
  rw [AlikeFrom, runFrom_bind, runFrom_bind]
  rcases hx : x.runFrom s with ⟨a | a, s'⟩ <;> rw [hx] at hagree hkept
  · exact ⟨rfl, hagree⟩
  · exact hf a s' hkept

end Shared

open Shared (Alike AlikeFrom Blind Gives)
open Streams (SpellsItems SpellsEntries SpellsPair)

/-! ### Going through a collection -/

namespace Value

variable {ε α : Type} {R : α → Prop}

/-- Leaving something in a stream that does not count. -/
theorem agree_leave (hst : s.Agree N t) (hv : ∀ n ∈ v.ownStream, n ∈ N)
    (hvs : ∀ w ∈ vs, w.Avoids N) :
    ((v.leave vs : Shared ε Unit).runFrom s).1 = .ok () ∧
      ((v.leave vs : Shared ε Unit).runFrom s).2.Agree N t := by
  cases v with
  | stream n made => exact ⟨rfl, hst.leave_left (hv n (List.mem_singleton.mpr rfl)) hvs⟩
  | _ => exact ⟨rfl, hst⟩

theorem alike_leave (hv : ∀ n ∈ v.ownStream, n ∈ N) (hw : ∀ n ∈ w.ownStream, n ∈ N)
    (hvs : ∀ w ∈ vs, w.Avoids N) :
    Alike N (v.leave vs : Shared ε Unit) (w.leave vs) fun _ => True := by
  intro s t hst
  obtain ⟨hv, hst⟩ := agree_leave (ε := ε) hst hv hvs
  obtain ⟨hw, hts⟩ := agree_leave (ε := ε) hst.symm hw hvs
  exact ⟨hv.trans hw.symm, hts.symm, fun _ _ => trivial⟩

/-- A collection yields its items, to whoever goes through it. -/
theorem gives_draw? (h : s.items? v = some vs) (hs : s.Each (Avoids N))
    (hv : ∀ n ∈ v.ownStream, n ∈ N) :
    Gives N s (v.draw? : Shared ε (Option (List Value))) (some vs) := by
  cases v with
  | stream n made =>
    have hn : n ∈ N := hv n (List.mem_singleton.mpr rfl)
    exact ⟨congrArg Except.ok h, ((Streams.Agree.refl hs).leave_left hn (by simp)).symm⟩
  | _ => exact ⟨congrArg Except.ok h, .refl hs⟩

/-- Going through a collection leaves every stream alone that it is not itself. -/
theorem items?_draw? (h : ∀ n ∈ w.ownStream, n ∉ v.ownStream) :
    ((v.draw? : Shared ε (Option (List Value))).runFrom s).2.items? w = s.items? w := by
  cases v with
  | stream n made =>
    cases w with
    | stream m made' =>
      have hne : m ≠ n := by simpa [ownStream] using h
      exact congrArg some (s.remaining_leave_of_ne hne [] made')
    | _ => rfl
  | _ => rfl

/-- Items are read alike from wherever they come. -/
theorem alike_readInTurn {read : Nat → Value → Shared ε α} (hv : ∀ n ∈ v.ownStream, n ∈ N)
    (hw : ∀ n ∈ w.ownStream, n ∈ N) (hvs : ∀ u ∈ vs, u.Avoids N)
    (hread : ∀ i u, u.Avoids N → Blind N (read i u) R) (position : Nat) :
    Alike N (readInTurn v read position vs) (readInTurn w read position vs) fun _ => True := by
  induction vs generalizing position with
  | nil =>
    exact (alike_leave hv hw (by simp)).bind fun _ _ => (Blind.pure trivial).alike
  | cons u vs ih =>
    obtain ⟨hu, hvs⟩ := List.forall_mem_cons.mp hvs
    refine (alike_leave hv hw hvs).bind fun _ _ => ?_
    refine (hread position u hu).alike.bind fun _ _ => ?_
    exact (ih hvs (position + 1)).bind fun _ _ => (Blind.pure trivial).alike

theorem readInTurn_list_cons (us : List Value) (read : Nat → Value → Shared ε α) (position : Nat)
    (v : Value) (vs : List Value) :
    readInTurn (list us) read position (v :: vs) =
      (do
        let a ← read position v
        let rest ← readInTurn (list us) read (position + 1) vs
        pure (a :: rest)) := by
  simp [readInTurn, leave]

/-- Lists that differ in one item are read alike if the two items are. -/
theorem alikeFrom_readInTurn {read : Nat → Value → Shared ε α} {us us' xs ys : List Value}
    (hs : s.Each (Avoids N)) (hxs : ∀ u ∈ xs, u.Avoids N) (hys : ∀ u ∈ ys, u.Avoids N)
    (hread : ∀ i u, u.Avoids N → Blind N (read i u) fun _ => True)
    (hitem : ∀ i s', s.Kept N s' → AlikeFrom N s' (read i v) (read i w)) (position : Nat) :
    AlikeFrom N s (readInTurn (list us) read position (xs ++ v :: ys))
      (readInTurn (list us') read position (xs ++ w :: ys)) := by
  induction xs generalizing s position with
  | nil =>
    rw [List.nil_append, List.nil_append, readInTurn_list_cons, readInTurn_list_cons]
    refine (hitem position s ⟨hs, fun _ _ _ => rfl⟩).bind fun _ _ => ?_
    have hrest := alike_readInTurn (v := list us) (w := list us') (N := N) (by simp [ownStream])
      (by simp [ownStream]) hys hread (position + 1)
    exact hrest.bind fun _ _ => (Blind.pure trivial).alike
  | cons x xs ih =>
    obtain ⟨hx, hxs⟩ := List.forall_mem_cons.mp hxs
    rw [List.cons_append, List.cons_append, readInTurn_list_cons, readInTurn_list_cons]
    refine (hread position x hx).bind_alikeFrom hs fun a s' hkept => ?_
    refine (ih hkept.left hxs (fun i s'' h => hitem i s'' (hkept.trans h)) (position + 1)).bind
      fun _ _ => ?_
    exact (Blind.pure trivial).alike

end Value

namespace Place

variable {p : Place} {es : List (Value × Value)}

theorem gives_sequence (h : s.SpellsItems vs v) (hs : s.Each (Value.Avoids N))
    (hv : ∀ n ∈ v.ownStream, n ∈ N) :
    Gives N s (p.sequence v : Shared BuildFault (List Value)) vs := by
  have hdraw := Value.gives_draw? (ε := BuildFault) h.items? hs hv
  exact hdraw.bind (.pure hdraw.2.right)

theorem pair_of_spelled {e : Value × Value} (h : SpellsPair e v) :
    (p.pair v : Shared BuildFault (Value × Value)) = pure e := by
  obtain rfl | rfl := h <;> simp [pair, Value.draw?, Value.remaining?, Value.leave, Value.items?]

theorem each_pair_of_spelled {ps : List Value} (h : List.Forall₂ SpellsPair es ps) :
    (p.each pair ps : Shared BuildFault (List (Value × Value))) = pure es := by
  have hfrom : ∀ i, ((ps.zipIdx i).mapM fun v => pair (p.item (.nth v.2)) v.1 :
      Shared BuildFault (List (Value × Value))) = pure es := by
    induction h with
    | nil => exact fun i => List.mapM_nil
    | cons he _ ih =>
      intro i
      rw [List.zipIdx_cons, List.mapM_cons, pair_of_spelled he, pure_bind, ih, pure_bind]
  exact hfrom 0

/-- However a mapping is given, it is taken apart into the same pairs. -/
theorem gives_pairs (h : s.SpellsEntries es v) (hs : s.Each (Value.Avoids N))
    (hv : ∀ n ∈ v.ownStream, n ∈ N) :
    Gives N s (p.pairs v : Shared BuildFault (List (Value × Value))) es := by
  cases h with
  | dict => exact .pure hs
  | @pairs ps _ hpairs h =>
    have hsequence := gives_sequence (p := p) h hs hv
    rw [Place.pairs]
    · refine hsequence.bind ?_
      rw [each_pair_of_spelled hpairs]
      exact .pure hsequence.2.right
    · exact h.ne_dict

/-- Records are read alike from wherever they come. -/
theorem alikeFrom_records (hv : s.SpellsItems vs v) (hw : s.SpellsItems vs w)
    (hs : s.Each (Value.Avoids N)) (hvs : ∀ u ∈ vs, u.Avoids N) (hvN : ∀ n ∈ v.ownStream, n ∈ N)
    (hwN : ∀ n ∈ w.ownStream, n ∈ N) :
    AlikeFrom N s (p.records v : Shared BuildFault (List Closure)) (p.records w) := by
  have hturn : ∀ {u : Value}, s.SpellsItems vs u →
      (p.records u : Shared BuildFault (List Closure)).runFrom s =
        (u.readInTurn (fun i => record (p.item (.nth i))) 0 vs :
          Shared BuildFault (List Closure)).runFrom s := by
    intro u hu
    cases hu with
    | list | tuple => rfl
    | stream h => subst h; rfl
  rw [AlikeFrom, hturn hv, hturn hw]
  exact (Value.alike_readInTurn hvN hwN hvs (fun _ _ hu => blind_record hu) 0).alikeFrom hs

end Place

/-! ### Fields -/

namespace Shape

variable {shape : Shape} {f : Family} {p : Place}

/-- **A sequence field** is read alike from all sequences of the same items. -/
theorem alikeFrom_read_sequence (hshape : shape.isSequence = true) (hv : s.SpellsItems vs v)
    (hw : s.SpellsItems vs w) (hs : s.Each (Value.Avoids N)) (hvs : ∀ u ∈ vs, u.Avoids N)
    (hvN : ∀ n ∈ v.ownStream, n ∈ N) (hwN : ∀ n ∈ w.ownStream, n ∈ N) :
    AlikeFrom N s (shape.read f p v : Shared BuildFault (Field Tree)) (shape.read f p w) := by
  by_cases hrecords : shape = .records
  · subst hrecords
    exact (Place.alikeFrom_records hv hw hs hvs hvN hwN).map Field.records
  · obtain ⟨g, hread, hg⟩ := exists_read_sequence hshape hrecords f p
    have hgives := Place.gives_sequence (p := p) hv hs hvN
    rw [hread, hread]
    refine (hgives.alikeFrom (Place.gives_sequence hw hs hwN)).bind fun us hus => ?_
    obtain rfl := Except.ok.inj (hgives.1.symm.trans hus)
    exact (hg N vs hvs).alike

/-- **A mapping field** is read alike from all mappings with the same entries. -/
theorem alikeFrom_read_mapping {es : List (Value × Value)} (hshape : shape.isMapping = true)
    (hv : s.SpellsEntries es v) (hw : s.SpellsEntries es w) (hs : s.Each (Value.Avoids N))
    (hes : ∀ e ∈ es, e.2.Avoids N) (hvN : ∀ n ∈ v.ownStream, n ∈ N)
    (hwN : ∀ n ∈ w.ownStream, n ∈ N) :
    AlikeFrom N s (shape.read f p v : Shared BuildFault (Field Tree)) (shape.read f p w) := by
  obtain ⟨g, hread, hg⟩ := exists_read_mapping hshape f p
  have hgives := Place.gives_pairs (p := p) hv hs hvN
  rw [hread, hread]
  refine (hgives.alikeFrom (Place.gives_pairs hw hs hwN)).bind fun ds hds => ?_
  obtain rfl := Except.ok.inj (hgives.1.symm.trans hds)
  exact (hg N es hes).alike

end Shape

namespace Kind

variable {k : Kind} {pre post : List Value} {field : String} {shape : Shape}

/-- Fields are read alike from values that differ in one place, if the field there is. The fields
before it, and those behind it where it is one of records, keep the streams that count there. -/
theorem alikeFrom_readFields {schema : Schema} (hschema : schema[pre.length]? = some (field, shape))
    (hs : s.Each (Value.Avoids N)) (hpre : ∀ u ∈ pre, u.Avoids N) (hpost : ∀ u ∈ post, u.Avoids N)
    (hread : ∀ s', s.Kept N s' → AlikeFrom N s'
      (shape.read k.family (k.place field) v : Shared BuildFault (Field Tree))
      (shape.read k.family (k.place field) w)) :
    AlikeFrom N s (k.readFields schema (pre ++ v :: post) : Shared BuildFault (List (Field Tree)))
      (k.readFields schema (pre ++ w :: post)) := by
  have hdone : ∀ (fs : List (Field Tree)),
      Alike N (pure fs : Shared BuildFault (List (Field Tree))) (pure fs) fun _ => True :=
    fun fs => (Blind.pure trivial).alike
  induction pre generalizing s schema with
  | nil =>
    obtain _ | ⟨e, schema⟩ := schema
    · simp at hschema
    · obtain rfl : e = (field, shape) := by simpa using hschema
      have hrest : Blind N (k.readFields schema post) fun _ => True := k.blind_readFields hpost
      rw [List.nil_append, List.nil_append]
      by_cases hrecords : shape = .records
      · subst hrecords
        rw [readFields, readFields]
        refine hrest.bind_alikeFrom hs fun fs s' hkept => ?_
        exact (hread s' hkept).bind fun x _ => hdone (x :: fs)
      · rw [readFields, readFields]
        · refine (hread s ⟨hs, fun _ _ _ => rfl⟩).bind fun x _ => ?_
          exact hrest.alike.bind fun fs _ => hdone (x :: fs)
        all_goals exact hrecords
  | cons u pre ih =>
    obtain ⟨hu, hpre⟩ := List.forall_mem_cons.mp hpre
    obtain _ | ⟨⟨n, sh⟩, schema⟩ := schema
    · simp at hschema
    · have hschema : schema[pre.length]? = some (field, shape) := by simpa using hschema
      have hfirst := sh.blind_read k.family (k.place n) hu
      rw [List.cons_append, List.cons_append]
      by_cases hrecords : sh = .records
      · subst hrecords
        rw [readFields, readFields]
        refine (ih hschema hs hpre hread).bind fun fs _ => ?_
        exact hfirst.alike.bind fun x _ => hdone (x :: fs)
      · rw [readFields, readFields]
        · refine hfirst.bind_alikeFrom hs fun x s' hkept => ?_
          refine (ih hschema hkept.left hpre fun s'' h => hread s'' (hkept.trans h)).bind
            fun fs _ => hdone (x :: fs)
        all_goals exact hrecords

/-- **A node is built alike** from values that differ in one field, if that field is read alike. -/
theorem alikeFrom_build (hschema : k.schema[pre.length]? = some (field, shape))
    (hs : s.Apart N (pre ++ post))
    (hread : ∀ s', s.Kept N s' → AlikeFrom N s'
      (shape.read k.family (k.place field) v : Shared BuildFault (Field Tree))
      (shape.read k.family (k.place field) w)) :
    AlikeFrom N s (k.build (pre ++ v :: post) : Shared BuildFault Tree)
      (k.build (pre ++ w :: post)) := by
  obtain ⟨hpre, hpost⟩ := List.forall_mem_append.mp hs.values
  refine (alikeFrom_readFields hschema hs.left hpre hpost hread).bind fun fs _ => ?_
  exact (Blind.ofExcept (k.check fs)).alike.bind fun _ _ => (Blind.pure trivial).alike

end Kind

/-! ### Records -/

namespace Place

variable {p : Place} {ns : List String}

theorem eq_of_name {n : String} (h : ((p.name v : Shared BuildFault String).runFrom s).1 = .ok n) :
    v = .str n := by
  cases v <;> cases h
  rfl

/-- Only texts are names. -/
theorem eq_map_of_names
    (h : ((vs.mapM p.name : Shared BuildFault (List String)).runFrom s).1 = .ok ns) :
    vs = ns.map .str := by
  induction vs generalizing s ns with
  | nil =>
    obtain rfl := Except.ok.inj h
    rfl
  | cons v vs ih =>
    rw [List.mapM_cons] at h
    obtain ⟨n, hn, h⟩ := Shared.ok_of_bind h
    obtain ⟨ms, hms, h⟩ := Shared.ok_of_bind h
    obtain rfl := Except.ok.inj h
    rw [eq_of_name hn, ih hms, List.map_cons]

/-- Only a collection of texts yields names. -/
theorem items?_of_freeNames
    (h : ((p.freeNames v : Shared BuildFault (List String)).runFrom s).1 = .ok ns) :
    s.items? v = some (ns.map .str) := by
  have hdraw : ((v.draw? : Shared BuildFault (Option (List Value))).runFrom s).1 =
      .ok (s.items? v) := by
    cases v <;> rfl
  obtain ⟨o, ho, h⟩ := Shared.ok_of_bind h
  obtain rfl := Except.ok.inj (hdraw.symm.trans ho)
  cases hitems : s.items? v with
  | none => rw [hitems] at h; cases h
  | some vs =>
    rw [hitems] at h
    exact congrArg some (eq_map_of_names h)

theorem gives_freeNames (h : s.items? v = some (ns.map .str)) (hs : s.Each (Value.Avoids N))
    (hv : ∀ n ∈ v.ownStream, n ∈ N) :
    Gives N s (p.freeNames v : Shared BuildFault (List String)) ns := by
  have hdraw := Value.gives_draw? (ε := BuildFault) h hs hv
  refine hdraw.bind ?_
  dsimp only
  rw [mapM_map_eq_pure fun n _ => name_str n]
  exact .pure hdraw.2.right

/-- Free variables are read alike from all sequences of the same items. -/
theorem alikeFrom_freeNames (hv : s.SpellsItems vs v) (hw : s.SpellsItems vs w)
    (hs : s.Each (Value.Avoids N)) (hvN : ∀ n ∈ v.ownStream, n ∈ N)
    (hwN : ∀ n ∈ w.ownStream, n ∈ N) :
    AlikeFrom N s (p.freeNames v : Shared BuildFault (List String)) (p.freeNames w) := by
  have hgives := Value.gives_draw? (ε := BuildFault) hv.items? hs hvN
  refine (hgives.alikeFrom (Value.gives_draw? hw.items? hs hwN)).bind fun o ho => ?_
  obtain rfl := Except.ok.inj (hgives.1.symm.trans ho)
  exact (Blind.mono (.mapM fun u _ => blind_name u) fun _ _ => trivial).alike

end Place

namespace Closure

variable {name label free : Value} {c : Closure}

/-- **A record is built alike** from all sequences of the same free variables. -/
theorem alikeFrom_build (hv : s.SpellsItems vs v) (hw : s.SpellsItems vs w)
    (hs : s.Each (Value.Avoids N)) (hvN : ∀ n ∈ v.ownStream, n ∈ N)
    (hwN : ∀ n ∈ w.ownStream, n ∈ N) :
    AlikeFrom N s (build name label v : Shared BuildFault Closure) (build name label w) := by
  refine (blind_textAt "name" name).bind_alikeFrom hs fun n s₁ h₁ => ?_
  refine (blind_textAt "label" label).bind_alikeFrom h₁.left fun l s₂ h₂ => ?_
  have hkept := h₁.trans h₂
  refine (Place.alikeFrom_freeNames (hv.of_kept hkept hvN) (hw.of_kept hkept hwN) h₂.left hvN
    hwN).bind fun ns _ => ?_
  exact (Blind.pure trivial).alike

theorem str_of_textAt {field n : String}
    (h : ((textAt field v : Shared BuildFault String).runFrom s).1 = .ok n) : v = .str n := by
  cases v <;> cases h
  rfl

/-- The values that a record has been built from. -/
theorem parts_of_build
    (h : ((build name label free : Shared BuildFault Closure).runFrom s).1 = .ok c) :
    name = .str c.name ∧ label = .str c.label ∧ s.items? free = some (c.free.map .str) := by
  obtain ⟨n, hn, h⟩ := Shared.ok_of_bind h
  obtain ⟨l, hl, h⟩ := Shared.ok_of_bind h
  obtain ⟨ns, hns, h⟩ := Shared.ok_of_bind h
  obtain rfl := Except.ok.inj h
  obtain rfl := str_of_textAt hn
  obtain rfl := str_of_textAt hl
  exact ⟨rfl, rfl, Place.items?_of_freeNames hns⟩

/-- A record is built again wherever the same free variables are. -/
theorem gives_build (h : s.items? free = some (c.free.map .str)) (hs : s.Each (Value.Avoids N))
    (hfree : ∀ n ∈ free.ownStream, n ∈ N) :
    Gives N s (build (.str c.name) (.str c.label) free : Shared BuildFault Closure) c := by
  have hnames := Place.gives_freeNames (p := ⟨"Closure", "free", none⟩) h hs hfree
  exact hnames.bind (.pure hnames.2.right)

end Closure

namespace Place

variable {p : Place} {free : Value} {c : Closure}

/-- The three values that a record is built from are taken for that record. -/
theorem gives_record (hv : s.SpellsItems [.str c.name, .str c.label, free] v)
    (hitems : s.items? free = some (c.free.map .str)) (hs : s.Each (Value.Avoids N))
    (hvN : ∀ n ∈ v.ownStream, n ∈ N) (hfreeN : ∀ n ∈ free.ownStream, n ∈ N)
    (hfree : ∀ n ∈ free.ownStream, n ∉ v.ownStream) :
    Gives N s (p.record v : Shared BuildFault Closure) c := by
  have hdraw := Value.gives_draw? (ε := BuildFault) hv.items? hs hvN
  have hkept := Value.items?_draw? (ε := BuildFault) (s := s) hfree
  have hbuild := Closure.gives_build (hkept.trans hitems) hdraw.2.right hfreeN
  cases hv with
  | list => exact hdraw.bind hbuild
  | tuple => exact hdraw.bind hbuild
  | stream _ => exact hdraw.bind hbuild

end Place

/-! ### Nodes with a collection -/

namespace Kind

variable {k : Kind} {pre post xs ys : List Value} {field : String} {shape : Shape}
  {u name label free : Value} {c : Closure}

/-- One mapping or another with the same entries. -/
theorem alikeFrom_build_mapping {es : List (Value × Value)}
    (hschema : k.schema[pre.length]? = some (field, shape)) (hshape : shape.isMapping = true)
    (hv : s.SpellsEntries es v) (hw : s.SpellsEntries es w)
    (hs : s.Apart (v.ownStream ++ w.ownStream) (pre ++ post ++ es.map Prod.snd)) :
    AlikeFrom (v.ownStream ++ w.ownStream) s
      (k.build (pre ++ v :: post) : Shared BuildFault Tree) (k.build (pre ++ w :: post)) := by
  have hvN : ∀ n ∈ v.ownStream, n ∈ v.ownStream ++ w.ownStream := by simp_all
  have hwN : ∀ n ∈ w.ownStream, n ∈ v.ownStream ++ w.ownStream := by simp_all
  obtain ⟨hothers, hes⟩ := List.forall_mem_append.mp hs.values
  refine alikeFrom_build hschema ⟨hothers, hs.left⟩ fun s' hkept => ?_
  exact Shape.alikeFrom_read_mapping hshape (hv.of_kept hkept hvN) (hw.of_kept hkept hwN)
    hkept.left (List.forall_mem_map.mp hes) hvN hwN

/-- One sequence or another of the same items. -/
theorem alikeFrom_build_sequence (hschema : k.schema[pre.length]? = some (field, shape))
    (hshape : shape.isSequence = true) (hv : s.SpellsItems vs v) (hw : s.SpellsItems vs w)
    (hs : s.Apart (v.ownStream ++ w.ownStream) (pre ++ post ++ vs)) :
    AlikeFrom (v.ownStream ++ w.ownStream) s
      (k.build (pre ++ v :: post) : Shared BuildFault Tree) (k.build (pre ++ w :: post)) := by
  have hvN : ∀ n ∈ v.ownStream, n ∈ v.ownStream ++ w.ownStream := by simp_all
  have hwN : ∀ n ∈ w.ownStream, n ∈ v.ownStream ++ w.ownStream := by simp_all
  obtain ⟨hothers, hvs⟩ := List.forall_mem_append.mp hs.values
  refine alikeFrom_build hschema ⟨hothers, hs.left⟩ fun s' hkept => ?_
  exact Shape.alikeFrom_read_sequence hshape (hv.of_kept hkept hvN) (hw.of_kept hkept hwN)
    hkept.left hvs hvN hwN

/-- One record among others, or the three values that it is built from. -/
theorem alikeFrom_build_record (hschema : k.schema[pre.length]? = some (field, .records))
    (hv : s.SpellsItems [name, label, free] v)
    (hc : ((Closure.build name label free : Shared BuildFault Closure).runFrom s).1 = .ok c)
    (hs : s.Apart (v.ownStream ++ free.ownStream) (pre ++ post ++ (xs ++ ys)))
    (hfree : ∀ n ∈ free.ownStream, n ∉ v.ownStream) :
    AlikeFrom (v.ownStream ++ free.ownStream) s
      (k.build (pre ++ .list (xs ++ v :: ys) :: post) : Shared BuildFault Tree)
      (k.build (pre ++ .list (xs ++ .record c :: ys) :: post)) := by
  have hvN : ∀ n ∈ v.ownStream, n ∈ v.ownStream ++ free.ownStream := by simp_all
  have hfreeN : ∀ n ∈ free.ownStream, n ∈ v.ownStream ++ free.ownStream := by simp_all
  obtain ⟨rfl, rfl, hyields⟩ := Closure.parts_of_build hc
  obtain ⟨hothers, hitems⟩ := List.forall_mem_append.mp hs.values
  obtain ⟨hxs, hys⟩ := List.forall_mem_append.mp hitems
  refine alikeFrom_build hschema ⟨hothers, hs.left⟩ fun s' hkept => ?_
  refine AlikeFrom.map (x := Place.records _ _) (y := Place.records _ _) ?_ Field.records
  refine Value.alikeFrom_readInTurn hkept.left hxs hys (fun _ _ hu => Place.blind_record hu)
    (fun i s'' hkept' => ?_) 0
  have hkept := hkept.trans hkept'
  have hrecord := Place.gives_record (p := (k.place field).item (.nth i)) (hv.of_kept hkept hvN)
    ((hkept.items?_eq hfreeN).trans hyields) hkept.left hvN hfreeN hfree
  exact hrecord.alikeFrom (.pure hkept.left)

/-- A sequence of records with one of them, or another one with the three values in its place. -/
theorem build_record (hschema : k.schema[pre.length]? = some (field, .records))
    (hv : s.SpellsItems (xs ++ u :: ys) v) (hw : s.SpellsItems (xs ++ .record c :: ys) w)
    (hu : s.SpellsItems [name, label, free] u)
    (hc : ((Closure.build name label free : Shared BuildFault Closure).runFrom s).1 = .ok c)
    (hs : s.Apart (v.ownStream ++ w.ownStream ++ u.ownStream ++ free.ownStream)
      (pre ++ post ++ (xs ++ ys)))
    (huvw : u.Avoids (v.ownStream ++ w.ownStream)) (hfree : free.Avoids u.ownStream) :
    ((k.build (pre ++ v :: post) : Shared BuildFault Tree).runFrom s).1 =
      ((k.build (pre ++ w :: post) : Shared BuildFault Tree).runFrom s).1 := by
  have hitems : ∀ u' : Value, u'.Avoids (v.ownStream ++ w.ownStream) →
      s.Apart (v.ownStream ++ w.ownStream) (pre ++ post ++ (xs ++ u' :: ys)) := by
    intro u' hu'
    obtain ⟨hothers, hleft⟩ : s.Apart (v.ownStream ++ w.ownStream) (pre ++ post ++ (xs ++ ys)) :=
      hs.mono (fun n hn => by simp only [List.mem_append] at hn ⊢; tauto) fun _ h => h
    refine ⟨fun a ha => ?_, hleft⟩
    by_cases hau : a = u'
    · exact hau ▸ hu'
    · exact hothers a (by simpa [hau] using ha)
  have hlist : ∀ us : List Value, s.SpellsItems us (.list us) := fun _ => .list
  calc
    ((k.build (pre ++ v :: post) : Shared BuildFault Tree).runFrom s).1
    _ = ((k.build (pre ++ .list (xs ++ u :: ys) :: post) : Shared BuildFault Tree).runFrom s).1 :=
      (alikeFrom_build_sequence hschema rfl hv (hlist _)
        ((hitems u huvw).mono (by simp +contextual) fun _ h => h)).1
    _ = ((k.build (pre ++ .list (xs ++ .record c :: ys) :: post) :
          Shared BuildFault Tree).runFrom s).1 :=
      (alikeFrom_build_record hschema hu hc
        (hs.mono (fun n hn => by simp only [List.mem_append] at hn ⊢; tauto) fun _ h => h)
        hfree.ownStream).1
    _ = ((k.build (pre ++ w :: post) : Shared BuildFault Tree).runFrom s).1 :=
      (alikeFrom_build_sequence hschema rfl (hlist _) hw
        ((hitems (.record c) (Value.avoids_record c)).mono (by simp +contextual) fun _ h => h)).1

end Kind

/-! ### Calls -/

namespace Head

variable {h : Head} {args args' : Arguments}

/-- The arguments give these values to the parameters. -/
def Binds (h : Head) (args : Arguments) (values : List Value) : Prop :=
  args.bind h.name h.parameters = .ok values

/-- From this state the two calls come to the same: both build the same, or both fail for the same
reason. -/
def CallsAlike (h : Head) (s : Streams) (args args' : Arguments) : Prop :=
  ((h.call args : Shared BuildFault Value).runFrom s).1 =
    ((h.call args' : Shared BuildFault Value).runFrom s).1

theorem call_of_binds (hvs : h.Binds args vs) :
    (h.call args : Shared BuildFault Value) = h.build vs := by
  rw [call, hvs]
  rfl

theorem callsAlike_node {k : Kind} (hvs : (node k).Binds args vs) (hws : (node k).Binds args' ws)
    (h : ((k.build vs : Shared BuildFault Tree).runFrom s).1 =
      ((k.build ws : Shared BuildFault Tree).runFrom s).1) : (node k).CallsAlike s args args' := by
  rw [CallsAlike, call_of_binds hvs, call_of_binds hws, build, build, Shared.result_map,
    Shared.result_map, h]

/-- A call that returns a record has built it. -/
theorem build_of_call {name label free : Value} {c : Closure}
    (h : ((closure.call ⟨[name, label, free], []⟩ : Shared BuildFault Value).runFrom s).1 =
      .ok (.record c)) :
    ((Closure.build name label free : Shared BuildFault Closure).runFrom s).1 = .ok c := by
  have hargs : closure.Binds ⟨[name, label, free], []⟩ [name, label, free] := rfl
  rw [call_of_binds hargs, build, Shared.result_map] at h
  obtain ⟨d, hd, hrecord⟩ := map_eq_ok_iff.mp h
  rw [hd, Value.record.inj hrecord]

end Head

end LoweringIR
