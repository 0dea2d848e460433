import LoweringIR.Proofs.Building.Ensures

/-!
# Streams that reading does not meet

Whoever reads a value draws from the streams in it, at any depth, and from whatever streams are left
in those. He cannot know of any other. So if there are some streams that are in none of the values
he reads and in nothing that is left anywhere, he does not see what is in them: he comes to the same
in two states that differ in nothing else, and leaves two such states. And he takes nothing from
them, so they still hold what they held.

This is said of one computation in two states, and of two computations that are meant to come to the
same, such as going through a stream and going through a list of the same items.

## Main definitions

* `Value.Avoids` — none of some streams is in a value
* `Streams.Agree` — two states that differ in these streams only
* `Shared.Alike` — two computations that come to the same in such states
* `Shared.Blind` — a computation that does not meet these streams

## Main results

* `Shared.Alike.bind`, `Shared.Blind.bind`, `Shared.Blind.mapM` — one thing after another
* `Shape.blind_read` — reading a value by the shape of its field
-/

namespace LoweringIR

variable {N : List Nat}

/-! ### The streams in a value -/

namespace Value

mutual

/-- The numbers of the streams in a value. -/
def streams : Value → List Nat
  | list vs => streamsAmong vs
  | tuple vs => streamsAmong vs
  | stream n vs => n :: streamsAmong vs
  | dict es => streamsInEntries es
  | _ => []

/-- The numbers of the streams in values. -/
def streamsAmong : List Value → List Nat
  | [] => []
  | v :: vs => streams v ++ streamsAmong vs

/-- The numbers of the streams in the keys and values of entries. -/
def streamsInEntries : List (Value × Value) → List Nat
  | [] => []
  | e :: es => streams e.1 ++ streams e.2 ++ streamsInEntries es

end

theorem streamsAmong_eq (vs : List Value) : streamsAmong vs = vs.flatMap streams := by
  induction vs with
  | nil => rfl
  | cons v vs ih => rw [streamsAmong, ih, List.flatMap_cons]

theorem streamsInEntries_eq (es : List (Value × Value)) :
    streamsInEntries es = es.flatMap fun e => e.1.streams ++ e.2.streams := by
  induction es with
  | nil => rfl
  | cons e es ih => rw [streamsInEntries, ih, List.flatMap_cons]

/-- None of these streams is in the value. -/
def Avoids (N : List Nat) (v : Value) : Prop := ∀ n ∈ v.streams, n ∉ N

instance (N : List Nat) (v : Value) : Decidable (v.Avoids N) :=
  inferInstanceAs (Decidable (∀ n ∈ v.streams, n ∉ N))

variable {v : Value} {vs : List Value}

@[simp] theorem avoids_list : (list vs).Avoids N ↔ ∀ v ∈ vs, v.Avoids N := by
  simp only [Avoids, streams, streamsAmong_eq, List.forall_mem_flatMap]

@[simp] theorem avoids_tuple : (tuple vs).Avoids N ↔ ∀ v ∈ vs, v.Avoids N := by
  simp only [Avoids, streams, streamsAmong_eq, List.forall_mem_flatMap]

@[simp] theorem avoids_stream {n : Nat} :
    (stream n vs).Avoids N ↔ n ∉ N ∧ ∀ v ∈ vs, v.Avoids N := by
  simp only [Avoids, streams, streamsAmong_eq, List.forall_mem_cons, List.forall_mem_flatMap]

@[simp] theorem avoids_dict {es : List (Value × Value)} :
    (dict es).Avoids N ↔ ∀ e ∈ es, e.1.Avoids N ∧ e.2.Avoids N := by
  simp only [Avoids, streams, streamsInEntries_eq, List.forall_mem_flatMap, List.forall_mem_append]

theorem avoids_record (c : Closure) : (record c).Avoids N := nofun

/-- What avoids more streams avoids fewer. -/
theorem Avoids.mono {M : List Nat} (h : v.Avoids N) (hM : ∀ n ∈ M, n ∈ N) : v.Avoids M :=
  fun n hn hm => h n hn (hM n hm)

theorem Avoids.items? (h : v.Avoids N) (hvs : v.items? = some vs) : ∀ w ∈ vs, w.Avoids N := by
  cases v with
  | list | tuple =>
    obtain rfl := Option.some.inj hvs
    simpa using h
  | stream n items =>
    obtain rfl := Option.some.inj hvs
    exact (avoids_stream.mp h).2
  | dict es =>
    obtain rfl := Option.some.inj hvs
    rw [avoids_dict] at h
    exact List.forall_mem_map.mpr fun e he => (h e he).1
  | _ => cases hvs

end Value

/-! ### States that differ in some streams -/

namespace Streams

variable {s t u : Streams} {n : Nat} {items : List Value}

/-- The states differ in these streams only, and none of them can be got hold of through another
one. -/
structure Agree (N : List Nat) (s t : Streams) : Prop where
  left : s.Each (Value.Avoids N)
  right : t.Each (Value.Avoids N)
  same : ∀ n, n ∉ N → ∀ made, s.remaining n made = t.remaining n made

namespace Agree

theorem refl (hs : s.Each (Value.Avoids N)) : s.Agree N s := ⟨hs, hs, fun _ _ _ => rfl⟩

theorem symm (h : s.Agree N t) : t.Agree N s :=
  ⟨h.right, h.left, fun n hn made => (h.same n hn made).symm⟩

theorem trans (h : s.Agree N t) (h' : t.Agree N u) : s.Agree N u :=
  ⟨h.left, h'.right, fun n hn made => (h.same n hn made).trans (h'.same n hn made)⟩

/-- Leaving the same in one stream. -/
theorem leave (h : s.Agree N t) (n : Nat) (hitems : ∀ v ∈ items, v.Avoids N) :
    (s.leave n items).Agree N (t.leave n items) := by
  refine ⟨h.left.leave n hitems, h.right.leave n hitems, fun k hk made => ?_⟩
  by_cases hkn : k = n
  · rw [hkn, remaining_leave, remaining_leave]
  · rw [remaining_leave_of_ne s hkn, remaining_leave_of_ne t hkn, h.same k hk]

/-- Leaving something in one of the streams that do not count. -/
theorem leave_left (h : s.Agree N t) (hn : n ∈ N) (hitems : ∀ v ∈ items, v.Avoids N) :
    (s.leave n items).Agree N t := by
  refine ⟨h.left.leave n hitems, h.right, fun k hk made => ?_⟩
  have hkn : k ≠ n := fun heq => hk (heq ▸ hn)
  rw [remaining_leave_of_ne s hkn, h.same k hk]

end Agree

end Streams

/-! ### Computations that come to the same -/

namespace Shared

variable {ε α β : Type} {Q : α → Prop} {R : β → Prop} {x y : Shared ε α} {f g : α → Shared ε β}

/-- In states that differ in these streams only, the two computations come to the same and leave
such states. What they return is in `Q`. -/
def Alike (N : List Nat) (x y : Shared ε α) (Q : α → Prop) : Prop :=
  ∀ s t : Streams, s.Agree N t → (x.runFrom s).1 = (y.runFrom t).1 ∧
    (x.runFrom s).2.Agree N (y.runFrom t).2 ∧ ∀ a, (x.runFrom s).1 = .ok a → Q a

/-- The computation does not meet these streams: it does not see what is in them, and leaves it
there. -/
structure Blind (N : List Nat) (x : Shared ε α) (Q : α → Prop) : Prop where
  alike : Alike N x x Q
  untouched : ∀ s : Streams, s.Each (Value.Avoids N) → ∀ n ∈ N, ∀ made,
    (x.runFrom s).2.remaining n made = s.remaining n made

/-- One thing after another. -/
protected theorem Alike.bind (h : Alike N x y Q) (hf : ∀ a, Q a → Alike N (f a) (g a) R) :
    Alike N (x >>= f) (y >>= g) R := by
  intro s t hst
  obtain ⟨hresult, hagree, hQ⟩ := h s t hst
  rw [runFrom_bind, runFrom_bind]
  rcases hx : x.runFrom s with ⟨a | a, s'⟩ <;> rcases hy : y.runFrom t with ⟨b | b, t'⟩ <;>
    rw [hx, hy] at hresult hagree
  · exact ⟨congrArg Except.error (Except.error.inj hresult), hagree, fun _ hb => by cases hb⟩
  · cases hresult
  · cases hresult
  · obtain rfl := Except.ok.inj hresult
    rw [hx] at hQ
    exact hf a (hQ a rfl) s' t' hagree

/-- Computations that are alike in themselves may be followed by different accounts of a result. -/
protected theorem Alike.mono (h : Alike N x y Q) {Q' : α → Prop} (hQ : ∀ a, Q a → Q' a) :
    Alike N x y Q' := by
  intro s t hst
  obtain ⟨hresult, hagree, ha⟩ := h s t hst
  exact ⟨hresult, hagree, fun a hx => hQ a (ha a hx)⟩

namespace Blind

protected theorem pure {a : α} (h : Q a) : Blind N (Pure.pure a : Shared ε α) Q where
  alike _ _ hst := ⟨rfl, hst, fun _ hb => Except.ok.inj hb ▸ h⟩
  untouched _ _ _ _ _ := rfl

protected theorem throw (e : ε) : Blind N (MonadExcept.throw e : Shared ε α) Q where
  alike _ _ hst := ⟨rfl, hst, fun _ hb => by cases hb⟩
  untouched _ _ _ _ _ := rfl

/-- One thing after another. -/
protected theorem bind (hx : Blind N x Q) (hf : ∀ a, Q a → Blind N (f a) R) :
    Blind N (x >>= f) R where
  alike := hx.alike.bind fun a ha => (hf a ha).alike
  untouched s hs n hn made := by
    obtain ⟨-, hagree, hQ⟩ := hx.alike s s (.refl hs)
    have hkept := hx.untouched s hs n hn made
    rw [runFrom_bind]
    rcases hrun : x.runFrom s with ⟨a | a, s'⟩ <;> rw [hrun] at hagree hkept hQ
    · exact hkept
    · exact ((hf a (hQ a rfl)).untouched s' hagree.left n hn made).trans hkept

protected theorem mono (hx : Blind N x Q) {Q' : α → Prop} (h : ∀ a, Q a → Q' a) : Blind N x Q' :=
  ⟨hx.alike.mono h, hx.untouched⟩

protected theorem map {f : α → β} (hx : Blind N x Q) (h : ∀ a, Q a → R (f a)) :
    Blind N (f <$> x) R := by
  rw [map_eq_pure_bind]
  exact hx.bind fun a ha => .pure (h a ha)

protected theorem ofExcept (x : Except ε α) :
    Blind N (MonadExcept.ofExcept x : Shared ε α) fun _ => True := by
  cases x with
  | error e => exact .throw e
  | ok a => exact .pure trivial

/-- What is blind for every member is blind for a list. -/
protected theorem mapM {as : List α} (h : ∀ a ∈ as, Blind N (f a) R) :
    Blind N (as.mapM f) fun bs => ∀ b ∈ bs, R b := by
  induction as with
  | nil =>
    rw [List.mapM_nil]
    exact .pure (by simp)
  | cons a as ih =>
    rw [List.mapM_cons]
    refine (h a (List.mem_cons_self ..)).bind fun b hb => ?_
    refine Blind.bind (ih fun a ha => h a (List.mem_cons_of_mem _ ha)) fun bs hbs => ?_
    exact .pure (List.forall_mem_cons.mpr ⟨hb, hbs⟩)

protected theorem remaining {number : Nat} {items : List Value} (hnumber : number ∉ N)
    (hitems : ∀ v ∈ items, v.Avoids N) :
    Blind N (Draws.remaining number items : Shared ε (List Value)) fun vs =>
      ∀ v ∈ vs, v.Avoids N where
  alike s t hst := by
    refine ⟨congrArg Except.ok (hst.same number hnumber items), hst, fun vs hvs => ?_⟩
    exact Except.ok.inj hvs ▸ hst.left.remaining number hitems
  untouched _ _ _ _ _ := rfl

protected theorem leave {number : Nat} {items : List Value} (hnumber : number ∉ N)
    (hitems : ∀ v ∈ items, v.Avoids N) :
    Blind N (Draws.leave number items : Shared ε Unit) fun _ => True where
  alike s t hst := ⟨rfl, hst.leave number hitems, fun _ _ => trivial⟩
  untouched s _ n hn made := by
    have hne : n ≠ number := fun heq => hnumber (heq ▸ hn)
    exact s.remaining_leave_of_ne hne items made

end Blind

end Shared

/-! ### Reading -/

open Shared (Blind)

variable {v : Value} {vs : List Value}

namespace Value

variable {ε α : Type} {R : α → Prop}

theorem blind_remaining? (hv : v.Avoids N) :
    Blind N (v.remaining? : Shared ε (Option (List Value)))
      fun o => ∀ vs, o = some vs → ∀ w ∈ vs, w.Avoids N := by
  unfold remaining?
  split
  · next number items =>
    obtain ⟨hnumber, hitems⟩ := avoids_stream.mp hv
    refine (Blind.remaining hnumber hitems).map fun vs hvs ws hws => ?_
    exact Option.some.inj hws ▸ hvs
  · exact .pure fun vs hvs => hv.items? hvs

theorem blind_leave {rest : List Value} (hv : v.Avoids N) (hrest : ∀ w ∈ rest, w.Avoids N) :
    Blind N (v.leave rest : Shared ε Unit) fun _ => True := by
  unfold leave
  split
  · exact .leave (avoids_stream.mp hv).1 hrest
  · exact .pure trivial

theorem blind_draw? (hv : v.Avoids N) :
    Blind N (v.draw? : Shared ε (Option (List Value)))
      fun o => ∀ vs, o = some vs → ∀ w ∈ vs, w.Avoids N := by
  refine (blind_remaining? hv).bind fun o ho => ?_
  exact (blind_leave hv (by simp)).bind fun _ _ => .pure ho

theorem blind_readInTurn {read : Nat → Value → Shared ε α} {source : Value} {position : Nat}
    (hsource : source.Avoids N) (hvs : ∀ w ∈ vs, w.Avoids N)
    (hread : ∀ i w, w.Avoids N → Blind N (read i w) R) :
    Blind N (readInTurn source read position vs) fun _ => True := by
  induction vs generalizing position with
  | nil => exact (blind_leave hsource (by simp)).bind fun _ _ => .pure trivial
  | cons v vs ih =>
    obtain ⟨hv, hvs⟩ := List.forall_mem_cons.mp hvs
    refine (blind_leave hsource hvs).bind fun _ _ => ?_
    refine (hread position v hv).bind fun b _ => ?_
    exact (ih hvs).bind fun bs _ => .pure trivial

end Value

namespace Place

variable {p : Place} {α : Type} {R : α → Prop}

theorem blind_refuse (wanted : Wanted) (got : Value) :
    Blind N (p.refuse wanted got : Shared BuildFault α) R :=
  .throw _

theorem blind_name (v : Value) : Blind N (p.name v : Shared BuildFault String) fun _ => True := by
  unfold name
  split
  · exact .pure trivial
  · exact blind_refuse ..

theorem blind_flag (v : Value) : Blind N (p.flag v : Shared BuildFault Bool) fun _ => True := by
  unfold flag
  split
  · exact .pure trivial
  · exact blind_refuse ..

theorem blind_int64 (v : Value) :
    Blind N (p.int64 v : Shared BuildFault Int64) fun _ => True := by
  unfold int64
  split
  · split
    · exact .pure trivial
    · exact .throw _
  · exact .throw _

theorem blind_node (f : Family) (v : Value) :
    Blind N (p.node f v : Shared BuildFault Tree) fun _ => True := by
  unfold node
  split
  · split
    · exact .pure trivial
    · exact blind_refuse ..
  · exact blind_refuse ..

theorem blind_sequence (hv : v.Avoids N) :
    Blind N (p.sequence v : Shared BuildFault (List Value)) fun vs => ∀ w ∈ vs, w.Avoids N := by
  refine (Value.blind_draw? hv).bind fun o ho => ?_
  split
  · next vs => exact .pure (ho vs rfl)
  · exact blind_refuse ..

theorem blind_each {read : Place → Value → Shared BuildFault α} (hvs : ∀ w ∈ vs, w.Avoids N)
    (hread : ∀ q w, w.Avoids N → Blind N (read q w) R) :
    Blind N (p.each read vs) fun bs => ∀ b ∈ bs, R b :=
  .mapM fun w hw => hread _ w.1 (hvs w.1 (List.fst_mem_of_mem_zipIdx hw))

theorem blind_pair (hv : v.Avoids N) :
    Blind N (p.pair v : Shared BuildFault (Value × Value))
      fun e => e.1.Avoids N ∧ e.2.Avoids N := by
  refine (Value.blind_draw? hv).bind fun o ho => ?_
  split
  · next a b => exact .pure (by simpa using ho [a, b] rfl)
  · exact blind_refuse ..

theorem blind_pairs (hv : v.Avoids N) :
    Blind N (p.pairs v : Shared BuildFault (List (Value × Value)))
      fun es => ∀ e ∈ es, e.1.Avoids N ∧ e.2.Avoids N := by
  unfold pairs
  split
  · exact .pure (Value.avoids_dict.mp hv)
  · refine (blind_sequence hv).bind fun vs hvs => ?_
    exact blind_each hvs fun q w hw => blind_pair hw

/-- Reading the names and values of pairs. -/
theorem blind_entries {read : Place → Value → Shared BuildFault α} {es : List (Value × Value)}
    (hes : ∀ e ∈ es, e.2.Avoids N) (hread : ∀ q w, w.Avoids N → Blind N (read q w) R) :
    Blind N (es.mapM fun e => do
      let n ← p.name e.1
      pure (n, ← read (p.item (.key n)) e.2) : Shared BuildFault (List (String × α)))
      fun _ => True := by
  refine Blind.mono (.mapM (R := fun _ => True) fun e he => ?_) fun _ _ => trivial
  refine (blind_name e.1).bind fun n _ => ?_
  exact (hread _ e.2 (hes e he)).bind fun a _ => .pure trivial

theorem blind_names (hv : v.Avoids N) :
    Blind N (p.names v : Shared BuildFault (List String)) fun _ => True :=
  (blind_sequence hv).bind fun _ _ =>
    Blind.mono (.mapM fun w _ => blind_name w) fun _ _ => trivial

theorem blind_freeNames (hv : v.Avoids N) :
    Blind N (p.freeNames v : Shared BuildFault (List String)) fun _ => True := by
  refine (Value.blind_draw? hv).bind fun o ho => ?_
  split
  · exact Blind.mono (.mapM fun w _ => blind_name w) fun _ _ => trivial
  · exact blind_refuse ..

end Place

theorem Closure.blind_textAt (field : String) (v : Value) :
    Blind N (textAt field v : Shared BuildFault String) fun _ => True := by
  unfold textAt
  split
  · exact .pure trivial
  · exact Place.blind_refuse ..

theorem Closure.blind_build (name label : Value) {free : Value} (hfree : free.Avoids N) :
    Blind N (build name label free : Shared BuildFault Closure) fun _ => True := by
  refine (blind_textAt _ name).bind fun n _ => (blind_textAt _ label).bind fun l _ => ?_
  exact (Place.blind_freeNames hfree).bind fun _ _ => .pure trivial

namespace Place

variable {p : Place}

theorem blind_record (hv : v.Avoids N) :
    Blind N (p.record v : Shared BuildFault Closure) fun _ => True := by
  unfold record
  split
  · exact .pure trivial
  · exact blind_refuse ..
  · refine (Value.blind_draw? hv).bind fun o ho => ?_
    split
    · exact blind_refuse ..
    · next name label free =>
      exact Closure.blind_build name label (ho [name, label, free] rfl free (by simp))
    · exact blind_refuse ..

theorem blind_records (hv : v.Avoids N) :
    Blind N (p.records v : Shared BuildFault (List Closure)) fun _ => True := by
  unfold records
  split
  · exact blind_refuse ..
  · refine (Value.blind_remaining? hv).bind fun o ho => ?_
    split
    · exact blind_refuse ..
    · next vs => exact Value.blind_readInTurn hv (ho vs rfl) fun _ _ hw => blind_record hw

end Place

/-! ### Fields -/

namespace Shape

variable {s : Shape}

/-- A sequence is gone through before anything in it is looked at, unless it is one of records. What
is done with the items then meets the streams in them and no others. -/
theorem exists_read_sequence (hs : s.isSequence = true) (hrecords : s ≠ .records) (f : Family)
    (p : Place) : ∃ g : List Value → Shared BuildFault (Field Tree),
      (∀ v, s.read f p v = p.sequence v >>= g) ∧
      ∀ N vs, (∀ w ∈ vs, w.Avoids N) → Blind N (g vs) fun _ => True := by
  cases s with
  | nodes =>
    refine ⟨fun vs => .nodes <$> p.each (fun q => q.node f) vs, fun v => ?_, fun N vs hvs => ?_⟩
    · simp [read, Place.nodes]
    · exact (Place.blind_each hvs fun _ w _ => Place.blind_node f w).map fun _ _ => trivial
  | names =>
    refine ⟨fun vs => .names <$> vs.mapM p.name, fun v => ?_, fun N vs hvs => ?_⟩
    · simp [read, Place.names]
    · exact (Blind.mapM fun w _ => Place.blind_name w).map fun _ _ => trivial
  | nameSet =>
    refine ⟨fun vs => .nameSet <$> vs.mapM p.name, fun v => ?_, fun N vs hvs => ?_⟩
    · simp [read, Place.names]
    · exact (Blind.mapM fun w _ => Place.blind_name w).map fun _ _ => trivial
  | frames =>
    refine ⟨fun vs => do pure (.frames (← p.each Place.names vs)), fun v => rfl,
      fun N vs hvs => ?_⟩
    exact (Place.blind_each hvs fun _ _ hw => Place.blind_names hw).bind fun _ _ => .pure trivial
  | records => exact absurd rfl hrecords
  | _ => cases hs

/-- The pairs of a mapping are taken apart before anything in them is looked at. -/
theorem exists_read_mapping (hs : s.isMapping = true) (f : Family) (p : Place) :
    ∃ g : List (Value × Value) → Shared BuildFault (Field Tree),
      (∀ v, s.read f p v = p.pairs v >>= g) ∧
      ∀ N es, (∀ e ∈ es, e.2.Avoids N) → Blind N (g es) fun _ => True := by
  have hentries : ∀ {α : Type} {read : Place → Value → Shared BuildFault α}
      (field : List (String × α) → Field Tree),
      (∀ N q w, w.Avoids N → Blind N (read q w) fun _ => True) →
      ∃ g : List (Value × Value) → Shared BuildFault (Field Tree),
        (∀ v, (field <$> p.mapping read v) = p.pairs v >>= g) ∧
        ∀ N es, (∀ e ∈ es, e.2.Avoids N) → Blind N (g es) fun _ => True := by
    intro α read field hread
    refine ⟨fun es => field <$> es.mapM fun e => do
      let n ← p.name e.1
      pure (n, ← read (p.item (.key n)) e.2), fun v => ?_, fun N es hes => ?_⟩
    · simp [Place.mapping]
    · exact (Place.blind_entries hes (hread N)).map fun _ _ => trivial
  cases s with
  | bindings => exact hentries .bindings fun _ _ w _ => Place.blind_node f w
  | locations => exact hentries .locations fun _ _ w _ => Place.blind_name w
  | graph => exact hentries .graph fun _ _ _ hw => Place.blind_names hw
  | _ => cases hs

/-- **Reading a value by the shape of its field** meets the streams in it and no others. -/
theorem blind_read (s : Shape) (f : Family) (p : Place) (hv : v.Avoids N) :
    Blind N (s.read f p v : Shared BuildFault (Field Tree)) fun _ => True := by
  by_cases hrecords : s = .records
  · subst hrecords
    exact (Place.blind_records hv).map fun _ _ => trivial
  by_cases hsequence : s.isSequence = true
  · obtain ⟨g, hread, hg⟩ := exists_read_sequence hsequence hrecords f p
    rw [hread]
    exact (Place.blind_sequence hv).bind fun vs hvs => hg N vs hvs
  by_cases hmapping : s.isMapping = true
  · obtain ⟨g, hread, hg⟩ := exists_read_mapping hmapping f p
    rw [hread]
    exact (Place.blind_pairs hv).bind fun es hes => hg N es fun e he => (hes e he).2
  cases s with
  | name => exact (Place.blind_name v).map fun _ _ => trivial
  | flag => exact (Place.blind_flag v).map fun _ _ => trivial
  | int64 => exact (Place.blind_int64 v).map fun _ _ => trivial
  | node => exact (Place.blind_node f v).map fun _ _ => trivial
  | nodes | names | nameSet | frames => exact absurd rfl hsequence
  | bindings | locations | graph => exact absurd rfl hmapping
  | records => exact absurd rfl hrecords

end Shape

namespace Kind

/-- Reading the fields of a kind meets the streams in their values and no others. -/
theorem blind_readFields (k : Kind) {schema : Schema} (hvs : ∀ v ∈ vs, v.Avoids N) :
    Blind N (k.readFields schema vs : Shared BuildFault (List (Field Tree))) fun _ => True := by
  induction schema generalizing vs with
  | nil =>
    rw [readFields]
    · exact .pure trivial
    all_goals simp
  | cons e schema ih =>
    obtain ⟨n, s⟩ := e
    obtain _ | ⟨v, vs⟩ := vs
    · rw [readFields]
      · exact .pure trivial
      all_goals simp
    · obtain ⟨hv, hvs⟩ := List.forall_mem_cons.mp hvs
      have hread := s.blind_read k.family (k.place n) hv
      -- Records are read behind the fields that follow them, every other field before.
      by_cases hs : s = .records
      · subst hs
        rw [readFields]
        exact (ih hvs).bind fun _ _ => hread.bind fun _ _ => .pure trivial
      · rw [readFields]
        · exact hread.bind fun _ _ => (ih hvs).bind fun _ _ => .pure trivial
        · exact hs

end Kind

end LoweringIR
