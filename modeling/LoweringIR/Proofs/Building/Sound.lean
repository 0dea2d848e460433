import LoweringIR.Proofs.Building.Ensures
import LoweringIR.Proofs.Interchange.Accept

/-!
# What is built is well formed

Nothing is known of the values that something is built from, except that the trees in them have been
built before. Whatever form a collection comes in and whatever else is in it, the fields that are
read from it have the shapes of the schema, and the children in them are trees that were handed in
and that belong to the family. What the kind asks for besides is checked in the end. So a node that
is built fits its kind, and a property that passes from the children of such a node to the node
passes from the trees that were handed in to the tree that is built.

The arguments are matched to the fields before any of that. Every value that comes out of the
matching is one of the arguments or stands in for a missing one.

## Main definitions

* `Value.trees`, `Value.EachTree` — the trees in a value, and what holds of each of them
* `Tree.PassesUp` — a property that passes from children to their parent

## Main results

* `Shape.ensures_read` — what is read by the shape of a field
* `Head.ensures_call` — what is built from arguments
-/

namespace LoweringIR

/-! ### The trees in a value -/

namespace Value

mutual

/-- The trees in a value, but not the trees in those. -/
def trees : Value → List Tree
  | list vs => treesAmong vs
  | tuple vs => treesAmong vs
  | stream _ vs => treesAmong vs
  | dict es => treesInEntries es
  | node t => [t]
  | _ => []

/-- The trees in values. -/
def treesAmong : List Value → List Tree
  | [] => []
  | v :: vs => trees v ++ treesAmong vs

/-- The trees in the keys and values of entries. -/
def treesInEntries : List (Value × Value) → List Tree
  | [] => []
  | e :: es => trees e.1 ++ trees e.2 ++ treesInEntries es

end

theorem treesAmong_eq (vs : List Value) : treesAmong vs = vs.flatMap trees := by
  induction vs with
  | nil => rfl
  | cons v vs ih => rw [treesAmong, ih, List.flatMap_cons]

theorem treesInEntries_eq (es : List (Value × Value)) :
    treesInEntries es = es.flatMap fun e => e.1.trees ++ e.2.trees := by
  induction es with
  | nil => rfl
  | cons e es ih => rw [treesInEntries, ih, List.flatMap_cons]

/-- Every tree in the value satisfies `T`. -/
def EachTree (T : Tree → Prop) (v : Value) : Prop := ∀ t ∈ v.trees, T t

variable {T : Tree → Prop} {v : Value} {vs : List Value}

instance [DecidablePred T] (v : Value) : Decidable (v.EachTree T) :=
  inferInstanceAs (Decidable (∀ t ∈ v.trees, T t))

@[simp] theorem eachTree_list : (list vs).EachTree T ↔ ∀ v ∈ vs, v.EachTree T := by
  simp only [EachTree, trees, treesAmong_eq, List.forall_mem_flatMap]

@[simp] theorem eachTree_tuple : (tuple vs).EachTree T ↔ ∀ v ∈ vs, v.EachTree T := by
  simp only [EachTree, trees, treesAmong_eq, List.forall_mem_flatMap]

@[simp] theorem eachTree_stream {n : Nat} : (stream n vs).EachTree T ↔ ∀ v ∈ vs, v.EachTree T := by
  simp only [EachTree, trees, treesAmong_eq, List.forall_mem_flatMap]

@[simp] theorem eachTree_dict {es : List (Value × Value)} :
    (dict es).EachTree T ↔ ∀ e ∈ es, e.1.EachTree T ∧ e.2.EachTree T := by
  simp only [EachTree, trees, treesInEntries_eq, List.forall_mem_flatMap, List.forall_mem_append]

@[simp] theorem eachTree_node {t : Tree} : (node t).EachTree T ↔ T t := by
  simp [EachTree, trees]

@[simp] theorem eachTree_str (s : String) : (str s).EachTree T := by
  simp [EachTree, trees]

@[simp] theorem eachTree_record (c : Closure) : (record c).EachTree T := by
  simp [EachTree, trees]

theorem EachTree.items? (h : v.EachTree T) (hvs : v.items? = some vs) : ∀ w ∈ vs, w.EachTree T := by
  cases v with
  | list | tuple | stream =>
    obtain rfl := Option.some.inj hvs
    simpa using h
  | dict es =>
    obtain rfl := Option.some.inj hvs
    rw [eachTree_dict] at h
    exact List.forall_mem_map.mpr fun e he => (h e he).1
  | _ => cases hvs

end Value

/-! ### Reading -/

open Draws (Logic Ensures)

variable {m : Type → Type → Type} [∀ ε, Monad (m ε)] [∀ ε, LawfulMonad (m ε)]
  [∀ ε, MonadExceptOf ε (m ε)] [Draws m] [Logic m] {T : Tree → Prop} {v : Value} {vs : List Value}

namespace Value

variable {ε α : Type} {R : α → Prop}

theorem ensures_remaining? (hv : v.EachTree T) :
    Ensures (EachTree T) (v.remaining? : m ε (Option (List Value)))
      fun o => ∀ vs, o = some vs → ∀ w ∈ vs, w.EachTree T := by
  unfold remaining?
  split
  · next number items =>
    refine Logic.map (Logic.remaining number (eachTree_stream.mp hv)) fun vs hvs ws hws => ?_
    exact Option.some.inj hws ▸ hvs
  · exact Logic.pure fun vs hvs => hv.items? hvs

omit [∀ ε, LawfulMonad (m ε)] in
theorem ensures_leave {rest : List Value} (v : Value) (hrest : ∀ w ∈ rest, w.EachTree T) :
    Ensures (EachTree T) (v.leave rest : m ε Unit) fun _ => True := by
  unfold leave
  split
  · exact Logic.leave _ hrest
  · exact Logic.pure trivial

theorem ensures_draw? (hv : v.EachTree T) :
    Ensures (EachTree T) (v.draw? : m ε (Option (List Value)))
      fun o => ∀ vs, o = some vs → ∀ w ∈ vs, w.EachTree T := by
  refine Logic.bind (ensures_remaining? hv) fun o ho => ?_
  exact Logic.bind (ensures_leave v (by simp)) fun _ _ => Logic.pure ho

omit [∀ ε, LawfulMonad (m ε)] in
theorem ensures_readInTurn {read : Nat → Value → m ε α} {source : Value} {position : Nat}
    (hvs : ∀ w ∈ vs, w.EachTree T)
    (hread : ∀ i w, w.EachTree T → Ensures (EachTree T) (read i w) R) :
    Ensures (EachTree T) (readInTurn source read position vs) fun bs => ∀ b ∈ bs, R b := by
  induction vs generalizing position with
  | nil => exact Logic.bind (ensures_leave source (by simp)) fun _ _ => Logic.pure (by simp)
  | cons v vs ih =>
    obtain ⟨hv, hvs⟩ := List.forall_mem_cons.mp hvs
    refine Logic.bind (ensures_leave source hvs) fun _ _ => ?_
    refine Logic.bind (hread position v hv) fun b hb => ?_
    refine Logic.bind (ih hvs) fun bs hbs => ?_
    exact Logic.pure (List.forall_mem_cons.mpr ⟨hb, hbs⟩)

end Value

namespace Place

variable {p : Place} {α : Type} {P : Value → Prop} {R : α → Prop}

omit [∀ ε, LawfulMonad (m ε)] in
theorem ensures_refuse (wanted : Wanted) (got : Value) :
    Ensures P (p.refuse wanted got : m BuildFault α) R :=
  Logic.throw _

omit [∀ ε, LawfulMonad (m ε)] in
theorem ensures_name : Ensures P (p.name v : m BuildFault String) fun _ => True := by
  unfold name
  split
  · exact Logic.pure trivial
  · exact ensures_refuse ..

omit [∀ ε, LawfulMonad (m ε)] in
theorem ensures_flag : Ensures P (p.flag v : m BuildFault Bool) fun _ => True := by
  unfold flag
  split
  · exact Logic.pure trivial
  · exact ensures_refuse ..

omit [∀ ε, LawfulMonad (m ε)] in
theorem ensures_int64 : Ensures P (p.int64 v : m BuildFault Int64) fun _ => True := by
  unfold int64
  split
  · split
    · exact Logic.pure trivial
    · exact Logic.throw _
  · exact Logic.throw _

omit [∀ ε, LawfulMonad (m ε)] in
theorem ensures_node {f : Family} (hv : v.EachTree T) :
    Ensures P (p.node f v : m BuildFault Tree) fun t => t.family? = some f ∧ T t := by
  unfold node
  split
  · next t =>
    split
    · next hf => exact Logic.pure ⟨hf, Value.eachTree_node.mp hv⟩
    · exact ensures_refuse ..
  · exact ensures_refuse ..

theorem ensures_sequence (hv : v.EachTree T) :
    Ensures (Value.EachTree T) (p.sequence v : m BuildFault (List Value))
      fun vs => ∀ w ∈ vs, w.EachTree T := by
  refine Logic.bind (Value.ensures_draw? hv) fun o ho => ?_
  split
  · next vs => exact Logic.pure (ho vs rfl)
  · exact ensures_refuse ..

omit [∀ ε, MonadExceptOf ε (m ε)] [Draws m] in
theorem ensures_each [∀ ε, MonadExceptOf ε (m ε)] [Draws m] [Logic m]
    {read : Place → Value → m BuildFault α} (hvs : ∀ w ∈ vs, w.EachTree T)
    (hread : ∀ q w, w.EachTree T → Ensures P (read q w) R) :
    Ensures P (p.each read vs) fun bs => ∀ b ∈ bs, R b :=
  Logic.mapM fun w hw => hread _ w.1 (hvs w.1 (List.fst_mem_of_mem_zipIdx hw))

theorem ensures_pair (hv : v.EachTree T) :
    Ensures (Value.EachTree T) (p.pair v : m BuildFault (Value × Value))
      fun e => e.1.EachTree T ∧ e.2.EachTree T := by
  refine Logic.bind (Value.ensures_draw? hv) fun o ho => ?_
  split
  · next a b => exact Logic.pure (by simpa using ho [a, b] rfl)
  · exact ensures_refuse ..

theorem ensures_pairs (hv : v.EachTree T) :
    Ensures (Value.EachTree T) (p.pairs v : m BuildFault (List (Value × Value)))
      fun es => ∀ e ∈ es, e.1.EachTree T ∧ e.2.EachTree T := by
  unfold pairs
  split
  · exact Logic.pure (Value.eachTree_dict.mp hv)
  · refine Logic.bind (ensures_sequence hv) fun vs hvs => ?_
    exact ensures_each hvs fun q w hw => ensures_pair hw

theorem ensures_mapping {read : Place → Value → m BuildFault α} (hv : v.EachTree T)
    (hread : ∀ q w, w.EachTree T → Ensures (Value.EachTree T) (read q w) R) :
    Ensures (Value.EachTree T) (p.mapping read v) fun es => ∀ e ∈ es, R e.2 := by
  refine Logic.bind (ensures_pairs hv) fun es hes => Logic.mapM fun e he => ?_
  refine Logic.bind ensures_name fun n _ => ?_
  exact Logic.bind (hread _ e.2 (hes e he).2) fun a ha => Logic.pure ha

theorem ensures_nodes {f : Family} (hv : v.EachTree T) :
    Ensures (Value.EachTree T) (p.nodes f v : m BuildFault (List Tree))
      fun ts => ∀ t ∈ ts, t.family? = some f ∧ T t :=
  Logic.bind (ensures_sequence hv) fun _ hvs => ensures_each hvs fun _ _ hw => ensures_node hw

theorem ensures_names (hv : v.EachTree T) :
    Ensures (Value.EachTree T) (p.names v : m BuildFault (List String)) fun _ => True :=
  Logic.bind (ensures_sequence hv) fun _ _ =>
    Logic.mono (Logic.mapM fun _ _ => ensures_name) fun _ _ => trivial

theorem ensures_freeNames (hv : v.EachTree T) :
    Ensures (Value.EachTree T) (p.freeNames v : m BuildFault (List String)) fun _ => True := by
  refine Logic.bind (Value.ensures_draw? hv) fun o ho => ?_
  split
  · exact Logic.mono (Logic.mapM fun _ _ => ensures_name) fun _ _ => trivial
  · exact ensures_refuse ..

end Place

omit [∀ ε, LawfulMonad (m ε)] in
theorem Closure.ensures_textAt {field : String} {P : Value → Prop} :
    Ensures P (textAt field v : m BuildFault String) fun _ => True := by
  unfold textAt
  split
  · exact Logic.pure trivial
  · exact Place.ensures_refuse ..

theorem Closure.ensures_build {name label free : Value} (hfree : free.EachTree T) :
    Ensures (Value.EachTree T) (build name label free : m BuildFault Closure) fun _ => True := by
  refine Logic.bind ensures_textAt fun n _ => Logic.bind ensures_textAt fun l _ => ?_
  exact Logic.bind (Place.ensures_freeNames hfree) fun _ _ => Logic.pure trivial

namespace Place

variable {p : Place}

theorem ensures_record (hv : v.EachTree T) :
    Ensures (Value.EachTree T) (p.record v : m BuildFault Closure) fun _ => True := by
  unfold record
  split
  · exact Logic.pure trivial
  · exact ensures_refuse ..
  · refine Logic.bind (Value.ensures_draw? hv) fun o ho => ?_
    split
    · exact ensures_refuse ..
    · next name label free =>
      exact Closure.ensures_build (ho [name, label, free] rfl free (by simp))
    · exact ensures_refuse ..

theorem ensures_records (hv : v.EachTree T) :
    Ensures (Value.EachTree T) (p.records v : m BuildFault (List Closure)) fun _ => True := by
  unfold records
  split
  · exact ensures_refuse ..
  · refine Logic.bind (Value.ensures_remaining? hv) fun o ho => ?_
    split
    · exact ensures_refuse ..
    · next vs =>
      have hturn : Ensures (Value.EachTree T)
          (v.readInTurn (fun i => record (p.item (.nth i))) 0 vs : m BuildFault (List Closure))
          fun cs => ∀ c ∈ cs, True :=
        Value.ensures_readInTurn (ho vs rfl) fun _ _ hw => ensures_record hw
      exact Logic.mono hturn fun _ _ => trivial

end Place

/-- **What is read by the shape of a field** has that shape, and its children are trees of the
family that were handed in. -/
theorem Shape.ensures_read (s : Shape) {f : Family} {p : Place} (hv : v.EachTree T) :
    Ensures (Value.EachTree T) (s.read f p v : m BuildFault (Field Tree)) fun x =>
      x.shape = s ∧ ∀ t ∈ x.children, t.family? = some f ∧ T t := by
  cases s with
  | name => exact Logic.map Place.ensures_name fun _ _ => ⟨rfl, List.forall_mem_nil _⟩
  | flag => exact Logic.map Place.ensures_flag fun _ _ => ⟨rfl, List.forall_mem_nil _⟩
  | int64 => exact Logic.map Place.ensures_int64 fun _ _ => ⟨rfl, List.forall_mem_nil _⟩
  | node =>
    refine Logic.map (Place.ensures_node hv) fun t ht => ⟨rfl, ?_⟩
    simpa [Field.children] using ht
  | nodes => exact Logic.map (Place.ensures_nodes hv) fun ts hts => ⟨rfl, hts⟩
  | names => exact Logic.map (Place.ensures_names hv) fun _ _ => ⟨rfl, List.forall_mem_nil _⟩
  | nameSet => exact Logic.map (Place.ensures_names hv) fun _ _ => ⟨rfl, List.forall_mem_nil _⟩
  | bindings =>
    have hread := Place.ensures_mapping (m := m) (p := p) hv fun q w hw =>
      Place.ensures_node (p := q) (f := f) hw
    exact Logic.map hread fun es hes => ⟨rfl, List.forall_mem_map.mpr hes⟩
  | locations =>
    have hread := Place.ensures_mapping (m := m) (p := p) hv fun _ w _ =>
      Place.ensures_name (p := p) (v := w)
    exact Logic.map hread fun _ _ => ⟨rfl, List.forall_mem_nil _⟩
  | graph =>
    have hread := Place.ensures_mapping (m := m) (p := p) hv fun q w hw =>
      Place.ensures_names (p := q) hw
    exact Logic.map hread fun _ _ => ⟨rfl, List.forall_mem_nil _⟩
  | frames =>
    refine Logic.bind (Place.ensures_sequence hv) fun vs hvs => ?_
    refine Logic.bind (Place.ensures_each hvs fun _ _ hw => Place.ensures_names hw) fun _ _ => ?_
    exact Logic.pure ⟨rfl, List.forall_mem_nil _⟩
  | records => exact Logic.map (Place.ensures_records hv) fun _ _ => ⟨rfl, List.forall_mem_nil _⟩

/-! ### Building -/

/-- A property passes up if every node has it that fits its kind and whose children have it. -/
def Tree.PassesUp (T : Tree → Prop) : Prop :=
  ∀ k fs, k.Fits fs → (∀ t ∈ fs.flatMap Field.children, T t) → T (.node k fs)

theorem Tree.passesUp_wellFormed : PassesUp WellFormed := fun _ _ hfits hchildren =>
  wellFormed_node_iff.mpr ⟨hfits, hchildren⟩

namespace Kind

variable {k : Kind}

/-- The fields that are read have the shapes of the schema, also where records are read late. -/
theorem ensures_readFields {schema : Schema} (hlength : vs.length = schema.length)
    (hvs : ∀ v ∈ vs, v.EachTree T) :
    Ensures (Value.EachTree T) (k.readFields schema vs : m BuildFault (List (Field Tree))) fun fs =>
      fs.map Field.shape = schema.map Prod.snd ∧
        ∀ t ∈ fs.flatMap Field.children, t.family? = some k.family ∧ T t := by
  induction schema generalizing vs with
  | nil =>
    rw [readFields]
    · exact Logic.pure ⟨rfl, by simp⟩
    all_goals simp
  | cons e schema ih =>
    obtain ⟨n, s⟩ := e
    obtain _ | ⟨v, vs⟩ := vs
    · simp at hlength
    · obtain ⟨hv, hvs⟩ := List.forall_mem_cons.mp hvs
      have hrest := ih (Nat.succ.inj hlength) hvs
      have hread := s.ensures_read (m := m) (f := k.family) (p := k.place n) hv
      have hfields : ∀ (x : Field Tree) (fs : List (Field Tree)),
          (x.shape = s ∧ ∀ t ∈ x.children, t.family? = some k.family ∧ T t) →
          (fs.map Field.shape = schema.map Prod.snd ∧
            ∀ t ∈ fs.flatMap Field.children, t.family? = some k.family ∧ T t) →
          (x :: fs).map Field.shape = ((n, s) :: schema).map Prod.snd ∧
            ∀ t ∈ (x :: fs).flatMap Field.children, t.family? = some k.family ∧ T t := by
        rintro x fs ⟨hshape, hx⟩ ⟨hshapes, hchildren⟩
        refine ⟨by rw [List.map_cons, List.map_cons, hshape, hshapes], ?_⟩
        rw [List.flatMap_cons, List.forall_mem_append]
        exact ⟨hx, hchildren⟩
      -- Records are read behind the fields that follow them, every other field before.
      by_cases hs : s = .records
      · subst hs
        rw [readFields]
        refine Logic.bind hrest fun fs hfs => Logic.bind hread fun x hx => ?_
        exact Logic.pure (hfields x fs hx hfs)
      · rw [readFields]
        · refine Logic.bind hread fun x hx => Logic.bind hrest fun fs hfs => ?_
          exact Logic.pure (hfields x fs hx hfs)
        · exact hs

/-- **What is built from values** is a node of that kind, with every property that passes up and
that the trees among the values have. -/
theorem ensures_build (hT : Tree.PassesUp T) (hlength : vs.length = k.schema.length)
    (hvs : ∀ v ∈ vs, v.EachTree T) :
    Ensures (Value.EachTree T) (k.build vs : m BuildFault Tree) fun t =>
      t.kind? = some k ∧ T t := by
  refine Logic.bind (ensures_readFields hlength hvs) fun fs ⟨hshapes, hchildren⟩ => ?_
  refine Logic.bind (Logic.ofExcept fun _ hcheck => check_eq_ok_iff.mp hcheck) fun _ hadmits => ?_
  have hfits : k.Fits fs := ⟨hshapes, fun t ht => (hchildren t ht).1, hadmits⟩
  exact Logic.pure ⟨rfl, hT k fs hfits fun t ht => (hchildren t ht).2⟩

end Kind

/-- What the arguments are matched to are these arguments, or the empty tuple that stands for free
variables. Neither has trees that were not in the arguments. -/
theorem Arguments.eachTree_of_bind {h : Head} {args : Arguments} {ws : List Value}
    (hbind : args.bind h.name h.parameters = .ok ws)
    (hpositional : ∀ v ∈ args.positional, v.EachTree T)
    (hnamed : ∀ a ∈ args.named, a.2.EachTree T) :
    ws.length = h.fieldNames.length ∧ ∀ w ∈ ws, w.EachTree T := by
  have hnames : (h.parameters.map Parameter.name).Nodup := by simpa using h.nodup_fieldNames
  obtain ⟨ds, hds, hperm, -, hlength⟩ := perm_of_bind hnames hbind
  rw [Head.map_name_parameters] at hperm
  have hwslength : ws.length = h.fieldNames.length := by simpa [Head.parameters] using hlength
  refine ⟨hwslength, ?_⟩
  have hsnd : ws = (h.fieldNames.zip ws).map Prod.snd :=
    (List.map_snd_zip (Nat.le_of_eq hwslength)).symm
  rw [hsnd, List.forall_mem_map]
  intro e he
  have he := hperm.mem_iff.mpr he
  rcases List.mem_append.mp he with he | hd
  · rcases List.mem_append.mp he with he | he
    · exact hpositional e.2 (List.of_mem_zip he).2
    · exact hnamed e he
  · obtain ⟨p, hp, -, hfallback⟩ := hds e hd
    obtain ⟨-, -, hfree⟩ := Head.eq_of_fallback hp hfallback
    simp [hfree]

namespace Head

variable {h : Head} {args : Arguments}

/-- The head of what has been built: a node is of its kind, and a record is one. -/
def ofValue? : Value → Option Head
  | .node (.node k _) => some (.node k)
  | .record _ => some .closure
  | _ => none

theorem ensures_build (hT : Tree.PassesUp T) (hlength : vs.length = h.fieldNames.length)
    (hvs : ∀ v ∈ vs, v.EachTree T) :
    Ensures (Value.EachTree T) (h.build vs : m BuildFault Value) fun v =>
      ofValue? v = some h ∧ v.EachTree T := by
  unfold build
  split
  · next k =>
    have hfields : vs.length = k.schema.length := by simpa [fieldNames] using hlength
    refine Logic.map (Kind.ensures_build hT hfields hvs) fun t ⟨hkind, ht⟩ => ?_
    obtain ⟨fs, rfl⟩ := Tree.kind?_eq_some_iff.mp hkind
    exact ⟨rfl, Value.eachTree_node.mpr ht⟩
  · next name label free =>
    have hfree : free.EachTree T := hvs free (by simp)
    exact Logic.map (Closure.ensures_build hfree) fun c _ => ⟨rfl, Value.eachTree_record c⟩
  · exact Logic.throw _

/-- **What is built from arguments** is of the kind that was called, with every property that passes
up and that the trees in the arguments have. -/
theorem ensures_call (hT : Tree.PassesUp T) (hpositional : ∀ v ∈ args.positional, v.EachTree T)
    (hnamed : ∀ a ∈ args.named, a.2.EachTree T) :
    Ensures (Value.EachTree T) (h.call args : m BuildFault Value) fun v =>
      ofValue? v = some h ∧ v.EachTree T := by
  have hbind : ∀ ws, (args.bind h.name h.parameters).mapError BuildFault.arguments = .ok ws →
      ws.length = h.fieldNames.length ∧ ∀ w ∈ ws, w.EachTree T := fun ws hws =>
    Arguments.eachTree_of_bind (mapError_eq_ok_iff.mp hws) hpositional hnamed
  exact Logic.bind (Logic.ofExcept hbind) fun ws hws => ensures_build hT hws.1 hws.2

/-- The same where streams are met once. -/
theorem of_call (hT : Tree.PassesUp T) (hpositional : ∀ v ∈ args.positional, v.EachTree T)
    (hnamed : ∀ a ∈ args.named, a.2.EachTree T)
    (hcall : h.call args = (.ok v : Except BuildFault Value)) :
    ofValue? v = some h ∧ v.EachTree T :=
  Draws.ensures_except_iff.mp (ensures_call hT hpositional hnamed) v hcall

end Head

end LoweringIR
