import Mathlib.Data.List.Forall2
import Mathlib.Data.List.Perm.Basic

/-!
# Computations that may fail

What is done to the members of a list, one after the other, fails if it fails for one of them. These
lemmas say so for the two ways in which the library goes through a list: for results (`mapM`) and
for nothing but success (`forM`).
-/

namespace LoweringIR

variable {ε α β : Type}

@[simp] theorem ok_bind {a : α} {f : α → Except ε β} : (Except.ok a >>= f) = f a := rfl

@[simp] theorem ofExcept_ok {ε' : Type} [MonadExceptOf ε (Except ε')] {a : α} :
    MonadExcept.ofExcept (Except.ok a : Except ε α) = (Except.ok a : Except ε' α) := rfl

theorem bind_eq_ok_iff {x : Except ε α} {f : α → Except ε β} {b : β} :
    x >>= f = .ok b ↔ ∃ a, x = .ok a ∧ f a = .ok b := by
  cases x <;> simp [bind, Except.bind]

theorem map_eq_ok_iff {x : Except ε α} {f : α → β} {b : β} :
    f <$> x = .ok b ↔ ∃ a, x = .ok a ∧ f a = b := by
  cases x <;> simp [Functor.map, Except.map]

@[simp] theorem mapError_eq_ok_iff {ε' : Type} {f : ε → ε'} {x : Except ε α} {a : α} :
    x.mapError f = .ok a ↔ x = .ok a := by
  cases x <;> simp [Except.mapError]

theorem bind_eq_error_iff {x : Except ε α} {f : α → Except ε β} {e : ε} :
    x >>= f = .error e ↔ x = .error e ∨ ∃ a, x = .ok a ∧ f a = .error e := by
  cases x <;> simp [bind, Except.bind]

theorem map_eq_error_iff {x : Except ε α} {f : α → β} {e : ε} :
    f <$> x = .error e ↔ x = .error e := by
  cases x <;> simp [Functor.map, Except.map]

theorem mapError_eq_error_iff {ε' : Type} {f : ε → ε'} {x : Except ε α} {e : ε'} :
    x.mapError f = .error e ↔ ∃ e', x = .error e' ∧ f e' = e := by
  cases x <;> simp [Except.mapError]

@[simp] theorem ofExcept_eq_ok_iff {x : Except ε α} {a : α} :
    (MonadExcept.ofExcept x : Except ε α) = .ok a ↔ x = .ok a := by
  cases x <;> simp [MonadExcept.ofExcept, throw, throwThe, MonadExceptOf.throw, pure, Except.pure]

theorem bind_eq_ok_unit_iff {x y : Except ε Unit} :
    (x >>= fun _ => y) = .ok () ↔ x = .ok () ∧ y = .ok () := by
  cases x <;> simp [bind, Except.bind]

theorem forM_eq_ok_iff {f : α → Except ε Unit} {as : List α} :
    forM as f = .ok () ↔ ∀ a ∈ as, f a = .ok () := by
  induction as with
  | nil => simp [pure, Except.pure]
  | cons a as ih => rw [List.forM_cons, bind_eq_ok_unit_iff, List.forall_mem_cons, ih]

theorem forall₂_comp {γ : Type} {R : α → β → Prop} {S : β → γ → Prop} {as : List α} {bs : List β}
    {cs : List γ} (h : List.Forall₂ R as bs) (h' : List.Forall₂ S bs cs) :
    List.Forall₂ (fun a c => ∃ b, R a b ∧ S b c) as cs := by
  induction h generalizing cs with
  | nil =>
    cases h'
    exact .nil
  | cons hr _ ih =>
    obtain _ | ⟨hs, hcs⟩ := h'
    exact .cons ⟨_, hr, hs⟩ (ih hcs)

/-- A list has a result if every member has one, and these are its members. -/
theorem mapM_eq_ok_iff {f : α → Except ε β} {as : List α} {bs : List β} :
    as.mapM f = .ok bs ↔ List.Forall₂ (fun a b => f a = .ok b) as bs := by
  induction as generalizing bs with
  | nil => simp [pure, Except.pure, eq_comm]
  | cons a as ih =>
    rw [List.mapM_cons, bind_eq_ok_iff]
    simp only [bind_eq_ok_iff, ih, pure, Except.pure, Except.ok.injEq]
    constructor
    · rintro ⟨b, hb, cs, hcs, rfl⟩
      exact .cons hb hcs
    · rintro (_ | ⟨hb, hcs⟩)
      exact ⟨_, hb, _, hcs, rfl⟩

/-- What is in the result comes from a member. -/
theorem exists_of_mem_of_mapM_eq_ok {f : α → Except ε β} {as : List α} {bs : List β} {b : β}
    (h : as.mapM f = .ok bs) (hb : b ∈ bs) : ∃ a ∈ as, f a = .ok b := by
  induction as generalizing bs with
  | nil =>
    obtain rfl := Except.ok.inj h
    cases hb
  | cons a as ih =>
    rw [List.mapM_cons, bind_eq_ok_iff] at h
    obtain ⟨c, hc, h⟩ := h
    obtain ⟨cs, hcs, h⟩ := bind_eq_ok_iff.mp h
    obtain rfl := Except.ok.inj h
    rcases List.mem_cons.mp hb with rfl | hb
    · exact ⟨a, List.mem_cons_self .., hc⟩
    · obtain ⟨d, hd, hdb⟩ := ih hcs hb
      exact ⟨d, List.mem_cons_of_mem _ hd, hdb⟩

/-- A list has a result only if every member has one. -/
theorem exists_of_mapM_eq_ok {f : α → Except ε β} {as : List α} {bs : List β} {a : α}
    (h : as.mapM f = .ok bs) (ha : a ∈ as) : ∃ b, f a = .ok b := by
  rw [mapM_eq_ok_iff] at h
  induction h with
  | nil => cases ha
  | cons hb _ ih =>
    rcases List.mem_cons.mp ha with rfl | ha
    · exact ⟨_, hb⟩
    · exact ih ha

/-- A list that fails does so for one of its members. -/
theorem exists_of_mapM_eq_error {f : α → Except ε β} {as : List α} {e : ε}
    (h : as.mapM f = .error e) : ∃ a ∈ as, f a = .error e := by
  induction as with
  | nil => cases h
  | cons a as ih =>
    rw [List.mapM_cons] at h
    obtain h | ⟨b, -, h⟩ := bind_eq_error_iff.mp h
    · exact ⟨a, List.mem_cons_self .., h⟩
    · obtain h | ⟨bs, -, h⟩ := bind_eq_error_iff.mp h
      · obtain ⟨c, hc, hce⟩ := ih h
        exact ⟨c, List.mem_cons_of_mem _ hc, hce⟩
      · cases h

/-- Where what has a result on the left has the same on the right, so have lists. -/
theorem mapM_map_of_mapM_map {γ : Type} {f : α → Except ε β} {g h : γ → α} {cs : List γ} {bs : List β}
    (hf : ∀ c ∈ cs, ∀ b, f (g c) = .ok b → f (h c) = .ok b) (hbs : (cs.map g).mapM f = .ok bs) :
    (cs.map h).mapM f = .ok bs := by
  rw [mapM_eq_ok_iff, List.forall₂_map_left_iff] at *
  induction hbs with
  | nil => exact .nil
  | @cons c b cs bs hb _ ih =>
    exact .cons (hf c (List.mem_cons_self ..) b hb)
      (ih fun d hd => hf d (List.mem_cons_of_mem _ hd))

/-- Members that all have results have them in any order. -/
theorem exists_mapM_of_perm {f : α → Except ε β} {as as' : List α} {bs : List β}
    (h : as.Perm as') (hbs : as.mapM f = .ok bs) : ∃ bs', as'.mapM f = .ok bs' ∧ bs.Perm bs' := by
  rw [mapM_eq_ok_iff] at hbs
  obtain ⟨bs', hbs', hperm⟩ := List.perm_comp_forall₂ h.symm hbs
  exact ⟨bs', mapM_eq_ok_iff.mpr hbs', hperm.symm⟩

theorem mapM_congr {f g : α → Except ε β} {as : List α} (h : ∀ a ∈ as, f a = g a) :
    as.mapM f = as.mapM g := by
  induction as with
  | nil => rfl
  | cons a as ih =>
    rw [List.mapM_cons, List.mapM_cons, h a (List.mem_cons_self ..),
      ih fun b hb => h b (List.mem_cons_of_mem _ hb)]

/-- What is made of something beside which something else stands is made of it alone. -/
theorem mapM_beside {γ : Type} (g : α → γ) (f : α → Except ε β) (as : List α) :
    as.mapM (fun a => (fun b => (g a, b)) <$> f a) =
      (fun bs => (as.map g).zip bs) <$> as.mapM f := by
  induction as with
  | nil => rfl
  | cons a as ih =>
    rw [List.mapM_cons, List.mapM_cons, ih]
    cases f a with
    | error e => rfl
    | ok b => cases as.mapM f <;> rfl

/-- Where every member has a result, so has the list, in any monad. -/
theorem mapM_eq_pure_map {m : Type → Type} [Monad m] [LawfulMonad m] {f : α → m β} {g : α → β}
    {as : List α} (h : ∀ a ∈ as, f a = pure (g a)) : as.mapM f = pure (as.map g) := by
  induction as with
  | nil => simp
  | cons a as ih =>
    rw [List.mapM_cons, h a (List.mem_cons_self ..), ih fun b hb => h b (List.mem_cons_of_mem _ hb),
      pure_bind, pure_bind, List.map_cons]

theorem mapM_eq_ok_map {f : α → Except ε β} {g : α → β} {as : List α}
    (h : ∀ a ∈ as, f a = .ok (g a)) : as.mapM f = .ok (as.map g) :=
  mapM_eq_pure_map h

/-- Where members come from results that they lead back to, so does the list. -/
theorem mapM_map_eq_pure {m : Type → Type} [Monad m] [LawfulMonad m] {f : α → m β} {g : β → α}
    {bs : List β} (h : ∀ b ∈ bs, f (g b) = pure b) : (bs.map g).mapM f = pure bs := by
  rw [List.mapM_map]
  exact (mapM_eq_pure_map h).trans (congrArg _ bs.map_id)

/-- Where all members that fail do so for one reason, that is the reason why the list fails. -/
theorem mapM_eq_error {f : α → Except ε β} {as : List α} {e : ε}
    (h : ∀ a ∈ as, (∃ b, f a = .ok b) ∨ f a = .error e) (he : ∃ a ∈ as, f a = .error e) :
    as.mapM f = .error e := by
  induction as with
  | nil => obtain ⟨a, ha, -⟩ := he; cases ha
  | cons a as ih =>
    rw [List.mapM_cons]
    rcases h a (List.mem_cons_self ..) with ⟨b, hb⟩ | hb
    · have htail : ∃ c ∈ as, f c = .error e := by
        obtain ⟨c, hc, hce⟩ := he
        rcases List.mem_cons.mp hc with rfl | hc
        · rw [hb] at hce
          cases hce
        · exact ⟨c, hc, hce⟩
      rw [hb, ih (fun c hc => h c (List.mem_cons_of_mem _ hc)) htail]
      rfl
    · rw [hb]
      rfl

end LoweringIR
