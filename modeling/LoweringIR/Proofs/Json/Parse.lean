import LoweringIR.Proofs.Json.Tokens

/-!
# Reading what has been written

The machine that reads documents has a stack of frames, and a value is read on top of whatever
frames there are: when its last token has been taken, the value has been handed to the innermost of
them. So a statement about a value inside a document is the statement about the whole of it, with
some frames below. It holds as long as the frames and the depth of the value are within the limit
together.

A container is read item by item. A state in which an item is due differs from one in which the
container may end only for the token that ends it, and no value starts with that token.

## Main definitions

* `Json.State.Takes` — the machine goes from one state to another by way of tokens

## Main results

* `Json.takes_tokens` — the tokens of a value, on top of any frames
* `Json.parse_text` — reading the text of a value gives the value
-/

namespace LoweringIR.Json

/-! ### Members and depth -/

/-- A member with a new key comes last. -/
theorem put_of_not_mem {key : String} {value : Json} {ms : List (String × Json)}
    (h : key ∉ ms.map Prod.fst) : put key value ms = ms ++ [(key, value)] := by
  induction ms with
  | nil => rfl
  | cons m ms ih =>
    rw [List.map_cons, List.mem_cons, not_or] at h
    rw [put, if_neg (Ne.symm h.1), ih h.2, List.cons_append]

/-- A key comes only once. -/
theorem not_mem_of_nodup {m : String × Json} {ms done : List (String × Json)}
    (keys : ((done ++ m :: ms).map Prod.fst).Nodup) : m.1 ∉ done.map Prod.fst := by
  rw [List.map_append, List.map_cons, List.nodup_append] at keys
  exact fun hmem => keys.2.2 _ hmem _ (List.mem_cons_self ..) rfl

theorem depth_le_depthItems {j : Json} {js : List Json} (h : j ∈ js) :
    j.depth ≤ depthItems js := by
  induction h with
  | head js => exact Nat.le_max_left _ _
  | tail i _ ih => exact Nat.le_trans ih (Nat.le_max_right _ _)

theorem depth_le_depthMembers {m : String × Json} {ms : List (String × Json)} (h : m ∈ ms) :
    m.2.depth ≤ depthMembers ms := by
  induction h with
  | head ms => exact Nat.le_max_left _ _
  | tail i _ ih => exact Nat.le_trans ih (Nat.le_max_right _ _)

/-! ### Runs of the machine -/

variable {limit : Nat} {s s' s'' : State} {t : Token} {ts us : List Token} {frames : List Frame}

/-- The machine goes from one state to another by way of tokens. -/
def State.Takes (limit : Nat) (s : State) (ts : List Token) (s' : State) : Prop :=
  ts.foldlM (State.step limit) s = .ok s'

namespace State

theorem Takes.cons (h : s.step limit t = .ok s') (h' : s'.Takes limit ts s'') :
    s.Takes limit (t :: ts) s'' := by
  rw [Takes, List.foldlM_cons, h]
  exact h'

theorem Takes.single (h : s.step limit t = .ok s') : s.Takes limit [t] s' := .cons h rfl

theorem Takes.append (h : s.Takes limit ts s') (h' : s'.Takes limit us s'') :
    s.Takes limit (ts ++ us) s'' := by
  rw [Takes, List.foldlM_append, h]
  exact h'

/-- Where an array may end, a value may start as where one is due. No value starts with the end of
an array. -/
theorem Takes.item {j : Json} (h : Takes limit ⟨frames, .value⟩ (tokens j ++ ts) s) :
    Takes limit ⟨frames, .item⟩ (tokens j ++ ts) s := by
  cases j <;> exact h

/-- Items are put in front of the ones before them. -/
theorem takes_items {items : List Json} {done : List Json} {item : Json}
    (h : ∀ j ∈ item :: items, ∀ done, Takes limit ⟨.array done :: frames, .value⟩ (tokens j)
      (complete j (.array done :: frames))) :
    Takes limit ⟨.array done :: frames, .value⟩ (separate ((item :: items).map tokens))
      ⟨.array ((item :: items).reverse ++ done) :: frames, .separator⟩ := by
  induction items generalizing item done with
  | nil =>
    rw [List.map_cons, List.map_nil, separate_singleton]
    exact h item (by simp) done
  | cons next items ih =>
    have hothers := @ih (item :: done) next fun j hj => h j (by simp [hj])
    rw [List.map_cons, List.map_cons, separate_cons_cons]
    refine (h item (by simp) done).append (.cons rfl ?_)
    simpa using hothers

/-- A member with a new key comes after the ones before it. -/
theorem takes_member {done : List (String × Json)} {m : String × Json} {key : String}
    (h : Takes limit ⟨.object done m.1 :: frames, .value⟩ (tokens m.2)
      (complete m.2 (.object done m.1 :: frames)))
    (hkey : m.1 ∉ done.map Prod.fst) :
    Takes limit ⟨.object done key :: frames, .key⟩ (.text m.1 :: .colon :: tokens m.2)
      ⟨.object (done ++ [m]) m.1 :: frames, .separator⟩ := by
  rw [complete, put_of_not_mem hkey] at h
  exact .cons rfl (.cons rfl h)

/-- Members come after the ones before them, in their order. -/
theorem takes_members {members done : List (String × Json)} {m : String × Json} {key : String}
    (h : ∀ e ∈ m :: members, ∀ done key, Takes limit ⟨.object done key :: frames, .value⟩
      (tokens e.2) (complete e.2 (.object done key :: frames)))
    (keys : ((done ++ m :: members).map Prod.fst).Nodup) :
    ∃ last, Takes limit ⟨.object done key :: frames, .key⟩
      (separate ((m :: members).map fun m => .text m.1 :: .colon :: tokens m.2))
      ⟨.object (done ++ m :: members) last :: frames, .separator⟩ := by
  induction members generalizing m done key with
  | nil =>
    rw [List.map_cons, List.map_nil, separate_singleton]
    exact ⟨m.1, takes_member (h m (by simp) done m.1) (not_mem_of_nodup keys)⟩
  | cons next members ih =>
    have hkeys : ((done ++ [m] ++ next :: members).map Prod.fst).Nodup := by
      simpa using keys
    obtain ⟨last, hothers⟩ := @ih (done ++ [m]) next m.1 (fun e he => h e (.tail _ he)) hkeys
    refine ⟨last, ?_⟩
    rw [List.map_cons, List.map_cons, separate_cons_cons]
    refine (takes_member (h m (by simp) done m.1) (not_mem_of_nodup keys)).append (.cons rfl ?_)
    simpa using hothers

/-- A container is opened within the limit. -/
theorem push_eq_ok (h : frames.length < limit) (frame : Frame) (expectation : Expectation) :
    push limit frames frame expectation = .ok ⟨frame :: frames, expectation⟩ := by
  rw [push, if_neg (Nat.not_le.mpr h)]

end State

open State (Takes complete)

/-- **The tokens of a value** are taken on top of any frames, within the limit. -/
theorem takes_tokens {j : Json} (hj : Readable j) (h : frames.length + j.depth ≤ limit) :
    Takes limit ⟨frames, .value⟩ (tokens j) (complete j frames) := by
  induction hj generalizing frames with
  | null =>
    simp only [tokens]
    exact .single rfl
  | bool b =>
    simp only [tokens]
    exact .single rfl
  | int h =>
    simp only [tokens]
    exact .single rfl
  | str s =>
    rw [tokens]
    exact .single rfl
  | @arr items _ ih =>
    rw [depth] at h
    have hlt : frames.length < limit := by omega
    have hopen : State.step limit ⟨frames, .value⟩ .openArray = .ok ⟨.array [] :: frames, .item⟩ :=
      State.push_eq_ok hlt _ _
    rw [tokens, itemTokens_eq]
    refine .cons hopen ?_
    cases items with
    | nil => exact .single rfl
    | cons item items =>
      have hitems := @State.takes_items limit frames items [] item fun j hj done => by
        have := depth_le_depthItems hj
        exact ih j hj (by rw [List.length_cons]; omega)
      obtain ⟨ts, hts⟩ := exists_separate_cons (tokens item) (items.map tokens)
      rw [List.map_cons, hts] at hitems ⊢
      refine hitems.item.append (.single ?_)
      simp [State.step]
  | @obj members keys _ ih =>
    rw [depth] at h
    have hlt : frames.length < limit := by omega
    have hopen : State.step limit ⟨frames, .value⟩ .openObject =
        .ok ⟨.object [] "" :: frames, .firstKey⟩ := State.push_eq_ok hlt _ _
    rw [tokens, memberTokens_eq]
    refine .cons hopen ?_
    cases members with
    | nil => exact .single rfl
    | cons m members =>
      obtain ⟨last, hmembers⟩ := @State.takes_members limit frames members [] m ""
        (fun e he done key => by
          have := depth_le_depthMembers he
          exact ih e he (by rw [List.length_cons]; omega)) keys
      obtain ⟨ts, hts⟩ := exists_separate_cons (.text m.1 :: .colon :: tokens m.2)
        (members.map fun m => .text m.1 :: .colon :: tokens m.2)
      rw [List.map_cons, hts] at hmembers ⊢
      have hfirst : Takes limit ⟨.object [] "" :: frames, .firstKey⟩
          (.text m.1 :: .colon :: tokens m.2 ++ ts)
          ⟨.object ([] ++ m :: members) last :: frames, .separator⟩ := hmembers
      exact hfirst.append (.single rfl)

/-- Behind a document, the end of a line is passed over. -/
theorem run_nothing (fuel : Nat) (j : Json) :
    State.run limit fuel ⟨[], .nothing j⟩ ['\n'] = .ok j := by
  cases fuel <;> rfl

/-- **Reading the text of a value** gives the value, with the end of a line behind it. -/
theorem parse_text {j : Json} (hj : Readable j) (h : j.depth ≤ limit) :
    parse limit (j.text ++ "\n").toList = .ok j := by
  have hlexes := (lexes_textAt hj 0).2 ['\n'] (separated_line [])
  have htakes := @takes_tokens limit [] j hj (by simpa using h)
  obtain ⟨fuel, hfuel⟩ := Nat.exists_eq_add_of_le (Nat.le_of_add_right_le hlexes.length_le)
  have htext : (j.text ++ "\n").toList = (textAt 0 j).toList ++ ['\n'] := String.toList_append ..
  rw [parse, htext, hfuel, Nat.add_assoc, hlexes.run_eq, htakes]
  exact run_nothing _ j

end LoweringIR.Json
