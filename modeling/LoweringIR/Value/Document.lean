import LoweringIR.Json.Basic
import LoweringIR.Value.Basic

/-!
# Values that documents hold

Most values are document values in another guise, but not all: bytes, streams, nodes and records
have no written form, and neither has a dictionary with a key that is no text. Nor is there room in
a document for any depth. A value is gone through in the order in which it would be written, and
what is met first decides which fault it is.

Main statement: a value that is turned into a document value with some room has no greater depth
than that.
-/

namespace LoweringIR

/-- Why a value has no document value. -/
inductive WriteFault where
  /-- A container stands deeper than there is room for. -/
  | tooDeep
  /-- A part has no written form. -/
  | foreign (part : Value)
deriving Inhabited

namespace Value

mutual

/-- The document value of a value, with room for so many containers in each other. Tuples are arrays
too. -/
def toJson (room : Nat) : Value → Except WriteFault Json
  | null => .ok .null
  | bool b => .ok (.bool b)
  | int n => .ok (.int n)
  | float x => .ok (.float x)
  | str s => .ok (.str s)
  | list vs => if room = 0 then .error .tooDeep else .arr <$> toJsonItems (room - 1) vs
  | tuple vs => if room = 0 then .error .tooDeep else .arr <$> toJsonItems (room - 1) vs
  | dict es => if room = 0 then .error .tooDeep else .obj <$> toJsonMembers (room - 1) es
  | v => .error (.foreign v)

/-- The document values of values. -/
def toJsonItems (room : Nat) : List Value → Except WriteFault (List Json)
  | [] => .ok []
  | v :: vs => do
    let j ← toJson room v
    pure (j :: (← toJsonItems room vs))

/-- The members of entries. -/
def toJsonMembers (room : Nat) :
    List (Value × Value) → Except WriteFault (List (String × Json))
  | [] => .ok []
  | e :: es => match e.1 with
    | str s => do
      let j ← toJson room e.2
      pure ((s, j) :: (← toJsonMembers room es))
    | k => .error (.foreign k)

end

private theorem ok_of_map {ε α β : Type} {f : α → β} {x : Except ε α} {b : β}
    (h : f <$> x = .ok b) : ∃ a, x = .ok a ∧ f a = b := by
  cases x with
  | error e => cases h
  | ok a => exact ⟨a, rfl, Except.ok.inj h⟩

private theorem ok_of_bind {ε α β : Type} {x : Except ε α} {f : α → Except ε β} {b : β}
    (h : x >>= f = .ok b) : ∃ a, x = .ok a ∧ f a = .ok b := by
  cases x with
  | error e => cases h
  | ok a => exact ⟨a, rfl, h⟩

mutual

/-- What has been turned into a document value fits into the room. -/
theorem depth_le_of_toJson {room : Nat} {j : Json} :
    ∀ {v : Value}, toJson room v = .ok j → j.depth ≤ room
  | null, h | bool _, h | int _, h | float _, h | str _, h => by
    cases h
    simp [Json.depth]
  | list vs, h | tuple vs, h => by
    rw [toJson] at h
    split at h
    · cases h
    · obtain ⟨js, hjs, rfl⟩ := ok_of_map h
      have := depthItems_le_of_toJsonItems hjs
      rw [Json.depth]
      omega
  | dict es, h => by
    rw [toJson] at h
    split at h
    · cases h
    · obtain ⟨ms, hms, rfl⟩ := ok_of_map h
      have := depthMembers_le_of_toJsonMembers hms
      rw [Json.depth]
      omega
  | bytes _, h | stream _ _, h | node _, h | record _, h => by
    simp [toJson] at h

private theorem depthItems_le_of_toJsonItems {room : Nat} {js : List Json} :
    ∀ {vs : List Value}, toJsonItems room vs = .ok js → Json.depthItems js ≤ room
  | [], h => by
    cases h
    simp [Json.depthItems]
  | v :: vs, h => by
    obtain ⟨j, hj, h⟩ := ok_of_bind h
    obtain ⟨js, hjs, h⟩ := ok_of_bind h
    cases h
    rw [Json.depthItems]
    exact Nat.max_le.mpr ⟨depth_le_of_toJson hj, depthItems_le_of_toJsonItems hjs⟩

private theorem depthMembers_le_of_toJsonMembers {room : Nat} {ms : List (String × Json)} :
    ∀ {es : List (Value × Value)}, toJsonMembers room es = .ok ms → Json.depthMembers ms ≤ room
  | [], h => by
    cases h
    simp [Json.depthMembers]
  | e :: es, h => by
    rw [toJsonMembers] at h
    split at h
    · obtain ⟨j, hj, h⟩ := ok_of_bind h
      obtain ⟨ms, hms, h⟩ := ok_of_bind h
      cases h
      rw [Json.depthMembers]
      exact Nat.max_le.mpr ⟨depth_le_of_toJson hj, depthMembers_le_of_toJsonMembers hms⟩
    · cases h

end

end Value

end LoweringIR
