import LoweringIR.Text.Quoted

/-!
# Strict UTF-8

Reading a text from bytes is a machine that takes one byte at a time. Between characters it holds
nothing; inside one it holds what the first byte announced: how many bytes are still owed, and the
range the next one must lie in. The range is narrower than that of a continuation byte only right
after `E0`, `ED`, `F0` and `F4`, which is what keeps overlong forms, surrogates and numbers beyond
the last code point out.

The machine stops at the first byte that cannot continue the text, and the fault says where the
broken character began and how many of its bytes were good.
-/

namespace LoweringIR.Text.Utf8

/-- Why a sequence of bytes is no character. -/
inductive Cause where
  /-- No character starts with this byte. -/
  | invalidStart
  /-- A byte is not the continuation that the bytes before it ask for. -/
  | invalidContinuation
  /-- The bytes end inside a character. -/
  | unexpectedEnd
deriving DecidableEq, Inhabited

/-- The wording of a cause. -/
def Cause.message : Cause → String
  | .invalidStart => "invalid start byte"
  | .invalidContinuation => "invalid continuation byte"
  | .unexpectedEnd => "unexpected end of data"

/-- A broken character: its first byte, where that stands, how many bytes of it are well formed so
far (at least one), and what is wrong. -/
structure Fault where
  position : Nat
  first : UInt8
  length : Nat
  cause : Cause
deriving DecidableEq, Inhabited

/-- The wording of a fault: one byte is shown, several are only located. -/
def Fault.message (f : Fault) : String :=
  let place :=
    if f.length ≤ 1 then
      "byte 0x" ++ String.ofList (hexDigits 2 f.first.toNat) ++ " in position " ++
        toString f.position
    else
      "bytes in position " ++ toString f.position ++ "-" ++ toString (f.position + f.length - 1)
  "'utf-8' codec can't decode " ++ place ++ ": " ++ f.cause.message

/-- A character that has begun: its first byte, the bytes taken, the bytes owed, the range of the
next byte, and the bits gathered. -/
structure Pending where
  first : UInt8
  taken : Nat
  owed : Nat
  low : Nat
  high : Nat
  bits : Nat
deriving DecidableEq, Inhabited

/-- What the first byte of a character of several bytes announces. -/
def Pending.ofFirst? (b : UInt8) : Option Pending :=
  let n := b.toNat
  if n < 0xC2 then none
  else if n < 0xE0 then some ⟨b, 1, 1, 0x80, 0xBF, n - 0xC0⟩
  else if n = 0xE0 then some ⟨b, 1, 2, 0xA0, 0xBF, 0⟩
  else if n = 0xED then some ⟨b, 1, 2, 0x80, 0x9F, n - 0xE0⟩
  else if n < 0xF0 then some ⟨b, 1, 2, 0x80, 0xBF, n - 0xE0⟩
  else if n = 0xF0 then some ⟨b, 1, 3, 0x90, 0xBF, 0⟩
  else if n < 0xF4 then some ⟨b, 1, 3, 0x80, 0xBF, n - 0xF0⟩
  else if n = 0xF4 then some ⟨b, 1, 3, 0x80, 0x8F, n - 0xF0⟩
  else none

/-- The machine, at `position`, with the characters read so far in reverse. -/
def decodeFrom (position : Nat) (read : List Char) :
    Option Pending → List UInt8 → Except Fault (List Char)
  | none, [] => .ok read.reverse
  | some p, [] => .error ⟨position - p.taken, p.first, p.taken, .unexpectedEnd⟩
  | none, b :: bs =>
    if b < 0x80 then decodeFrom (position + 1) (Char.ofNat b.toNat :: read) none bs
    else match Pending.ofFirst? b with
      | none => .error ⟨position, b, 1, .invalidStart⟩
      | some p => decodeFrom (position + 1) read (some p) bs
  | some p, b :: bs =>
    let n := b.toNat
    if p.low ≤ n ∧ n ≤ p.high then
      let bits := p.bits * 64 + (n - 0x80)
      if p.owed ≤ 1 then decodeFrom (position + 1) (Char.ofNat bits :: read) none bs
      else decodeFrom (position + 1) read
        (some ⟨p.first, p.taken + 1, p.owed - 1, 0x80, 0xBF, bits⟩) bs
    else .error ⟨position - p.taken, p.first, p.taken, .invalidContinuation⟩

/-- The text that the bytes spell, or the first place where they spell none. -/
def decode (bytes : List UInt8) : Except Fault (List Char) :=
  decodeFrom 0 [] none bytes

/-- The bytes of a text. -/
def encode (s : String) : List UInt8 := s.toByteArray.toList

end LoweringIR.Text.Utf8
