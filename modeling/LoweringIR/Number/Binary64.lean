import LoweringIR.Instances

/-!
# Binary floating point, exactly

A document may hold numbers with a fraction or an exponent. They are kept as the doubles they
denote: a significand times a power of two, in integers, so that two of them are equal exactly when
they are the same value with the same sign. No machine arithmetic is involved; a proof can compute
with them.

`Binary64.ofDecimal` is the reading of a decimal numeral, rounded to nearest with ties to the even
significand. Numerals too large for a finite double denote an infinity.
-/

namespace LoweringIR

/-- A double. A finite one has the value `significand * 2 ^ exponent` and is canonical: the
significand is below `2 ^ 53`, the exponent at least `-1074`, and one of the two is at the lower end
of its range only when the value forces it. -/
inductive Binary64 where
  | finite (negative : Bool) (significand : Nat) (exponent : Int)
  | infinite (negative : Bool)
  | nan
deriving DecidableEq, Inhabited

namespace Binary64

/-- The exponent of the smallest doubles. -/
def leastExponent : Int := -1074

/-- The exponent of the largest doubles. -/
def greatestExponent : Int := 971

/-- Zero, with a sign. -/
def zero (negative : Bool) : Binary64 := .finite negative 0 leastExponent

/-- The quotient rounded to the nearest integer, a tie to the even one. -/
def roundDiv (num den : Nat) : Nat :=
  let q := num / den
  let r := num % den
  if 2 * r < den then q
  else if den < 2 * r then q + 1
  else if q % 2 = 0 then q else q + 1

/-- The fraction `num / den` divided by `2 ^ e`, as a fraction. -/
def scaled (num den : Nat) (e : Int) : Nat × Nat :=
  if 0 ≤ e then (num, den * 2 ^ e.toNat) else (num * 2 ^ (-e).toNat, den)

/-- The greatest `e` with `2 ^ e ≤ num / den`, for a positive fraction. -/
def binaryExponent (num den : Nat) : Int :=
  let guess : Int := (num.log2 : Int) - den.log2
  let s := scaled num den guess
  if s.2 ≤ s.1 then guess else guess - 1

/-- The double nearest to the fraction `num / den`. -/
def ofFraction (negative : Bool) (num den : Nat) : Binary64 :=
  if num = 0 then zero negative
  else
    let e := max (binaryExponent num den - 52) leastExponent
    let s := scaled num den e
    let m := roundDiv s.1 s.2
    let r := if m = 2 ^ (53 : Nat) then (2 ^ (52 : Nat), e + 1) else (m, e)
    if greatestExponent < r.2 then .infinite negative else .finite negative r.1 r.2

/-- How many decimal digits a positive number has. -/
def decimalLength (n : Nat) : Nat := (Nat.toDigits 10 n).length

/-- The double nearest to `digits * 10 ^ exponent`. A numeral whose leading digit stands far outside
the range of doubles is settled by that alone, without the power of ten. -/
def ofDecimal (negative : Bool) (digits : Nat) (exponent : Int) : Binary64 :=
  if digits = 0 then zero negative
  else if 400 < (decimalLength digits : Int) + exponent then .infinite negative
  else if (decimalLength digits : Int) + exponent < -400 then zero negative
  else if 0 ≤ exponent then ofFraction negative (digits * 10 ^ exponent.toNat) 1
  else ofFraction negative digits (10 ^ (-exponent).toNat)

/-! ### Order

Doubles are compared with each other and with integers by value: both sides become fractions over a
common power of two. -/

/-- A number as it is compared: an integer over a power of two, an infinity, or nothing at all. -/
inductive Magnitude where
  | ratio (num : Int) (shift : Nat)
  | infinite (negative : Bool)
  | undefined
deriving DecidableEq, Inhabited

/-- The value of a double. -/
def magnitude : Binary64 → Magnitude
  | .finite s m e =>
    let n : Int := if s then -(m : Int) else m
    if 0 ≤ e then .ratio (n * 2 ^ e.toNat) 0 else .ratio n (-e).toNat
  | .infinite s => .infinite s
  | .nan => .undefined

/-- The first number is the smaller one. Nothing is smaller or greater than an undefined number. -/
def Magnitude.less : Magnitude → Magnitude → Bool
  | .ratio a i, .ratio b j => decide (a * 2 ^ j < b * 2 ^ i)
  | .ratio _ _, .infinite s => !s
  | .infinite s, .ratio _ _ => s
  | .infinite s, .infinite t => s && !t
  | _, _ => false

/-- The two numbers have one value. -/
def Magnitude.same : Magnitude → Magnitude → Bool
  | .ratio a i, .ratio b j => decide (a * 2 ^ j = b * 2 ^ i)
  | .infinite s, .infinite t => s == t
  | _, _ => false

end Binary64

end LoweringIR
