import LoweringIR.Number.Binary64

/-!
# The shortest numeral of a double

Of all decimal numerals that read back as a given double, its text is made of one with the fewest
digits and, among those, of the nearest. A grid of `k`-digit numerals can hold such a numeral only
if one of the two grid points around the value is one, so the search looks at two candidates for
each `k`, and seventeen digits always suffice.

`Binary64.text` then lays the digits out: as a plain number with at least one decimal while the
leading digit stands between the fourth place behind the point and the sixteenth before it, and with
an exponent of at least two digits elsewhere.
-/

namespace LoweringIR.Binary64

/-- A decimal numeral: the value `digits * 10 ^ exponent`. -/
structure Numeral where
  digits : Nat
  exponent : Int
deriving DecidableEq, Inhabited

/-- The value of a finite double, sign aside, as a fraction. -/
def fraction (significand : Nat) (exponent : Int) : Nat × Nat :=
  if 0 ≤ exponent then (significand * 2 ^ exponent.toNat, 1)
  else (significand, 2 ^ (-exponent).toNat)

/-- The greatest `e` with `10 ^ e ≤ num / den`, for a positive fraction. -/
def decimalExponent (num den : Nat) : Int :=
  if den ≤ num then (decimalLength (num / den) : Int) - 1
  else -(decimalLength ((den + num - 1) / num - 1) : Int)

/-- The numeral, among the two points around `num / den` on the grid of multiples of `10 ^ e`, that
reads back as `x`; of two such numerals the nearer, and of two equally near the even one. -/
def gridNumeral? (x : Binary64) (num den : Nat) (e : Int) : Option Numeral :=
  let s : Nat × Nat :=
    if 0 ≤ e then (num, den * 10 ^ e.toNat) else (num * 10 ^ (-e).toNat, den)
  let below := s.1 / s.2
  let readsBack := fun d => decide (ofDecimal false d e = x)
  let nearest := roundDiv s.1 s.2
  if readsBack nearest then some ⟨nearest, e⟩
  else if readsBack below then some ⟨below, e⟩
  else if readsBack (below + 1) then some ⟨below + 1, e⟩
  else none

/-- The same numeral without zeros at the end of its digits. -/
def Numeral.trim (n : Numeral) : Numeral :=
  if n.digits ≠ 0 ∧ n.digits % 10 = 0 then trim ⟨n.digits / 10, n.exponent + 1⟩ else n
termination_by n.digits
decreasing_by exact Nat.div_lt_self (by omega) (by omega)

/-- The shortest numeral of a positive finite double. A grid point above the value may be the next
power of ten, which has fewer digits than the grid. -/
def shortest (significand : Nat) (exponent : Int) : Numeral :=
  let v := fraction significand exponent
  let top := decimalExponent v.1 v.2
  let found := (List.range 17).findSome? fun (k : Nat) =>
    gridNumeral? (.finite false significand exponent) v.1 v.2 (top - k)
  (found.getD ⟨v.1 / v.2, 0⟩).trim

/-- An exponent with its sign and at least two digits. -/
def exponentText (e : Int) : String :=
  let digits := Nat.toDigits 10 e.natAbs
  (if e < 0 then "e-" else "e+") ++
    String.ofList (List.replicate (2 - digits.length) '0' ++ digits)

/-- A positive numeral laid out around the place of its leading digit. -/
def Numeral.text (n : Numeral) : String :=
  let ds := Nat.toDigits 10 n.digits
  let lead : Int := n.exponent + ds.length - 1
  if lead < -4 ∨ 16 ≤ lead then
    let tail := ds.drop 1
    String.ofList (ds.take 1 ++ (if tail.isEmpty then [] else '.' :: tail)) ++ exponentText lead
  else if lead < 0 then
    "0." ++ String.ofList (List.replicate (-lead - 1).toNat '0' ++ ds)
  else
    let whole := (lead + 1).toNat
    let tail := ds.drop whole
    String.ofList (ds.take whole ++ List.replicate (whole - ds.length) '0') ++ "." ++
      (if tail.isEmpty then "0" else String.ofList tail)

/-- The text of a double. -/
def text : Binary64 → String
  | .finite s m e =>
    (if s then "-" else "") ++ (if m = 0 then "0.0" else (shortest m e).text)
  | .infinite s => if s then "-inf" else "inf"
  | .nan => "nan"

end LoweringIR.Binary64
