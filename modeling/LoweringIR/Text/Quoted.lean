import LoweringIR.Instances
import LoweringIR.Text.Printable

/-!
# Quoted literals

A fault names the value it met, and it does so with a literal: a text in quotation marks in which
every character that cannot be seen is written by its code point. Two different texts never share a
literal, which a bare copy of the text could not promise.

The mark is the apostrophe, unless the text has an apostrophe and no quotation mark; then it is the
quotation mark. A text with both keeps the apostrophe and escapes it.
-/

namespace LoweringIR.Text

/-- The mark that encloses a literal by default. -/
def apostrophe : Char := '\x27'

/-- The mark that encloses a literal which holds an apostrophe and no quotation mark. -/
def quotationMark : Char := '\x22'

/-- The mark a literal of these characters is enclosed in. -/
def enclosingMark (cs : List Char) : Char :=
  if cs.contains apostrophe && !cs.contains quotationMark then quotationMark else apostrophe

/-- The last `width` hexadecimal digits of `n`, in lower case. -/
def hexDigits (width n : Nat) : List Char :=
  (List.range width).reverse.map fun i => Nat.digitChar (n / 16 ^ i % 16)

/-- A code point written by number: two, four or eight digits, whichever is the least that fits. -/
def escapeCode (n : Nat) : List Char :=
  if n < 0x100 then '\\' :: 'x' :: hexDigits 2 n
  else if n < 0x10000 then '\\' :: 'u' :: hexDigits 4 n
  else '\\' :: 'U' :: hexDigits 8 n

/-- A character inside a literal that is enclosed in `mark`. -/
def escapeChar (mark c : Char) : List Char :=
  if c = mark || c = '\\' then ['\\', c]
  else if c = '\n' then ['\\', 'n']
  else if c = '\r' then ['\\', 'r']
  else if c = '\t' then ['\\', 't']
  else if isVisible c then [c]
  else escapeCode c.toNat

/-- The literal of a text. -/
def quoted (s : String) : String :=
  let mark := enclosingMark s.toList
  String.ofList (mark :: s.toList.flatMap (escapeChar mark) ++ [mark])

/-- A byte inside a literal that is enclosed in `mark`: the visible ASCII characters stand for
themselves. -/
def escapeByte (mark : Char) (b : UInt8) : List Char :=
  let c := Char.ofNat b.toNat
  if c = mark || c = '\\' then ['\\', c]
  else if c = '\n' then ['\\', 'n']
  else if c = '\r' then ['\\', 'r']
  else if c = '\t' then ['\\', 't']
  else if 0x20 ≤ b && b ≤ 0x7E then [c]
  else '\\' :: 'x' :: hexDigits 2 b.toNat

/-- The literal of a string of bytes: a `b`, then the bytes under the same choice of marks. -/
def quotedBytes (bs : List UInt8) : String :=
  let mark := enclosingMark (bs.map fun b => Char.ofNat b.toNat)
  String.ofList ('b' :: mark :: bs.flatMap (escapeByte mark) ++ [mark])

end LoweringIR.Text
