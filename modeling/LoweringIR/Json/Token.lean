import LoweringIR.Json.Basic

/-!
# Tokens of a document text

A text is taken apart one token at a time: `Lexeme.next` passes over blanks and reads the longest
token that starts there. A string token carries the text it denotes, a scalar token its value, so
nothing after this module looks at escapes or digits. Of an integer beyond the limit only the number
of its digits is kept.

The words `NaN`, `Infinity` and `-Infinity` are numbers here. An escape of a surrogate that has no
partner denotes the replacement character.
-/

namespace LoweringIR.Json

/-- A token. -/
inductive Token where
  | openArray
  | closeArray
  | openObject
  | closeObject
  | comma
  | colon
  | text (value : String)
  | scalar (value : Json)
  | oversized (digits : Nat)
deriving Inhabited

/-- What stands at the front of a text. -/
inductive Lexeme where
  /-- Only blanks are left. -/
  | finished
  /-- No token starts here. -/
  | junk
  /-- A token, and the text after it. -/
  | token (token : Token) (rest : List Char)
deriving Inhabited

/-- The four blanks between tokens. -/
def isBlank (c : Char) : Bool := c = ' ' || c = '\t' || c = '\n' || c = '\r'

/-! ### Strings -/

/-- The value of a hexadecimal digit. -/
def hexValue? (c : Char) : Option Nat :=
  let n := c.toNat
  if '0'.toNat ≤ n ∧ n ≤ '9'.toNat then some (n - '0'.toNat)
  else if 'a'.toNat ≤ n ∧ n ≤ 'f'.toNat then some (n - 'a'.toNat + 10)
  else if 'A'.toNat ≤ n ∧ n ≤ 'F'.toNat then some (n - 'A'.toNat + 10)
  else none

/-- The sixteen bits that four hexadecimal digits spell. -/
def unit? (a b c d : Char) : Option Nat := do
  pure ((((← hexValue? a) * 16 + (← hexValue? b)) * 16 + (← hexValue? c)) * 16 + (← hexValue? d))

/-- The first half of a character beyond the sixteen-bit range. -/
def isHighSurrogate (u : Nat) : Bool := 0xD800 ≤ u && u < 0xDC00

/-- The second half of such a character. -/
def isLowSurrogate (u : Nat) : Bool := 0xDC00 ≤ u && u < 0xE000

/-- The character that two halves denote. -/
def joinSurrogates (high low : Nat) : Char :=
  Char.ofNat (0x10000 + (high - 0xD800) * 0x400 + (low - 0xDC00))

/-- What stands for a surrogate without a partner. -/
def replacement : Char := Char.ofNat 0xFFFD

/-- The characters read so far, in reverse, once a high surrogate that waited for its partner is
given up. -/
def settle (high : Option Nat) (read : List Char) : List Char :=
  if high.isSome then replacement :: read else read

/-- The character that a one-letter escape denotes. -/
def shortEscape? (c : Char) : Option Char :=
  if c = '\x22' then some c
  else if c = '\\' then some c
  else if c = '/' then some c
  else if c = 'b' then some '\x08'
  else if c = 'f' then some '\x0c'
  else if c = 'n' then some '\n'
  else if c = 'r' then some '\r'
  else if c = 't' then some '\t'
  else none

/-- Reads a string up to its closing mark. `high` is a high surrogate whose partner may follow, and
`read` holds the characters so far in reverse. -/
def readText (high : Option Nat) (read : List Char) : List Char → Option (String × List Char)
  | [] => none
  | '\\' :: 'u' :: a :: b :: c :: d :: rest =>
    match unit? a b c d with
    | none => none
    | some u =>
      if isHighSurrogate u then readText (some u) (settle high read) rest
      else if isLowSurrogate u then
        match high with
        | some h => readText none (joinSurrogates h u :: read) rest
        | none => readText none (replacement :: read) rest
      else readText none (Char.ofNat u :: settle high read) rest
  | '\\' :: e :: rest =>
    match shortEscape? e with
    | none => none
    | some c => readText none (c :: settle high read) rest
  | c :: rest =>
    if c = '\x22' then some (String.ofList (settle high read).reverse, rest)
    else if c = '\\' || c.toNat < 0x20 then none
    else readText none (c :: settle high read) rest

/-! ### Numbers -/

/-- A decimal digit. -/
def isDigit (c : Char) : Bool := '0'.toNat ≤ c.toNat && c.toNat ≤ '9'.toNat

/-- The number that a run of digits spells. -/
def digitsValue (cs : List Char) : Nat :=
  cs.foldl (fun n c => n * 10 + (c.toNat - '0'.toNat)) 0

/-- The digits before the point: a lone zero, or a run that does not start with one. -/
def readWhole? : List Char → Option (List Char × List Char)
  | '0' :: rest => some (['0'], rest)
  | cs =>
    let ds := cs.takeWhile isDigit
    if ds.isEmpty then none else some (ds, cs.dropWhile isDigit)

/-- The digits behind the point, if a point and at least one digit follow. -/
def readDecimals : List Char → List Char × List Char
  | '.' :: rest =>
    let ds := rest.takeWhile isDigit
    if ds.isEmpty then ([], '.' :: rest) else (ds, rest.dropWhile isDigit)
  | cs => ([], cs)

/-- The exponent, if a mark and at least one digit follow. -/
def readExponent (cs : List Char) : Option Int × List Char :=
  match cs with
  | mark :: rest =>
    if mark = 'e' || mark = 'E' then
      let signed : Bool × List Char := match rest with
        | '-' :: r => (true, r)
        | '+' :: r => (false, r)
        | r => (false, r)
      let ds := signed.2.takeWhile isDigit
      if ds.isEmpty then (none, cs)
      else
        let n : Int := digitsValue ds
        (some (if signed.1 then -n else n), signed.2.dropWhile isDigit)
    else (none, cs)
  | [] => (none, cs)

/-- The integer that a run of digits spells. -/
def integer (negative : Bool) (digits : List Char) : Token :=
  if digitLimit < digits.length then .oversized digits.length
  else
    let n : Int := digitsValue digits
    .scalar (.int (if negative then -n else n))

/-- Reads the longest number. It is an integer if it has neither decimals nor an exponent. -/
def readNumber? (negative : Bool) (cs : List Char) : Option (Token × List Char) :=
  match readWhole? cs with
  | none => none
  | some (whole, rest) =>
    let decimals := readDecimals rest
    let exponent := readExponent decimals.2
    if decimals.1.isEmpty && exponent.1.isNone then some (integer negative whole, exponent.2)
    else
      some (.scalar (.float (.ofDecimal negative (digitsValue (whole ++ decimals.1))
        (exponent.1.getD 0 - decimals.1.length))), exponent.2)

/-! ### Tokens -/

/-- The words that are values. -/
def words : List (List Char × Json) :=
  [("null".toList, .null), ("true".toList, .bool true), ("false".toList, .bool false),
   ("NaN".toList, .float .nan), ("Infinity".toList, .float (.infinite false)),
   ("-Infinity".toList, .float (.infinite true))]

/-- The word at the front of a text, and the text after it. -/
def readWord? (cs : List Char) : Option (Json × List Char) :=
  words.findSome? fun w => if w.1.isPrefixOf cs then some (w.2, cs.drop w.1.length) else none

/-- A scalar at the front of a text: a word or a number. -/
def readScalar (cs : List Char) : Lexeme :=
  match readWord? cs with
  | some (v, rest) => .token (.scalar v) rest
  | none =>
    let number := match cs with
      | '-' :: rest => readNumber? true rest
      | _ => readNumber? false cs
    match number with
    | some (t, rest) => .token t rest
    | none => .junk

/-- The token at the front of a text without leading blanks. -/
def Lexeme.read : List Char → Lexeme
  | [] => .finished
  | '[' :: rest => .token .openArray rest
  | ']' :: rest => .token .closeArray rest
  | '\x7b' :: rest => .token .openObject rest
  | '\x7d' :: rest => .token .closeObject rest
  | ',' :: rest => .token .comma rest
  | ':' :: rest => .token .colon rest
  | '\x22' :: rest =>
    match readText none [] rest with
    | some (s, rest) => .token (.text s) rest
    | none => .junk
  | cs => readScalar cs

/-- The next token of a text. -/
def Lexeme.next (cs : List Char) : Lexeme := .read (cs.dropWhile isBlank)

end LoweringIR.Json
