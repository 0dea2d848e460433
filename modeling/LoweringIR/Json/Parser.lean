import LoweringIR.Json.Token

/-!
# Reading a document

The grammar is run as a machine with an explicit stack: one frame for every container that is still
open, and one note of what may come next. A text is therefore read in a single pass whatever its
depth, and the depth limit is a statement about the height of the stack: opening one container too
many is refused at that point, even if the text is malformed further on. So is an integer with too
many digits where a value is due; anywhere else it is as malformed as any other number.
-/

namespace LoweringIR.Json

/-- Why a text is no document. -/
inductive Fault where
  /-- The text breaks the grammar. -/
  | malformed
  /-- The text opens more containers than the limit allows. -/
  | tooDeep
  /-- A value is an integer with more digits than the limit allows. -/
  | tooManyDigits (digits : Nat)
deriving DecidableEq, Inhabited

/-- An open container: the items so far in reverse, or the members so far with the key whose value
is being read. -/
inductive Frame where
  | array (items : List Json)
  | object (members : List (String × Json)) (key : String)
deriving Inhabited

/-- What may come next. -/
inductive Expectation where
  /-- A value. -/
  | value
  /-- The first item of an array, or its end. -/
  | item
  /-- The first key of an object, or its end. -/
  | firstKey
  /-- A further key of an object. -/
  | key
  /-- The colon after a key. -/
  | colon
  /-- A comma, or the end of the innermost container. -/
  | separator
  /-- Nothing: this is the document. -/
  | nothing (document : Json)
deriving Inhabited

/-- The machine between two tokens. -/
structure State where
  frames : List Frame
  expectation : Expectation
deriving Inhabited

/-- Hands a finished value to the innermost open container. -/
def State.complete (value : Json) : List Frame → State
  | [] => ⟨[], .nothing value⟩
  | .array items :: frames => ⟨.array (value :: items) :: frames, .separator⟩
  | .object members key :: frames => ⟨.object (put key value members) key :: frames, .separator⟩

/-- Opens a container within the limit. -/
def State.push (limit : Nat) (frames : List Frame) (frame : Frame) (expectation : Expectation) :
    Except Fault State :=
  if limit ≤ frames.length then .error .tooDeep else .ok ⟨frame :: frames, expectation⟩

/-- Starts a value with its first token. -/
def State.begin (limit : Nat) (frames : List Frame) : Token → Except Fault State
  | .text s => .ok (complete (.str s) frames)
  | .scalar v => .ok (complete v frames)
  | .oversized digits => .error (.tooManyDigits digits)
  | .openArray => push limit frames (.array []) .item
  | .openObject => push limit frames (.object [] "") .firstKey
  | _ => .error .malformed

/-- Takes one token. -/
def State.step (limit : Nat) (s : State) (t : Token) : Except Fault State :=
  match s.expectation, t, s.frames with
  | .value, t, frames => begin limit frames t
  | .item, .closeArray, .array items :: frames => .ok (complete (.arr items.reverse) frames)
  | .item, t, frames => begin limit frames t
  | .firstKey, .closeObject, .object members _ :: frames => .ok (complete (.obj members) frames)
  | .firstKey, .text k, .object members _ :: frames => .ok ⟨.object members k :: frames, .colon⟩
  | .key, .text k, .object members _ :: frames => .ok ⟨.object members k :: frames, .colon⟩
  | .colon, .colon, frames => .ok ⟨frames, .value⟩
  | .separator, .comma, .array items :: frames => .ok ⟨.array items :: frames, .value⟩
  | .separator, .comma, .object members k :: frames => .ok ⟨.object members k :: frames, .key⟩
  | .separator, .closeArray, .array items :: frames =>
    .ok (complete (.arr items.reverse) frames)
  | .separator, .closeObject, .object members _ :: frames => .ok (complete (.obj members) frames)
  | _, _, _ => .error .malformed

/-- The document, once the text has ended. -/
def State.finish (s : State) : Except Fault Json :=
  match s.expectation with
  | .nothing document => .ok document
  | _ => .error .malformed

/-- Reads a text to its end. Every token takes at least one character, so `fuel` beyond the length
of the text is never used up. -/
def State.run (limit : Nat) : Nat → State → List Char → Except Fault Json
  | 0, s, _ => s.finish
  | fuel + 1, s, cs =>
    match Lexeme.next cs with
    | .finished => s.finish
    | .junk => .error .malformed
    | .token t rest =>
      match s.step limit t with
      | .ok s => run limit fuel s rest
      | .error e => .error e

/-- Reads a document that nests no deeper than `limit`. -/
def parse (limit : Nat) (cs : List Char) : Except Fault Json :=
  State.run limit (cs.length + 1) ⟨[], .value⟩ cs

end LoweringIR.Json
