import LoweringIR.Disk.Basic
import LoweringIR.Json.Parser
import LoweringIR.Json.Printer
import LoweringIR.Log
import LoweringIR.Text.Utf8
import LoweringIR.Tree.Decode
import LoweringIR.Tree.Encode
import LoweringIR.Value.Document

/-!
# Tree documents

A document holds one tree, with the name of its family and of the format, so that it can be read
without being told what it is. Writing produces the whole text before anything is done with it, and
reading takes the whole text, so neither leaves half of its work behind when it fails.

Both give up at the same depth. What is written can therefore be read, and it is the same tree.
-/

namespace LoweringIR.Document

/-- The name of the format. -/
def format : String := "schemec.tree/1"

/-- Where the records of this module come from. -/
def logger : String := "schemec.tree_json"

/-! ### Writing -/

/-- Why a tree has no document. -/
inductive DumpFault where
  /-- The tree belongs to no family. -/
  | noFamily (name : String)
  /-- The tree nests deeper than documents do. -/
  | tooDeep (name : String)
  /-- The tree holds a blank. -/
  | notSerializable (type : String)
deriving DecidableEq, Inhabited

/-- The wording of a fault. -/
def DumpFault.message : DumpFault → String
  | .noFamily name => name ++ " does not belong to a known IR family"
  | .tooDeep name => name ++ " tree nests too deeply for the json module"
  | .notSerializable type => "Object of type " ++ type ++ " is not JSON serializable"

/-- The family of a tree. -/
def familyOf (t : Tree) : Except DumpFault Family :=
  match t.family? with
  | some f => .ok f
  | none => .error (.noFamily t.headName)

/-- The document of a tree. Its tree is one level down. -/
def ofTree (t : Tree) : Except DumpFault Json := do
  let f ← familyOf t
  match (Value.node t).encode.toJson (Json.depthLimit - 1) with
  | .error .tooDeep => .error (.tooDeep t.headName)
  | .error (.foreign v) => .error (.notSerializable v.typeName)
  | .ok j => .ok (.obj [("format", .str format), ("family", .str f.name), ("tree", j)])

/-- The text of the document of a tree. It ends in a new line. -/
def dump (t : Tree) : Except DumpFault String := do
  pure ((← ofTree t).text ++ "\n")

/-- Why a tree is not saved. -/
inductive SaveFault where
  | dump (fault : DumpFault)
  | file (path : Path) (fault : FileFault)
deriving DecidableEq, Inhabited

/-- Writes the document of a tree to a file. Without a document the file is not touched. -/
def save {m : Type → Type} [Monad m] (disk : Disk m) (p : Path) (t : Tree) :
    m (Except SaveFault Unit) :=
  match dump t with
  | .error e => pure (.error (.dump e))
  | .ok text => do
    let written ← disk.write p (Text.Utf8.encode text)
    pure (written.mapError (.file p))

/-! ### Reading -/

/-- Why a text holds no tree. -/
inductive LoadFault where
  /-- The bytes are no text. -/
  | encoding (fault : Text.Utf8.Fault)
  /-- The text breaks the grammar of documents. -/
  | malformed
  /-- The text nests too deeply. -/
  | tooDeep (path : String)
  /-- The text has an integer with too many digits. -/
  | tooManyDigits (digits : Nat)
  /-- The document is no object. -/
  | notObject
  /-- The document is of another format. -/
  | unsupported (got : Value)
  /-- The document has no tree. -/
  | missingTree
  /-- What the document has for a tree describes none. -/
  | decode (fault : DecodeFault)
deriving Inhabited

/-- The wording of a fault. The grammar is strict about every character, so there is nothing to say
about where a text breaks it. -/
def LoadFault.message : LoadFault → String
  | .encoding f => f.message
  | .malformed => "malformed document"
  | .tooDeep path => path ++ ": document nested too deeply"
  | .tooManyDigits digits =>
    "Exceeds the limit (" ++ toString Json.digitLimit ++
      " digits) for integer string conversion: value has " ++ toString digits ++
      " digits; use sys.set_int_max_str_digits() to increase the limit"
  | .notObject => "tree document must be a JSON object"
  | .unsupported got =>
    "unsupported tree format " ++ got.literal ++ " (expected " ++ format ++ ")"
  | .missingTree => "tree document missing 'tree'"
  | .decode f => f.message

/-- The text of a document value: a string is itself, anything else its literal. -/
def scalarText : Json → String
  | .str s => s
  | j => (Value.ofJson j).literal

/-- The value of a text. -/
def parse (path : String) (bytes : List UInt8) : Except LoadFault Json :=
  match Text.Utf8.decode bytes with
  | .error e => .error (.encoding e)
  | .ok cs => match Json.parse Json.depthLimit cs with
    | .error .malformed => .error .malformed
    | .error .tooDeep => .error (.tooDeep path)
    | .error (.tooManyDigits digits) => .error (.tooManyDigits digits)
    | .ok j => .ok j

/-- The name of the family that a document gives, and its tree. -/
def toTree (document : Json) : Except LoadFault (String × Tree) :=
  match document with
  | .obj members =>
    let format? := Json.get? "format" members
    match format? with
    | some (.str s) =>
      if s = format then
        let family := scalarText ((Json.get? "family" members).getD .null)
        match Json.get? "tree" members with
        | none => .error .missingTree
        | some j =>
          match (Tree.decode (Value.ofJson j) (.str family) : Except DecodeFault Tree) with
          | .error e => .error (.decode e)
          | .ok t => .ok (family, t)
      else .error (.unsupported (.str s))
    | other => .error (.unsupported (Value.ofJson (other.getD .null)))
  | _ => .error .notObject

/-- The tree in the document with these bytes. `path` is what messages call it. -/
def load (path : String) (bytes : List UInt8) : Log.Logged LoadFault Tree :=
  match (do toTree (← parse path bytes) : Except LoadFault (String × Tree)) with
  | .error e => ⟨[], .error e⟩
  | .ok (family, t) =>
    ⟨[⟨.debug, logger, "loaded " ++ family ++ " tree from " ++ path⟩], .ok t⟩

end LoweringIR.Document
