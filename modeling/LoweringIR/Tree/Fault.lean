import LoweringIR.Value.Literal

/-!
# Building faults

Building fails for one of three reasons: the arguments do not match the fields, a value has the
wrong shape for its field, or a value of the right shape is out of range. The first two are about
the form of what was handed in, the third about its content; a document reader reports them
differently.
-/

namespace LoweringIR

/-- An entry of a collection, by position or by name. -/
inductive Index where
  | nth (position : Nat)
  | key (name : String)
deriving DecidableEq, Inhabited

/-- Where a value was met: a field of what is being built, and maybe an entry of that field. -/
structure Place where
  owner : String
  field : String
  entry : Option Index
deriving DecidableEq, Inhabited

namespace Place

/-- An entry of a field. -/
def item (p : Place) (i : Index) : Place := ⟨p.owner, p.field, some i⟩

/-- How a message names a place. -/
def text (p : Place) : String :=
  p.owner ++ "." ++ p.field ++ match p.entry with
    | none => ""
    | some (.nth n) => "[" ++ toString n ++ "]"
    | some (.key k) => "[" ++ k ++ "]"

end Place

/-- What a place asks for. -/
inductive Wanted where
  | node (family : Family)
  | sequence
  | pair
  | names
  | boolean
  | register
  | label
  | closure
  | triple
  | string
  | nameSequence
deriving DecidableEq, Inhabited

/-- How a message says what a place asks for. -/
def Wanted.text : Wanted → String
  | .node f => "a " ++ f.nodeName
  | .sequence => "a sequence"
  | .pair => "a (name, value) pair"
  | .names => "names as strings"
  | .boolean => "a boolean"
  | .register => "a register"
  | .label => "a Label"
  | .closure => "a Closure"
  | .triple => "(name, label, free)"
  | .string => "a string"
  | .nameSequence => "a sequence of names"

/-- A value has the wrong shape. -/
inductive ShapeFault where
  /-- The value is not what the place asks for. -/
  | unwanted (place : Place) (wanted : Wanted) (got : Value)
  /-- A value bound by a recursive binding is no lambda. -/
  | boundNotLambda (owner name : String) (got : Value)
  /-- An entry of a group of procedures is no lambda. -/
  | entryNotLambda (place : Place) (got : Value)
deriving Inhabited

/-- The wording of a shape fault. -/
def ShapeFault.message : ShapeFault → String
  | .unwanted p w got => p.text ++ " expects " ++ w.text ++ ", got " ++ got.literal
  | .boundNotLambda owner name got =>
    owner ++ " binding " ++ Text.quoted name ++ " must be a Lambda, got " ++ got.literal
  | .entryNotLambda p got => p.text ++ " must be a Lambda, got " ++ got.literal

/-- The arguments do not match the fields. -/
inductive ArgumentFault where
  /-- No field has this name. -/
  | unexpected (owner name : String)
  /-- A field is given twice. -/
  | repeated (owner name : String)
  /-- More arguments by position than there are fields. All three counts include what is built. -/
  | tooMany (owner : String) (least most given : Nat)
  /-- Fields without an argument. -/
  | missing (owner : String) (names : List String)
  /-- An argument for what has no fields at all. -/
  | notAny (owner : String)
deriving DecidableEq, Inhabited

/-- Names in quotation marks, listed as in a sentence. -/
def enumeration : List String → String
  | [] => ""
  | [a] => "'" ++ a ++ "'"
  | [a, b] => "'" ++ a ++ "' and '" ++ b ++ "'"
  | a :: rest => "'" ++ a ++ "', " ++ enumerationTail rest
where
  /-- The rest of a list of at least three names. -/
  enumerationTail : List String → String
    | [] => ""
    | [a] => "and '" ++ a ++ "'"
    | a :: rest => "'" ++ a ++ "', " ++ enumerationTail rest

/-- A count of arguments. -/
def argumentCount (n : Nat) (adjective : String) : String :=
  toString n ++ " " ++ adjective ++ (if n = 1 then " argument" else " arguments")

/-- The wording of an argument fault. -/
def ArgumentFault.message : ArgumentFault → String
  | .unexpected owner name =>
    owner ++ ".__init__() got an unexpected keyword argument '" ++ name ++ "'"
  | .repeated owner name =>
    owner ++ ".__init__() got multiple values for argument '" ++ name ++ "'"
  | .tooMany owner least most given =>
    owner ++ ".__init__() takes " ++
      (if least = most then argumentCount most "positional"
        else "from " ++ toString least ++ " to " ++ argumentCount most "positional") ++
      " but " ++ toString given ++ (if given = 1 then " was given" else " were given")
  | .missing owner names =>
    owner ++ ".__init__() missing " ++ argumentCount names.length "required positional" ++ ": " ++
      enumeration names
  | .notAny owner => owner ++ "() takes no arguments"

/-- A value of the right shape is out of range. -/
inductive RangeFault where
  /-- The value is no integer. -/
  | notInteger (place : Place) (got : Value)
  /-- The integer does not fit in 64 bits. -/
  | tooWide (place : Place) (got : Int)
  /-- No register has this name. -/
  | badRegister (name : String)
deriving Inhabited

/-- The wording of a range fault. -/
def RangeFault.message : RangeFault → String
  | .notInteger p got => p.text ++ " must be an integer, got " ++ got.literal
  | .tooWide p got => p.text ++ " must fit in 64 bits, got " ++ toString got
  | .badRegister name => "Bad register '" ++ name ++ "'"

/-- Why building fails. -/
inductive BuildFault where
  | arguments (fault : ArgumentFault)
  | shape (fault : ShapeFault)
  | range (fault : RangeFault)
deriving Inhabited

/-- The wording of a building fault. -/
def BuildFault.message : BuildFault → String
  | .arguments f => f.message
  | .shape f => f.message
  | .range f => f.message

end LoweringIR
