import Almanac.Document.Reader
import Almanac.Fault
import Almanac.Clock.Form

/-!
# Decoding documents

A decoder takes a value from a JSON tree. It is refused either for its shape (the text is no
JSON, or has a part of the wrong kind, too few parts or one part twice) or for a fault of the
value that was read. The parts of a document are examined in their order, so the first cause
decides.
-/

namespace Almanac

/-- Why a document is refused. -/
inductive DecodeFault
  | shape
  | invalid (fault : Fault)
deriving DecidableEq, Repr

/-- A way to take a value from a tree. -/
abbrev Decoder (α : Type) := Json → Except DecodeFault α

/-- A value that was built with checks of its own. -/
def checked {α : Type} (built : Except Fault α) : Except DecodeFault α :=
  built.mapError .invalid

namespace Decoder

variable {α : Type}

/-- A value that is wanted and may be missing. -/
def require (value : Option α) : Except DecodeFault α :=
  match value with
  | some v => .ok v
  | none => .error .shape

def string : Decoder String
  | .string s => .ok s
  | _ => .error .shape

def bool : Decoder Bool
  | .bool b => .ok b
  | _ => .error .shape

/-- An integer between two others, both included. -/
def integer (least greatest : Int) : Decoder Int
  | .integer i => if least ≤ i ∧ i ≤ greatest then .ok i else .error .shape
  | _ => .error .shape

/-- A count of 32 bits. -/
def count : Decoder Nat := fun j => (integer 0 4294967295 j).map Int.toNat

def optional (d : Decoder α) : Decoder (Option α)
  | .null => .ok none
  | j => (d j).map some

def array (d : Decoder α) : Decoder (List α)
  | .array items => items.mapM d
  | _ => .error .shape

/-- A value that nobody asked for: all that matters is that it is complete. -/
def ignored (j : Json) : Except DecodeFault Unit :=
  if j.isComplete then .ok () else .error .shape

/-- A member of an object, which must not have been met before. -/
def member (previous : Option α) (d : Decoder α) (j : Json) :
    Except DecodeFault (Option α) :=
  if previous.isSome then .error .shape else (d j).map some

/-- One of several words, alone or as the name of a member with an empty value. -/
def word (words : List (String × α)) (isUnit : Json → Bool) : Decoder α
  | .string s => require (words.lookup s)
  | .object [(s, value)] => if isUnit value then require (words.lookup s) else .error .shape
  | _ => .error .shape

end Decoder

namespace Json

/-- The empty value of a word in a document that is decoded while it is read. -/
def isNull : Json → Bool
  | null => true
  | _ => false

/-- The empty value of a word in a part of a document that was kept before it is decoded. -/
def isBare : Json → Bool
  | null => true
  | object [] => true
  | _ => false

end Json

class DocumentForm (α : Type) where
  toJson : α → Json
  ofJson : Decoder α

instance : DocumentForm Int64 where
  toJson i := .integer i.toInt
  ofJson j := (Decoder.integer (-9223372036854775808) 9223372036854775807 j).map Int64.ofInt

instance : DocumentForm String where
  toJson s := .string s
  ofJson := Decoder.string

instance : DocumentForm Date where
  toJson d := .string d.text
  ofJson j := do
    let s ← Decoder.string j
    (Date.read s.toList).mapError fun _ => .shape

instance : DocumentForm Reading where
  toJson r := .string r.documentText
  ofJson j := do
    let s ← Decoder.string j
    (Reading.read s.toList).mapError fun _ => .shape

/-- Decode the whole of a text. What follows the value is looked at last. -/
def decodeText {α : Type} (d : Decoder α) (text : String) : Except DecodeFault α := do
  let (tree, ended) := Json.read text
  let value ← d tree
  if ended then return value else throw .shape

end Almanac
