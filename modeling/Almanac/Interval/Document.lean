import Almanac.Document.Decode
import Almanac.Interval.Collection

/-!
# Intervals in documents

The document forms of bounds, intervals, collections and denominators, and their decoders. A
bound and an interval may also be given as an array of their parts in order.
-/

namespace Almanac

variable {α : Type}

namespace Side

def name : Side → String
  | lower => "lower"
  | upper => "upper"

def decode : Decoder Side :=
  Decoder.word [("lower", lower), ("upper", upper)] Json.isNull

end Side

namespace Direction

def name : Direction → String
  | exclusive => "open"
  | inclusive => "closed"

def decode : Decoder Direction :=
  Decoder.word [("open", exclusive), ("closed", inclusive)] Json.isNull

end Direction

namespace Denominator

def name : Denominator → String
  | highest => "highest"
  | lowest => "lowest"

def toJson (d : Denominator) : Json := .string d.name

def decode : Decoder Denominator :=
  Decoder.word [("highest", highest), ("lowest", lowest)] Json.isNull

end Denominator

namespace Extended

variable [DocumentForm α]

def toJson : Extended α → Json
  | negInfinity => .string "negative_infinity"
  | finite v => .object [("finite", DocumentForm.toJson v)]
  | posInfinity => .string "positive_infinity"

/-- A finite value is the only one with a part. -/
def decode : Decoder (Extended α)
  | .object [("finite", value)] => (DocumentForm.ofJson value).map finite
  | j =>
    Decoder.word [("negative_infinity", negInfinity), ("positive_infinity", posInfinity)]
      Json.isNull j

end Extended

namespace Bound

variable [DocumentForm α]

def toJson (b : Bound α) : Json :=
  .object [("side", .string b.side.name), ("direction", .string b.direction.name),
    ("value", b.value.toJson)]

structure Draft (α : Type) where
  side : Option Side := none
  direction : Option Direction := none
  value : Option (Extended α) := none

def Draft.add (draft : Draft α) (entry : String × Json) : Except DecodeFault (Draft α) := do
  match entry with
  | ("side", j) => return { draft with side := ← Decoder.member draft.side Side.decode j }
  | ("direction", j) =>
    return { draft with direction := ← Decoder.member draft.direction Direction.decode j }
  | ("value", j) => return { draft with value := ← Decoder.member draft.value Extended.decode j }
  | (_, j) =>
    Decoder.ignored j
    return draft

/-- A bound, with the checks of `ofParts`. -/
def decode : Decoder (Bound α)
  | .object members => do
    let draft ← members.foldlM Draft.add {}
    let side ← Decoder.require draft.side
    let direction ← Decoder.require draft.direction
    let value ← Decoder.require draft.value
    checked (ofParts side direction value)
  | .array (side :: direction :: value :: rest) => do
    let side ← Side.decode side
    let direction ← Direction.decode direction
    let value ← Extended.decode value
    if rest.isEmpty then checked (ofParts side direction value) else throw .shape
  | _ => .error .shape

end Bound

namespace Interval

variable [DocumentForm α]

def toJson (i : Interval α) : Json :=
  .object [("lower", i.lower.toJson), ("upper", i.upper.toJson)]

structure Draft (α : Type) where
  lower : Option (Bound α) := none
  upper : Option (Bound α) := none

def Draft.add (draft : Draft α) (entry : String × Json) : Except DecodeFault (Draft α) := do
  match entry with
  | ("lower", j) => return { draft with lower := ← Decoder.member draft.lower Bound.decode j }
  | ("upper", j) => return { draft with upper := ← Decoder.member draft.upper Bound.decode j }
  | (_, j) =>
    Decoder.ignored j
    return draft

/-- An interval, with the checks of `ofBounds`. -/
def decode [Ord α] : Decoder (Interval α)
  | .object members => do
    let draft ← members.foldlM Draft.add {}
    let lower ← Decoder.require draft.lower
    let upper ← Decoder.require draft.upper
    checked (ofBounds lower upper)
  | .array (lower :: rest) => do
    let lower ← Bound.decode lower
    match rest with
    | [] => throw .shape
    | upper :: rest =>
      let upper ← Bound.decode upper
      if rest.isEmpty then checked (ofBounds lower upper) else throw .shape
  | _ => .error .shape

end Interval

namespace Collection

variable [DocumentForm α]

def toJson (c : Collection α) : Json := .array (c.map Interval.toJson)

def decode [Ord α] : Decoder (Collection α) := Decoder.array Interval.decode

end Collection

end Almanac
