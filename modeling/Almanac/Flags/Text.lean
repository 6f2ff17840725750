import Almanac.Document.Decode
import Almanac.Flags.Kind
import Almanac.Text.Blank
import Almanac.Text.Split

/-!
# Written flags

A mask is written with the names of the flags that it contains, in the order of their
declaration and joined by ` | `. A flag is named only if it has a bit that no flag named before
it has. Bits that no name covers come last, as one hexadecimal number.
-/

namespace Almanac

open Text

namespace FlagKind

/-- The flags of a list that make up a mask, where `rest` has the bits not covered yet, and the
bits that remain. -/
def covering (mask : Nat) : Nat → List Flag → List Flag × Nat
  | rest, [] => ([], rest)
  | rest, f :: flags =>
    if mask &&& f.mask = f.mask ∧ rest &&& f.mask ≠ 0 then
      let (named, left) := covering mask (rest - (rest &&& f.mask)) flags
      (f :: named, left)
    else covering mask rest flags

/-- The names of the flags of a mask and the number for the bits left. -/
def names (k : FlagKind) (mask : Nat) : List String :=
  let (named, left) := covering mask mask k.flags
  named.map Flag.name ++ (if left = 0 then [] else [hexText left])

def text (k : FlagKind) (mask : Nat) : String := " | ".intercalate (k.names mask)

/-- Hexadecimal digits read into a number of a width in bits. -/
def readHexDigits (width : Nat) : Nat → List Char → Option Nat
  | value, [] => some value
  | value, c :: rest => do
    let digit ← Json.hexValue? c
    let next := value * 16 + digit
    if next < 1 <<< width then readHexDigits width next rest else none

/-- A hexadecimal number of a width in bits, with an optional plus sign. -/
def readHex? (width : Nat) (cs : List Char) : Option Nat :=
  let body :=
    match cs with
    | '+' :: rest => rest
    | _ => cs
  if body.isEmpty then none else readHexDigits width 0 body

/-- One part of a written mask: a number after `0x`, or a flag by its name. -/
def readPart? (k : FlagKind) (cs : List Char) : Option Nat :=
  match cs with
  | '0' :: 'x' :: rest => readHex? k.width rest
  | _ => (k.flags.find? (·.name.toList == cs)).map Flag.mask

/-- The mask that a text denotes. A blank text is the empty mask. -/
def read? (k : FlagKind) (s : String) : Option Nat :=
  let cs := s.toList
  if (trim cs).isEmpty then some 0
  else
    (splitAt '|' cs).foldlM (fun mask part => (mask ||| ·) <$> k.readPart? (trim part)) 0

/-- The document form of a mask is its written form. -/
def toJson (k : FlagKind) (mask : Nat) : Json := .string (k.text mask)

def decode (k : FlagKind) : Decoder Nat := fun j => do
  let s ← Decoder.string j
  Decoder.require (k.read? s)

end FlagKind

end Almanac
