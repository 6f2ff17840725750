import Almanac.Text.Decimal
import Almanac.Text.ReadFault

/-!
# Values with a written form

`TextForm` is the class of types whose values are written and read as text. Its instances here
are 64-bit integers, which are read with an optional sign, and strings, which are their own
written form.
-/

namespace Almanac

open Text

/-- A written form: `text` writes a value and `read` takes one from the whole of a text. -/
class TextForm (α : Type) where
  text : α → String
  read : List Char → Except ReadFault α

namespace Text

/-- Digits read into a non-negative number that stays below `bound`. The first digit that makes
the number too large or the first character that is no digit decides, whichever comes first. -/
def readDigits (bound : Nat) (overflow : ReadFault) : Nat → List Char → Except ReadFault Nat
  | value, [] => .ok value
  | value, c :: rest =>
    if !c.isDigit then .error .badDigit
    else
      let next := value * 10 + (c.toNat - '0'.toNat)
      if next < bound then readDigits bound overflow next rest else .error overflow

/-- An integer of 64 bits with an optional sign. -/
def readInteger (cs : List Char) : Except ReadFault Int :=
  match cs with
  | [] => .error .emptyNumber
  | ['+'] | ['-'] => .error .badDigit
  | '-' :: rest =>
    (readDigits 9223372036854775809 .tooSmall 0 rest).map fun n => -(n : Int)
  | '+' :: rest => (readDigits 9223372036854775808 .tooLarge 0 rest).map Int.ofNat
  | _ => (readDigits 9223372036854775808 .tooLarge 0 cs).map Int.ofNat

end Text

instance : TextForm Int64 where
  text i := integerText i.toInt
  read cs := (readInteger cs).map Int64.ofInt

instance : TextForm String where
  text s := s
  read cs := .ok (String.ofList cs)

end Almanac
