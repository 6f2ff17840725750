import Almanac.Interval.Basic
import Almanac.Text.Blank
import Almanac.Text.Form

/-!
# Interval notation

Intervals are written `[1, 2)`, with a bracket where the end belongs to the interval and a
parenthesis where it does not, and `-inf` and `+inf` for open ends. Blanks around the text and
around its two values are ignored when it is read, and infinities have more spellings.
-/

namespace Almanac

open Text

variable {α : Type} [TextForm α]

namespace Extended

def text : Extended α → String
  | negInfinity => "-inf"
  | finite v => TextForm.text v
  | posInfinity => "+inf"

end Extended

namespace Bound

/-- A bound with its bracket or parenthesis. -/
def text (b : Bound α) : String :=
  match b.side, b.direction with
  | .lower, .exclusive => "(" ++ b.value.text
  | .lower, .inclusive => "[" ++ b.value.text
  | .upper, .exclusive => b.value.text ++ ")"
  | .upper, .inclusive => b.value.text ++ "]"

end Bound

namespace Interval

def text (i : Interval α) : String := i.lower.text ++ ", " ++ i.upper.text

def opening? : Option Char → Option Direction
  | some '[' => some .inclusive
  | some '(' => some .exclusive
  | _ => none

def closing? : Option Char → Option Direction
  | some ']' => some .inclusive
  | some ')' => some .exclusive
  | _ => none

/-- The text before the first comma and the text after it. -/
def splitComma? (cs : List Char) : Option (List Char × List Char) :=
  match cs.dropWhile (· != ',') with
  | [] => none
  | _ :: rest => some (cs.takeWhile (· != ','), rest)

def lowerInfinities : List (List Char) := ["-inf".toList, "-∞".toList]

def upperInfinities : List (List Char) :=
  ["inf".toList, "+inf".toList, "∞".toList, "+∞".toList]

def readLower (cs : List Char) : Except ReadFault (Extended α) :=
  if lowerInfinities.contains cs then .ok .negInfinity else (TextForm.read cs).map .finite

def readUpper (cs : List Char) : Except ReadFault (Extended α) :=
  if upperInfinities.contains cs then .ok .posInfinity else (TextForm.read cs).map .finite

/-- The directions and values of an interval text without blanks at its ends. -/
def readParts (cs : List Char) :
    Except IntervalTextFault ((Direction × Extended α) × (Direction × Extended α)) := do
  let some lowerDirection := opening? cs.head? | throw .opening
  let some upperDirection := closing? cs.getLast? | throw .closing
  let some (lo, hi) := splitComma? cs.tail.dropLast | throw .comma
  let lower ← (readLower (trim lo)).mapError .lower
  let upper ← (readUpper (trim hi)).mapError .upper
  return ((lowerDirection, lower), (upperDirection, upper))

/-- The interval that a text denotes. -/
def read [Ord α] (s : String) : Except Fault (Interval α) := do
  let cs := trim s.toList
  let (lo, hi) ← (readParts cs).mapError (Fault.intervalText (String.ofList cs))
  let lower ← Bound.ofParts .lower lo.1 lo.2
  let upper ← Bound.ofParts .upper hi.1 hi.2
  ofBounds lower upper

end Interval

end Almanac
