/-!
# Reasons for refusing a text

The reasons that the readers of single values give.
-/

namespace Almanac.Text

/-- Why a text is no value of its kind. -/
inductive ReadFault
  /-- A number or a fixed character was expected where the text ends. -/
  | premature
  /-- A character that cannot stand where it stands. -/
  | malformed
  /-- A number that its place does not admit, or a day that its month does not have. -/
  | outOfRange
  /-- The value is complete and the text goes on. -/
  | trailing
  | emptyNumber
  /-- A character of an integer that is no digit. -/
  | badDigit
  /-- An integer above the largest. -/
  | tooLarge
  /-- An integer below the smallest. -/
  | tooSmall
deriving DecidableEq, Repr

def ReadFault.message : ReadFault → String
  | premature => "premature end of input"
  | malformed => "input contains invalid characters"
  | outOfRange => "input is out of range"
  | trailing => "trailing input"
  | emptyNumber => "cannot parse integer from empty string"
  | badDigit => "invalid digit found in string"
  | tooLarge => "number too large to fit in target type"
  | tooSmall => "number too small to fit in target type"

end Almanac.Text
