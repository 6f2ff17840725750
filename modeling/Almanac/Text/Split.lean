/-!
# Splitting and joining texts

The pieces of a text between the occurrences of one character, of which there is always at
least one.
-/

namespace Almanac.Text

/-- The pieces between the occurrences of a separator. -/
def splitAt (separator : Char) : List Char → List (List Char)
  | [] => [[]]
  | c :: rest =>
    if c = separator then [] :: splitAt separator rest
    else
      match splitAt separator rest with
      | [] => [[c]]
      | piece :: pieces => (c :: piece) :: pieces

end Almanac.Text
