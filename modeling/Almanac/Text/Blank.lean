/-!
# Blank characters

The characters that separate and surround values, and the removal of those at the ends of a
text. The set is the one that Unicode calls white space: it holds more than the ASCII blanks, so
a no-break space or an ideographic space around a value is ignored as well.
-/

namespace Almanac.Text

/-- The Unicode white space characters. -/
def isBlank (c : Char) : Bool :=
  let n := c.toNat
  (9 ≤ n && n ≤ 13) || n == 0x20 || n == 0x85 || n == 0xA0 || n == 0x1680 ||
    (0x2000 ≤ n && n ≤ 0x200A) || n == 0x2028 || n == 0x2029 || n == 0x202F ||
    n == 0x205F || n == 0x3000

def trimStart (cs : List Char) : List Char :=
  cs.dropWhile isBlank

def trimEnd (cs : List Char) : List Char :=
  (cs.reverse.dropWhile isBlank).reverse

def trim (cs : List Char) : List Char :=
  trimEnd (trimStart cs)

def trimmed (s : String) : String :=
  String.ofList (trim s.toList)

theorem trimStart_nil : trimStart [] = [] := rfl

end Almanac.Text
