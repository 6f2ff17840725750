/-!
# Decimal numbers

Numbers as they are written: digits without leading zeros, a sign where it is needed, zeros in
front up to a fixed width, and decimal fractions of a second. Beside each written form stands
the function that reads it.
-/

namespace Almanac.Text

/-- The digits of `n`, the highest first and without leading zeros; zero is written `0`. -/
def digits (n : Nat) : List Char :=
  Nat.toDigits 10 n

def valueOf (cs : List Char) : Nat :=
  Nat.ofDigitChars 10 cs 0

/-- The digits of `n` with zeros in front up to `width` places. -/
def padded (width n : Nat) : List Char :=
  List.leftpad width '0' (digits n)

/-- An integer with a minus sign when it is negative. -/
def signedDigits (i : Int) : List Char :=
  if i < 0 then '-' :: digits i.natAbs else digits i.natAbs

/-- An integer as a string, with a minus sign when it is negative. -/
def integerText (i : Int) : String :=
  String.ofList (signedDigits i)

/-- A mask with its binary digits after `0b`. -/
def binaryText (n : Nat) : String :=
  String.ofList ('0' :: 'b' :: Nat.toDigits 2 n)

/-- A number with its hexadecimal digits after `0x`. -/
def hexText (n : Nat) : String :=
  String.ofList ('0' :: 'x' :: Nat.toDigits 16 n)

/-- The fraction of a second for `nanos` billionths, with its point: three, six or nine places,
the fewest that are exact, and nothing for a whole second. -/
def fraction (nanos : Nat) : List Char :=
  if nanos = 0 then []
  else if nanos % 1000000 = 0 then '.' :: padded 3 (nanos / 1000000)
  else if nanos % 1000 = 0 then '.' :: padded 6 (nanos / 1000)
  else '.' :: padded 9 nanos

/-- The digit run at the start of a text, of at most `limit` digits, and what follows it. -/
def digitRun (limit : Nat) (cs : List Char) : List Char × List Char :=
  let run := (cs.take limit).takeWhile Char.isDigit
  (run, cs.drop run.length)

end Almanac.Text
