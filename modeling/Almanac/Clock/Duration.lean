import Almanac.Text.Decimal

/-!
# Durations

A duration is a whole number of nanoseconds of either sign. Its text form is the one of ISO 8601
that uses seconds alone, `PT90S` or `-PT0.5S`, and `P0D` for nothing.
-/

namespace Almanac

/-- A length of time, in nanoseconds. -/
structure Duration where
  nanos : Int
deriving DecidableEq, Repr, Inhabited

namespace Duration

/-- The largest magnitude of a duration: 2 ^ 63 - 1 milliseconds. -/
def maxNanos : Int := 9223372036854775807 * 1000000

def ofSeconds (s : Int) : Duration := ⟨s * 1000000000⟩

def ofMilliseconds (ms : Int) : Duration := ⟨ms * 1000000⟩

def ofDays (n : Int) : Duration := ofSeconds (n * 86400)

/-- A number of seconds, as far as durations go. -/
def ofSeconds? (s : Int) : Option Duration :=
  let d := ofSeconds s
  if -maxNanos ≤ d.nanos ∧ d.nanos ≤ maxNanos then some d else none

/-- A number of milliseconds, as far as durations go. -/
def ofMilliseconds? (ms : Int) : Option Duration :=
  let d := ofMilliseconds ms
  if -maxNanos ≤ d.nanos ∧ d.nanos ≤ maxNanos then some d else none

instance : Neg Duration := ⟨fun d => ⟨-d.nanos⟩⟩

instance : LT Duration := ⟨fun a b => a.nanos < b.nanos⟩

instance : LE Duration := ⟨fun a b => a.nanos ≤ b.nanos⟩

instance (a b : Duration) : Decidable (a < b) := inferInstanceAs (Decidable (a.nanos < b.nanos))

instance (a b : Duration) : Decidable (a ≤ b) := inferInstanceAs (Decidable (a.nanos ≤ b.nanos))

/-- The whole seconds, rounded toward zero. -/
def seconds (d : Duration) : Int := d.nanos.tdiv 1000000000

/-- What `seconds` leaves, with the sign of the duration. -/
def subsecond (d : Duration) : Int := d.nanos.tmod 1000000000

/-- The whole milliseconds, rounded toward zero. -/
def milliseconds (d : Duration) : Int := d.nanos.tdiv 1000000

def minutes (d : Duration) : Int := d.seconds.tdiv 60

/-- The decimal places of a fraction of a second without trailing zeros. -/
def shortFraction (nanos : Nat) : List Char :=
  if nanos = 0 then []
  else '.' :: ((Text.padded 9 nanos).reverse.dropWhile (· == '0')).reverse

/-- The text form: `P0D` for nothing, else a sign, `PT`, the seconds and `S`. -/
def text (d : Duration) : String :=
  if d.nanos = 0 then "P0D"
  else
    let size := d.nanos.natAbs
    let body := Text.digits (size / 1000000000) ++ shortFraction (size % 1000000000)
    String.ofList ((if d.nanos < 0 then ['-'] else []) ++ ['P', 'T'] ++ body ++ ['S'])

end Duration

end Almanac
