import Almanac.Clock.Moment

/-!
# Written forms of dates and times

Dates are written `2026-03-08`, times of day `02:30:00` with three, six or nine decimal places
when the second is not whole, and readings as the two together. A year outside 0 to 9999 carries
its sign and at least four digits. Moments have two forms: the one of RFC 3339, whose offset is
given to the nearest minute, and a plain one whose offset is exact.
-/

namespace Almanac

namespace Calendar

/-- Four digits, or a sign and at least four digits outside 0 to 9999. -/
def yearText (year : Int) : List Char :=
  if 0 ≤ year ∧ year ≤ 9999 then Text.padded 4 year.natAbs
  else (if year < 0 then '-' else '+') :: Text.padded 4 year.natAbs

/-- Year, month and day of the month of a day number, with hyphens between. -/
def dayText (day : Int) : List Char :=
  let c := yearMonthDay day
  yearText c.year ++ '-' :: Text.padded 2 c.month ++ '-' :: Text.padded 2 c.day

end Calendar

namespace Date

def text (d : Date) : String := String.ofList (Calendar.dayText d.day)

end Date

namespace TimeOfDay

def hourMinute (t : TimeOfDay) : List Char :=
  Text.padded 2 t.hour ++ ':' :: Text.padded 2 t.minute

/-- Hour, minute and second, with the fraction of the second. A leap second is second 60. -/
def characters (t : TimeOfDay) : List Char :=
  let second := t.second % 60 + t.nano / 1000000000
  t.hourMinute ++ ':' :: Text.padded 2 second ++ Text.fraction (t.nano % 1000000000)

def text (t : TimeOfDay) : String := String.ofList t.characters

end TimeOfDay

namespace Wall

/-- The date and the time with a separator between. -/
def characters (separator : Char) (w : Wall) : List Char :=
  Calendar.dayText w.day ++ separator :: w.time.characters

def text (w : Wall) : String := String.ofList (w.characters ' ')

end Wall

namespace Reading

def text (r : Reading) : String := r.toWall.text

/-- The form used in documents, with `T` between date and time. -/
def documentText (r : Reading) : String := String.ofList (r.toWall.characters 'T')

end Reading

namespace Moment

/-- An offset to the nearest minute, with its sign. -/
def offsetMinutes (offset : Int) : List Char :=
  let minutes := (offset.natAbs + 30) / 60
  (if offset < 0 then '-' else '+') ::
    (Text.padded 2 (minutes / 60) ++ ':' :: Text.padded 2 (minutes % 60))

/-- An offset with its sign; seconds are written when there are any. -/
def offsetExact (offset : Int) : List Char :=
  let size := offset.natAbs
  let seconds := if size % 60 = 0 then [] else ':' :: Text.padded 2 (size % 60)
  (if offset < 0 then '-' else '+') ::
    (Text.padded 2 (size / 3600) ++ ':' :: Text.padded 2 (size / 60 % 60) ++ seconds)

def rfc3339 (m : Moment) : String :=
  String.ofList (m.wall.characters 'T' ++ offsetMinutes m.offset)

/-- The local reading, a blank and the exact offset. -/
def text (m : Moment) : String :=
  String.ofList (m.wall.characters ' ' ++ ' ' :: offsetExact m.offset)

end Moment

end Almanac
