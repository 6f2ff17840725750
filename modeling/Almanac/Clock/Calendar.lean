/-!
# The proleptic Gregorian calendar

Days are counted from 1970-01-01, which is day 0, and weeks start on Sunday. The functions here
go from a year, a month and a day of the month to a day number and back, for all integers; which
days the library accepts as dates is decided in `Almanac.Clock.Date`.
-/

namespace Almanac

inductive Weekday
  | sunday
  | monday
  | tuesday
  | wednesday
  | thursday
  | friday
  | saturday
deriving DecidableEq, Repr, Inhabited

namespace Weekday

/-- The position in the week, Sunday being 0. -/
def index : Weekday → Fin 7
  | sunday => 0
  | monday => 1
  | tuesday => 2
  | wednesday => 3
  | thursday => 4
  | friday => 5
  | saturday => 6

/-- The day at a position in the week. -/
def ofIndex : Fin 7 → Weekday
  | 0 => sunday
  | 1 => monday
  | 2 => tuesday
  | 3 => wednesday
  | 4 => thursday
  | 5 => friday
  | 6 => saturday

@[simp] theorem ofIndex_index (w : Weekday) : ofIndex w.index = w := by
  cases w <;> rfl

@[simp] theorem index_ofIndex : ∀ i : Fin 7, (ofIndex i).index = i := by
  decide

def all : List Weekday :=
  [sunday, monday, tuesday, wednesday, thursday, friday, saturday]

def shortName : Weekday → String
  | sunday => "Sun"
  | monday => "Mon"
  | tuesday => "Tue"
  | wednesday => "Wed"
  | thursday => "Thu"
  | friday => "Fri"
  | saturday => "Sat"

end Weekday

namespace Calendar

/-- Every fourth year is a leap year, apart from the centuries that 400 does not divide. -/
def isLeap (year : Int) : Bool :=
  year % 4 == 0 && (year % 100 != 0 || year % 400 == 0)

/-- The number of days in a month; zero outside 1 to 12. -/
def monthLength (year : Int) (month : Nat) : Nat :=
  match month with
  | 2 => if isLeap year then 29 else 28
  | 4 | 6 | 9 | 11 => 30
  | 1 | 3 | 5 | 7 | 8 | 10 | 12 => 31
  | _ => 0

def yearStart (year : Int) : Int :=
  365 * (year - 1) + (year - 1) / 4 - (year - 1) / 100 + (year - 1) / 400 - 719162

/-- The days of the year before a month in 1 to 12. -/
def daysBeforeMonth (year : Int) (month : Nat) : Nat :=
  let leapDay := if isLeap year then 1 else 0
  match month with
  | 1 => 0
  | 2 => 31
  | 3 => 59 + leapDay
  | 4 => 90 + leapDay
  | 5 => 120 + leapDay
  | 6 => 151 + leapDay
  | 7 => 181 + leapDay
  | 8 => 212 + leapDay
  | 9 => 243 + leapDay
  | 10 => 273 + leapDay
  | 11 => 304 + leapDay
  | _ => 334 + leapDay

/-- The day number of a year, month and day of the month. -/
def dayNumber (year : Int) (month day : Nat) : Int :=
  yearStart year + daysBeforeMonth year month + day - 1

/-- The year that a day belongs to. The mean length of a year gives it up to one. -/
def yearOf (day : Int) : Int :=
  let guess := 400 * (day + 719162) / 146097 + 1
  if day < yearStart guess then guess - 1
  else if yearStart (guess + 1) ≤ day then guess + 1
  else guess

/-- The last of the months 1 to `month` that starts no later than `dayOfYear`, counted from 0. -/
def monthUpTo (year : Int) (dayOfYear : Nat) : Nat → Nat
  | 0 => 1
  | month + 1 =>
    if daysBeforeMonth year (month + 1) ≤ dayOfYear then month + 1
    else monthUpTo year dayOfYear month

/-- A date written with its year, month and day of the month. -/
structure YearMonthDay where
  year : Int
  month : Nat
  day : Nat
deriving DecidableEq, Repr

/-- The year, month and day of the month of a day number. -/
def yearMonthDay (day : Int) : YearMonthDay :=
  let year := yearOf day
  let dayOfYear := (day - yearStart year).toNat
  let month := monthUpTo year dayOfYear 12
  { year, month, day := dayOfYear - daysBeforeMonth year month + 1 }

/-- The day of the week: day 0 is a Thursday. -/
def weekday (day : Int) : Weekday :=
  Weekday.ofIndex ⟨((day + 4) % 7).toNat, by omega⟩

/-- The number of the Sunday-started week that holds a day. -/
def week (day : Int) : Int :=
  (day + 4) / 7

/-- The month after a month, with its year. -/
def nextMonth (year : Int) (month : Nat) : Int × Nat :=
  if month = 12 then (year + 1, 1) else (year, month + 1)

end Calendar

end Almanac
