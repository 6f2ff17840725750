import Almanac.Recurrence.Cursor

/-!
# Monthly recurrences

A day of the month, or some days of the week at a position in the month, in some months of the
year. With `any`, the days of the week select a single date of each month: the earliest of them
at the position. At the last position that date is only clear when the days are a run on the
circle of the week; it is then the last date of the day that the run starts with, and otherwise
the earliest date at the fourth position.
-/

namespace Almanac

/-- Which of the dates of a month with one day of the week. -/
inductive WeekPosition
  | first
  | second
  | third
  | fourth
  | last
deriving DecidableEq, Repr, Inhabited

namespace WeekPosition

def name : WeekPosition → String
  | first => "first"
  | second => "second"
  | third => "third"
  | fourth => "fourth"
  | last => "last"

/-- The name in the description of a recurrence. -/
def title : WeekPosition → String
  | first => "First"
  | second => "Second"
  | third => "Third"
  | fourth => "Fourth"
  | last => "Last"

/-- The place counted from the start of the month, for a position counted from there. -/
def ordinal? : WeekPosition → Option Nat
  | first => some 1
  | second => some 2
  | third => some 3
  | fourth => some 4
  | last => none

end WeekPosition

/-- Days of the week at a position in the month. -/
structure WeekDaysOfMonth where
  position : WeekPosition
  weekDays : WeekDays
  any : Bool
deriving DecidableEq, Repr

namespace Calendar

/-- The `n`-th date of a month with a day of the week. -/
def nthWeekday? (year : Int) (month : Nat) (w : Weekday) (n : Nat) : Option Date := do
  let start ← Date.ofYearMonthDay? year month 1
  let steps := (7 + w.index.val - start.weekday.index.val) % 7
  Date.ofYearMonthDay? year month ((n - 1) * 7 + steps + 1)

/-- The last date of a month, if the calendar reaches beyond it. -/
def lastDate? (year : Int) (month : Nat) : Option Date := do
  let next := nextMonth year month
  let start ← Date.ofYearMonthDay? next.1 next.2 1
  start.addDays? (-1)

/-- The last date of a month with a day of the week. -/
def lastWeekday? (year : Int) (month : Nat) (w : Weekday) : Option Date := do
  let stop ← lastDate? year month
  let steps := (7 + stop.weekday.index.val - w.index.val) % 7
  stop.addDays? (-(steps : Int))

/-- The date of a month with a day of the week at a position. -/
def weekdayAt? (year : Int) (month : Nat) (w : Weekday) (p : WeekPosition) : Option Date :=
  match p.ordinal? with
  | some n => nthWeekday? year month w n
  | none => lastWeekday? year month w

end Calendar

namespace WeekDaysOfMonth

open Calendar

/-- The dates of a month with the days of a set at a position, in the order of the week. -/
def datesAt (year : Int) (month : Nat) (days : WeekDays) (p : WeekPosition) : List Date :=
  days.toList.filterMap fun w => weekdayAt? year month w p

def earliest : List Date → List Date
  | [] => []
  | d :: rest => [rest.foldl Date.earlier d]

/-- The selected dates of a month, in ascending order. -/
def dates (w : WeekDaysOfMonth) (year : Int) (month : Nat) : List Date :=
  if !w.any then (datesAt year month w.weekDays w.position).mergeSort (fun a b => a ≤ b)
  else if w.position = .last then
    match w.weekDays.runStart? with
    | some day => (lastWeekday? year month day).toList
    | none => earliest (datesAt year month w.weekDays .fourth)
  else earliest (datesAt year month w.weekDays w.position)

end WeekDaysOfMonth

/-- The dates of a monthly recurrence within a month. -/
inductive MonthlySelection
  | dayOfMonth (day : Nat)
  | weekDaysOfMonth (w : WeekDaysOfMonth)
deriving DecidableEq, Repr

namespace MonthlySelection

/-- The length of a month in the years where it is longest. -/
def longestLength (month : Nat) : Nat :=
  match month with
  | 2 => 29
  | 4 | 6 | 9 | 11 => 30
  | _ => 31

def longest (months : Months) : Nat := (months.toList.map longestLength).foldl max 0

/-- Why a selection names no dates of some months, if it does not. -/
def fault? (months : Months) (selection : MonthlySelection) : Option Fault :=
  if !months.isProper then some (.monthMask months.mask.toNat)
  else
    match selection with
    | dayOfMonth day =>
      if day = 0 ∨ longest months < day then some (.dayOfMonth day (longest months)) else none
    | weekDaysOfMonth w =>
      if w.weekDays.isProper then none else some (.weekDayMask w.weekDays.mask.toNat)

end MonthlySelection

/-- Times of day on the dates of a selection in some months. -/
structure Monthly where
  times : TimesOfDay
  selection : MonthlySelection
  months : Months
  proper : selection.fault? months = none
deriving DecidableEq, Repr

namespace Monthly

def ofParts (times : TimesOfDay) (selection : MonthlySelection) (months : Months) :
    Except Fault Monthly :=
  match h : selection.fault? months with
  | none => .ok ⟨times, selection, months, h⟩
  | some fault => .error fault

/-- The qualifying dates of a month in ascending order. -/
def datesIn (m : Monthly) (year : Int) (month : Nat) : List Date :=
  if m.months.contains month then
    match m.selection with
    | .dayOfMonth day => (Date.ofYearMonthDay? year month day).toList
    | .weekDaysOfMonth w => w.dates year month
  else []

/-- The months of a whole cycle of the calendar, within which every date comes back. -/
def cycle : Nat := 4800

/-- The first date of some months that qualifies and is wanted. -/
def scanFrom (m : Monthly) (wanted : Date → Bool) : Nat → Int → Nat → Option Date
  | 0, _, _ => none
  | bound + 1, year, month =>
    match (m.datesIn year month).find? wanted with
    | some d => some d
    | none =>
      let next := Calendar.nextMonth year month
      scanFrom m wanted bound next.1 next.2

/-- The first qualifying date on or after a date, or after it. -/
def scan (m : Monthly) (date : Date) (inclusive : Bool) : Except Fault Date :=
  let wanted := fun d => if inclusive then decide (date ≤ d) else decide (date < d)
  match m.scanFrom wanted cycle date.year date.month with
  | some d => .ok d
  | none => .error (.noMonthlyDate cycle date)

def rule (m : Monthly) : DateRule where
  first date := m.scan date true
  next date _ := m.scan date false

def text (m : Monthly) : String :=
  let dates :=
    match m.selection with
    | .dayOfMonth day => "monthly on day " ++ Text.integerText day
    | .weekDaysOfMonth w =>
      "monthly on the " ++ w.position.title ++ " " ++ w.weekDays.text ++
        (if w.any then " (any)" else "")
  let months := if m.months = .all then "" else " of " ++ m.months.text
  dates ++ months ++ " at " ++ m.times.text

end Monthly

end Almanac
