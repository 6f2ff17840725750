import Almanac.Recurrence.Cursor

/-!
# Daily recurrences

Every so many days, counted from the first occurrence, or on some days of the week.
-/

namespace Almanac

/-- The dates of a daily recurrence. -/
inductive DailySelection
  | everyDays (days : UInt32)
  | weekDays (days : WeekDays)
deriving DecidableEq, Repr

namespace DailySelection

/-- Why a selection names no dates, if it does not. -/
def fault? : DailySelection → Option Fault
  | everyDays n => if n = 0 then some .dayCount else none
  | weekDays days => if days.isProper then none else some (.weekDayMask days.mask.toNat)

end DailySelection

/-- Times of day on the dates of a selection. -/
structure Daily where
  times : TimesOfDay
  selection : DailySelection
  proper : selection.fault? = none
deriving DecidableEq, Repr

namespace Daily

def ofParts (times : TimesOfDay) (selection : DailySelection) : Except Fault Daily :=
  match h : selection.fault? with
  | none => .ok ⟨times, selection, h⟩
  | some fault => .error fault

def rule (d : Daily) : DateRule :=
  match d.selection with
  | .everyDays n =>
    { first := .ok
      next := fun date _ => date.plusDays n.toNat }
  | .weekDays days =>
    { first := fun date => date.nextWeekday days true
      next := fun date _ => date.nextWeekday days false }

def text (d : Daily) : String :=
  let dates :=
    match d.selection with
    | .everyDays n =>
      if n = 1 then "daily" else "every " ++ Text.integerText n.toNat ++ " days"
    | .weekDays days => "daily on " ++ days.text
  dates ++ " at " ++ d.times.text

end Daily

end Almanac
