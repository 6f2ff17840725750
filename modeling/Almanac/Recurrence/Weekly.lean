import Almanac.Recurrence.Cursor

/-!
# Weekly recurrences

Some days of every so many weeks. Weeks start on Sunday and are counted from the week of the
first occurrence; a day of the week comes back a fixed number of weeks after the date it last
landed on, and one first reached beyond the first week is put off to the next week that counts.
The calendar begins on a Thursday, and weeks are told apart by their Sundays: from a date before its
first Sunday, a day of the week that has not been reached cannot be looked for.
-/

namespace Almanac

/-- The Sunday that the week of a date starts on. -/
def Date.weekStart (d : Date) : Except Fault Date :=
  match d.addDays? (-d.weekday.index.val) with
  | some sunday => .ok sunday
  | none => .error (.panic .weekStart)

/-- Times of day on some days of every `weeks`-th week. -/
structure Weekly where
  times : TimesOfDay
  weeks : UInt32
  weekDays : WeekDays
  weeks_ne_zero : weeks ≠ 0
  proper : weekDays.isProper = true
deriving DecidableEq, Repr

namespace Weekly

def ofParts (times : TimesOfDay) (weeks : UInt32) (weekDays : WeekDays) : Except Fault Weekly :=
  if hw : weeks = 0 then .error .weekCount
  else if hd : weekDays.isProper = true then .ok ⟨times, weeks, weekDays, hw, hd⟩
  else .error (.weekDayMask weekDays.mask.toNat)

/-- The days from one week that counts to the next. -/
def stride (w : Weekly) : Int := 7 * w.weeks.toNat

/-- The next date of one day of the week, of which `last` is the date it last landed on. It may
not lie after `date` when the cursor has been started again within a week. -/
def candidate (w : Weekly) (date : Date) (day : Weekday) (last : Option Date) :
    Except Fault Date :=
  match last with
  | some last => last.plusDays w.stride
  | none => do
    let first ← date.nextWeekday (.ofWeekday day) false
    let firstWeek ← first.weekStart
    let week ← date.weekStart
    if firstWeek = week then return first else first.plusDays (w.stride - 7)

/-- The next date of one day of the week after `date`. -/
def dateAfter (w : Weekly) (date : Date) (day : Weekday) (last : Option Date) :
    Except Fault Date := do
  let c ← w.candidate date day last
  if c ≤ date then c.plusDays (((date.day - c.day) / w.stride + 1) * w.stride) else return c

/-- The earliest of the next dates of some days of the week, and of `best`. -/
def earliestAfter (w : Weekly) (date : Date) (slots : WeekSlots) :
    Option Date → List Weekday → Except Fault Date
  | some best, [] => .ok best
  | none, [] => .error .noWeekDaySelected
  | best, day :: rest => do
    let c ← w.dateAfter date day (slots.at? day)
    let best :=
      match best with
      | some b => b.earlier c
      | none => c
    earliestAfter w date slots (some best) rest

def rule (w : Weekly) : DateRule where
  first date := date.nextWeekday w.weekDays true
  next date slots := w.earliestAfter date slots none w.weekDays.toList

def text (w : Weekly) : String :=
  let weeks :=
    if w.weeks = 1 then "weekly on "
    else "every " ++ Text.integerText w.weeks.toNat ++ " weeks on "
  weeks ++ w.weekDays.text ++ " at " ++ w.times.text

end Weekly

end Almanac
