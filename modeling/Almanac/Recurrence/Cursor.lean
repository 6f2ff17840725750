import Almanac.Flags.Calendar
import Almanac.Recurrence.TimesOfDay
import Almanac.Zone.LocalClock

/-!
# The calendar cursor

Calendar recurrences walk through pairs of a date and a time of day. A rule says which dates
qualify; the cursor holds the date it stands on and the times of day, rotated so that the next
one comes first, and asks the rule for another date whenever the times start over.

A step that fails leaves its mark: the times have been rotated, while date and time stay. The
steps therefore return the cursor beside their result.
-/

namespace Almanac

/-- The last date that an occurrence landed on, for each day of the week. -/
abbrev WeekSlots := Vector (Option Date) 7

namespace WeekSlots

def empty : WeekSlots := Vector.replicate 7 none

/-- The slots with a date recorded under its day of the week. -/
def record (slots : WeekSlots) (d : Date) : WeekSlots :=
  slots.set d.weekday.index.val (some d) d.weekday.index.isLt

def at? (slots : WeekSlots) (w : Weekday) : Option Date := slots[w.index]

end WeekSlots

/-- Which dates qualify: the first one on or after a date, and the next one after a date, given
the dates that occurrences landed on. -/
structure DateRule where
  first : Date → Except Fault Date
  next : Date → WeekSlots → Except Fault Date

/-- Where a calendar recurrence stands. -/
structure Cursor where
  queue : List TimeOfDay := []
  date : Option Date := none
  lastTime : Option TimeOfDay := none
  slots : WeekSlots := WeekSlots.empty
deriving Repr

namespace Cursor

instance : Inhabited Cursor := ⟨{}⟩

def isFresh (c : Cursor) : Bool := c.date.isNone

/-- The cursor before the first qualifying date and time after a reading. -/
def start (c : Cursor) (rule : DateRule) (times : TimesOfDay) (now : Reading) :
    Except Fault Cursor := do
  let first ← rule.first now.date
  let date ←
    if first = now.date ∧ !times.hasAfter now.time then rule.next first c.slots else pure first
  let queue := if date = now.date then times.rotatedAfter now.time else times.toList
  return { c with queue, date := some date, lastTime := none }

/-- The next pair of a date and a time. -/
def advance (rule : DateRule) (c : Cursor) : Except Fault Reading × Cursor :=
  match c.date, c.queue with
  | some date, time :: rest =>
    let rotated := { c with queue := rest ++ [time] }
    let next := if c.lastTime.any (time ≤ ·) then rule.next date c.slots else .ok date
    match next with
    | .error fault => (.error fault, rotated)
    | .ok date =>
      (.ok ⟨date, time⟩,
        { rotated with
          date := some date
          lastTime := some time
          slots := c.slots.record date })
  | _, _ => (.error .cursorNotStarted, c)

end Cursor

namespace LocalClock

/-- The instant of a candidate: none if it is dropped. -/
def candidate? (clock : LocalClock) (behavior : Behavior) (r : Reading) : Option Moment :=
  match clock.offsetsOf r, behavior.skipped with
  | .skipped, .skip => none
  | .skipped, .shift => clock.shiftSkipped? r
  | _, _ => clock.resolve? r behavior.repeated

end LocalClock

namespace Cursor

/-- How many candidates are examined for one occurrence. -/
def maxCandidates : Nat := 1000000

/-- The first of at most `bound` candidates that lies after the present moment. -/
def search (rule : DateRule) (behavior : Behavior) (clock : LocalClock) (now : Moment) :
    Nat → Cursor → Except Fault Moment × Cursor
  | 0, c => (.error (.noOccurrence maxCandidates now), c)
  | bound + 1, c =>
    match c.advance rule with
    | (.error fault, c) => (.error fault, c)
    | (.ok reading, c) =>
      match clock.candidate? behavior reading with
      | some m => if now < m then (.ok m, c) else search rule behavior clock now bound c
      | none => search rule behavior clock now bound c

/-- The cursor, started at the present moment if it is fresh. The start reads the moment on the
local clock, and panics if the calendar does not reach this reading. -/
def started (c : Cursor) (rule : DateRule) (times : TimesOfDay) (now : Moment) :
    Except Fault Cursor :=
  if c.isFresh then
    match now.local? with
    | some reading => c.start rule times reading
    | none => .error (.panic .localReading)
  else .ok c

/-- The next occurrence after the present moment. -/
def nextOccurrence (rule : DateRule) (times : TimesOfDay) (behavior : Behavior)
    (clock : LocalClock) (c : Cursor) (now : Moment) : Except Fault Moment × Cursor :=
  match c.started rule times now with
  | .error fault => (.error fault, c)
  | .ok c => search rule behavior clock now maxCandidates c

end Cursor

namespace Date

/-- The date a number of days later. -/
def plusDays (d : Date) (n : Int) : Except Fault Date :=
  match d.addDays? n with
  | some e => .ok e
  | none => .error (.dateSum d n)

/-- The first date with a day of the week of a set, among the seven days from `d` on, or after
`d`. -/
def nextWeekday (d : Date) (days : WeekDays) (inclusive : Bool) : Except Fault Date :=
  let start := if inclusive then 0 else 1
  let found := (List.range' start 7).findSome? fun n : Nat =>
    (d.addDays? n).filter fun e => days.contains e.weekday
  match found with
  | some e => .ok e
  | none => .error (.noWeekDayAfter days.text d)

end Date

end Almanac
