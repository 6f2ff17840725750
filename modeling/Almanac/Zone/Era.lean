import Almanac.Clock.Calendar
import Almanac.Zone.Basic

/-!
# The history of a zone

A zone is described by its eras, the earliest first. An era is a number of single changes of
offset, or a stretch of years in each of which the offset changes on the same Sundays.
-/

namespace Almanac

inductive SundayOfMonth
  | first
  | second
  | third
  | last
deriving DecidableEq, Repr

namespace SundayOfMonth

def day (s : SundayOfMonth) (year : Int) (month : Nat) : Int :=
  let start := Calendar.dayNumber year month 1
  let firstSunday := start + (7 - (start + 4) % 7) % 7
  match s with
  | first => firstSunday
  | second => firstSunday + 7
  | third => firstSunday + 14
  | last =>
    let stop := Calendar.dayNumber year month (Calendar.monthLength year month)
    stop - (stop + 4) % 7

end SundayOfMonth

/-- A change of offset at a number of seconds after midnight, universal time, of a Sunday. -/
structure YearlyRule where
  month : Nat
  sunday : SundayOfMonth
  seconds : Int
  offset : Int
deriving DecidableEq, Repr

/-- The change that a rule makes in a year. -/
def YearlyRule.change (r : YearlyRule) (year : Int) : OffsetChange :=
  ⟨r.sunday.day year r.month * 86400 + r.seconds, r.offset⟩

inductive Era
  /-- Single changes: instants and offsets. -/
  | changes (cs : List (Int × Int))
  /-- Rules that hold from one year to another, in the order of the year. -/
  | yearly (firstYear lastYear : Int) (rules : List YearlyRule)
deriving Repr

/-- The changes of an era, the earliest first. -/
def Era.toChanges : Era → List OffsetChange
  | changes cs => cs.map fun c => ⟨c.1, c.2⟩
  | yearly firstYear lastYear rules =>
    (List.range (lastYear - firstYear + 1).toNat).flatMap fun n =>
      rules.map (·.change (firstYear + n))

/-- The zone with an initial offset and a history. -/
def Zone.ofEras (initial : Int) (eras : List Era) : Zone :=
  ⟨initial, (eras.flatMap Era.toChanges).reverse⟩

end Almanac
