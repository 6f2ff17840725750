import Almanac.Clock.Calendar

/-!
# Dates

A date is a day of the calendar from -262143-01-01 to +262142-12-31, known by its day number.
Whatever would leave that range gives no date.
-/

namespace Almanac

/-- The day number of -262143-01-01, the first date. -/
def firstDay : Int := -96465292

/-- The day number of +262142-12-31, the last date. -/
def lastDay : Int := 95026236

structure Date where
  day : Int
  mem : firstDay ≤ day ∧ day ≤ lastDay
deriving DecidableEq, Repr

namespace Date

instance : Inhabited Date := ⟨⟨0, by decide⟩⟩

/-- The date with a day number, if the calendar reaches that far. -/
def ofDay? (day : Int) : Option Date :=
  if h : firstDay ≤ day ∧ day ≤ lastDay then some ⟨day, h⟩ else none

/-- The date with a year, month and day of the month, if there is one. -/
def ofYearMonthDay? (year : Int) (month day : Nat) : Option Date :=
  if 1 ≤ month ∧ month ≤ 12 ∧ 1 ≤ day ∧ day ≤ Calendar.monthLength year month then
    ofDay? (Calendar.dayNumber year month day)
  else none

def toYearMonthDay (d : Date) : Calendar.YearMonthDay :=
  Calendar.yearMonthDay d.day

def year (d : Date) : Int := d.toYearMonthDay.year

def month (d : Date) : Nat := d.toYearMonthDay.month

def weekday (d : Date) : Weekday := Calendar.weekday d.day

/-- The date a number of days later, or earlier for a negative number. -/
def addDays? (d : Date) (n : Int) : Option Date :=
  ofDay? (d.day + n)

instance : Ord Date := ⟨fun a b => compare a.day b.day⟩

instance : LT Date := ⟨fun a b => a.day < b.day⟩

instance : LE Date := ⟨fun a b => a.day ≤ b.day⟩

instance (a b : Date) : Decidable (a < b) := inferInstanceAs (Decidable (a.day < b.day))

instance (a b : Date) : Decidable (a ≤ b) := inferInstanceAs (Decidable (a.day ≤ b.day))

theorem lt_iff {a b : Date} : a < b ↔ a.day < b.day := Iff.rfl

theorem le_iff {a b : Date} : a ≤ b ↔ a.day ≤ b.day := Iff.rfl

/-- Two dates with one day number are the same. -/
theorem ext_day {a b : Date} (h : a.day = b.day) : a = b := by
  cases a; cases b; simp_all

theorem ofDay?_eq_some {day : Int} {d : Date} : ofDay? day = some d ↔ d.day = day := by
  unfold ofDay?
  constructor
  · intro h
    split at h
    · simp only [Option.some.injEq] at h
      simp [← h]
    · simp at h
  · intro h
    have := d.mem
    rw [dif_pos (h ▸ this)]
    exact congrArg some (ext_day h.symm)

def earlier (a b : Date) : Date := if b < a then b else a

end Date

end Almanac
