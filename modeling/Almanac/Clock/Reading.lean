import Almanac.Clock.Date
import Almanac.Clock.TimeOfDay

/-!
# Clock readings

A reading is a date and a time of day, with no zone: what a wall clock and a calendar beside it
show. A `Wall` is a reading whose day may lie outside the calendar; the local clock of an instant
close to the ends of the calendar shows one.
-/

namespace Almanac

structure Reading where
  date : Date
  time : TimeOfDay
deriving DecidableEq, Repr, Inhabited

/-- A day number of any size and a time of day. -/
structure Wall where
  day : Int
  time : TimeOfDay
deriving DecidableEq, Repr, Inhabited

namespace Wall

/-- The reading shown, if its day belongs to the calendar. -/
def reading? (w : Wall) : Option Reading :=
  (Date.ofDay? w.day).map (⟨·, w.time⟩)

/-- The clock a number of seconds later. -/
def shift (w : Wall) (seconds : Int) : Wall :=
  let moved := w.time.shift seconds
  ⟨w.day + moved.2, moved.1⟩

/-- The clock a duration later. -/
def add (w : Wall) (d : Duration) : Wall :=
  let moved := w.time.add d
  ⟨w.day + moved.2, moved.1⟩

end Wall

namespace Reading

def toWall (r : Reading) : Wall := ⟨r.date.day, r.time⟩

def ofDate (d : Date) : Reading := ⟨d, TimeOfDay.midnight⟩

/-- Readings are ordered by date and then by time of day. -/
instance : Ord Reading := ⟨fun a b => (compare a.date b.date).then (compare a.time b.time)⟩

instance : LT Reading := ⟨fun a b => a.date < b.date ∨ (a.date = b.date ∧ a.time < b.time)⟩

instance : LE Reading := ⟨fun a b => a.date < b.date ∨ (a.date = b.date ∧ a.time ≤ b.time)⟩

instance (a b : Reading) : Decidable (a < b) :=
  inferInstanceAs (Decidable (a.date < b.date ∨ (a.date = b.date ∧ a.time < b.time)))

instance (a b : Reading) : Decidable (a ≤ b) :=
  inferInstanceAs (Decidable (a.date < b.date ∨ (a.date = b.date ∧ a.time ≤ b.time)))

/-- A number that orders all readings: the days, in units of the time key. -/
def key (r : Reading) : Int := r.date.day * 172800000000000 + r.time.key

theorem lt_iff_key {a b : Reading} : a < b ↔ a.key < b.key := by
  have ha : a.time.key < 172800000000000 := by
    have := a.time.second_lt; have := a.time.nano_lt; unfold TimeOfDay.key; omega
  have hb : b.time.key < 172800000000000 := by
    have := b.time.second_lt; have := b.time.nano_lt; unfold TimeOfDay.key; omega
  have hlt : a < b ↔ a.date.day < b.date.day ∨ (a.date = b.date ∧ a.time.key < b.time.key) :=
    Iff.rfl
  have heq : a.date = b.date ↔ a.date.day = b.date.day :=
    ⟨congrArg Date.day, Date.ext_day⟩
  rw [hlt, heq]
  unfold key
  omega

def earlier (a b : Reading) : Reading := if b < a then b else a

/-- Seconds since 1970-01-01, with any fraction or leap second dropped. -/
def seconds (r : Reading) : Int := r.date.day * 86400 + r.time.second

/-- The reading a duration later, if the calendar reaches that far. -/
def add? (r : Reading) (d : Duration) : Option Reading :=
  (r.toWall.add d).reading?

/-- The reading a number of seconds later, which keeps the fraction and a leap second. -/
def shift? (r : Reading) (seconds : Int) : Option Reading :=
  (r.toWall.shift seconds).reading?

/-- The reading a number of seconds later, stopping at the ends of the calendar. -/
def shift (r : Reading) (seconds : Int) : Reading :=
  let w := r.toWall.shift seconds
  if h : firstDay ≤ w.day ∧ w.day ≤ lastDay then ⟨⟨w.day, h⟩, w.time⟩
  else if w.day < firstDay then ⟨⟨firstDay, by decide⟩, TimeOfDay.midnight⟩
  else ⟨⟨lastDay, by decide⟩, ⟨86399, 999999999, by decide, by decide⟩⟩

/-- The length of time from `b` to `a`. -/
def since (a b : Reading) : Duration :=
  ⟨(a.date.day - b.date.day) * 86400000000000 + a.time.since b.time⟩

/-- The reading at a number of seconds since 1970-01-01 with a fraction in nanoseconds, which may
be a leap second at the end of a minute. -/
def ofUnix? (seconds : Int) (nano : Nat) : Option Reading :=
  if h : nano < 1000000000 ∨ (nano < 2000000000 ∧ seconds % 60 = 59) then
    let moved := TimeOfDay.atSecond seconds nano (by omega)
    (Wall.mk moved.2 moved.1).reading?
  else none

end Reading

end Almanac
