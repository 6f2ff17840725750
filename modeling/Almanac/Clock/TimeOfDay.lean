import Almanac.Clock.Duration

/-!
# Times of day

A time of day is a second of the day and a fraction of it. A fraction of a whole second or more
is a leap second: it belongs to the second before it, prints as second 60 and comes after every
ordinary reading of that second. Addition leaves a leap second as soon as it moves past it.
-/

namespace Almanac

/-- A reading of a 24-hour clock. -/
structure TimeOfDay where
  second : Nat
  nano : Nat
  second_lt : second < 86400
  nano_lt : nano < 2000000000
deriving DecidableEq, Repr

namespace TimeOfDay

def midnight : TimeOfDay := ⟨0, 0, by decide, by decide⟩

instance : Inhabited TimeOfDay := ⟨midnight⟩

/-- The time is inside a leap second. -/
def isLeap (t : TimeOfDay) : Bool := 1000000000 ≤ t.nano

/-- A number that orders the times of a day, leap seconds included. -/
def key (t : TimeOfDay) : Nat := t.second * 2000000000 + t.nano

theorem key_injective {a b : TimeOfDay} (h : a.key = b.key) : a = b := by
  obtain ⟨s, n, hs, hn⟩ := a
  obtain ⟨s', n', hs', hn'⟩ := b
  simp only [key] at h
  have h1 : s = s' := by omega
  have h2 : n = n' := by omega
  subst h1 h2
  rfl

instance : Ord TimeOfDay := ⟨fun a b => compare a.key b.key⟩

instance : LT TimeOfDay := ⟨fun a b => a.key < b.key⟩

instance : LE TimeOfDay := ⟨fun a b => a.key ≤ b.key⟩

instance (a b : TimeOfDay) : Decidable (a < b) := inferInstanceAs (Decidable (a.key < b.key))

instance (a b : TimeOfDay) : Decidable (a ≤ b) := inferInstanceAs (Decidable (a.key ≤ b.key))

theorem lt_iff {a b : TimeOfDay} : a < b ↔ a.key < b.key := Iff.rfl

theorem le_iff {a b : TimeOfDay} : a ≤ b ↔ a.key ≤ b.key := Iff.rfl

/-- The time with an hour, minute and second, where second 60 is a leap second. -/
def ofParts? (hour minute second nano : Nat) : Option TimeOfDay :=
  if h : hour < 24 ∧ minute < 60 ∧ second < 60 ∧ nano < 1000000000 then
    some ⟨hour * 3600 + minute * 60 + second, nano, by omega, by omega⟩
  else if h : hour < 24 ∧ minute < 60 ∧ second = 60 ∧ nano < 1000000000 then
    some ⟨hour * 3600 + minute * 60 + 59, nano + 1000000000, by omega, by omega⟩
  else none

def hour (t : TimeOfDay) : Nat := t.second / 3600

def minute (t : TimeOfDay) : Nat := t.second / 60 % 60

/-- The time at a second counted from midnight, of this day or another, and the number of days
between. -/
def atSecond (second : Int) (nano : Nat) (h : nano < 2000000000) : TimeOfDay × Int :=
  (⟨(second % 86400).toNat, nano, by omega, h⟩, second / 86400)

/-- The same fraction of a second, a number of seconds later, and the days passed. A leap second
stays one. -/
def shift (t : TimeOfDay) (seconds : Int) : TimeOfDay × Int :=
  atSecond (t.second + seconds) t.nano t.nano_lt

/-- Ordinary addition of seconds and nanoseconds, with the days passed. -/
def addParts (second : Int) (nano : Int) : TimeOfDay × Int :=
  atSecond (second + nano / 1000000000) (nano % 1000000000).toNat (by omega)

/-- The time a duration later and the days passed. From a leap second, a duration that ends
inside it or in the second before keeps the second; any other one counts from its start or from
its end. -/
def add (t : TimeOfDay) (d : Duration) : TimeOfDay × Int :=
  let whole := d.seconds
  let part := d.subsecond
  if t.nano < 1000000000 then addParts (t.second + whole) (t.nano + part)
  else if h : 0 < whole ∨ (0 < part ∧ 2000000000 ≤ t.nano + part) then
    addParts (t.second + whole) (t.nano - 1000000000 + part)
  else if whole < 0 then addParts (t.second + 1 + whole) (t.nano - 1000000000 + part)
  else (⟨t.second, (t.nano + part).toNat, t.second_lt, by have := t.nano_lt; omega⟩, 0)

/-- The nanoseconds from one time to another of the same day. A leap second that lies between
them is counted. -/
def since (a b : TimeOfDay) : Int :=
  let leap : Int :=
    if b.second < a.second then (if b.isLeap then 1 else 0)
    else if a.second < b.second then (if a.isLeap then -1 else 0)
    else 0
  ((a.second : Int) - b.second + leap) * 1000000000 + ((a.nano : Int) - b.nano)

end TimeOfDay

end Almanac
