import Almanac.Clock.Moment
import Mathlib.Data.Int.Order.Basic

/-!
# Readings on one line

Every reading has a key, two units for each nanosecond of an ordinary second, so that leap
seconds have their place. Keys order the readings, determine them, and turn the shifts of a clock
by whole seconds into additions, before and after a duration is added. The seconds since 1970 are
the whole seconds of the key, and a shift gives a reading when the calendar holds the second at
which it arrives.
-/

namespace Almanac

theorem TimeOfDay.key_lt (t : TimeOfDay) : t.key < 172800000000000 := by
  have hsecond := t.second_lt
  have hnano := t.nano_lt
  unfold key
  omega

/-- A date of the calendar holds a number of seconds since 1970. -/
def InCalendar (seconds : Int) : Prop :=
  firstDay * 86400 ≤ seconds ∧ seconds < (lastDay + 1) * 86400

namespace Wall

/-- The place of a clock's reading on the line of keys. -/
def key (w : Wall) : Int := w.day * 172800000000000 + w.time.key

/-- A clock shifted by whole seconds. -/
theorem key_shift (w : Wall) (seconds : Int) :
    (w.shift seconds).key = w.key + seconds * 2000000000 := by
  obtain ⟨day, second, nano, hsecond, hnano⟩ := w
  unfold key TimeOfDay.key shift TimeOfDay.shift TimeOfDay.atSecond
  dsimp only
  omega

theorem key_injective {a b : Wall} (h : a.key = b.key) : a = b := by
  obtain ⟨dayA, timeA⟩ := a
  obtain ⟨dayB, timeB⟩ := b
  have ha := timeA.key_lt
  have hb := timeB.key_lt
  unfold key at h
  dsimp only at h
  have hday : dayA = dayB := by omega
  have htime : timeA = timeB := TimeOfDay.key_injective (by omega)
  rw [hday, htime]

/-- A shift by whole seconds can be made before or after a duration is added. -/
theorem key_add_shift (w : Wall) (s : Int) (d : Duration) :
    ((w.shift s).add d).key = (w.add d).key + s * 2000000000 := by
  obtain ⟨day, second, nano, hsecond, hnano⟩ := w
  unfold key TimeOfDay.key shift add TimeOfDay.shift TimeOfDay.add TimeOfDay.addParts
    TimeOfDay.atSecond
  dsimp only
  -- The fraction alone decides how a leap second is left, and a shift keeps it.
  split
  · dsimp only
    omega
  · split
    · dsimp only
      omega
    · split
      · dsimp only
        omega
      · dsimp only
        omega

/-- A positive duration leads on, from a leap second too. -/
theorem key_lt_add (w : Wall) {d : Duration} (hd : 0 < d.nanos) : w.key < (w.add d).key := by
  obtain ⟨day, second, nano, hsecond, hnano⟩ := w
  have hwhole : 0 ≤ d.seconds := Int.tdiv_nonneg (le_of_lt hd) (by decide)
  have hpart : 0 ≤ d.subsecond := Int.tmod_nonneg _ (le_of_lt hd)
  have hsplit : d.seconds * 1000000000 + d.subsecond = d.nanos := Int.tdiv_mul_add_tmod ..
  unfold key TimeOfDay.key add TimeOfDay.add TimeOfDay.addParts TimeOfDay.atSecond
  dsimp only
  split
  · dsimp only
    omega
  · split
    · dsimp only
      omega
    · split
      · omega
      · dsimp only
        omega

end Wall

namespace Reading

theorem le_iff_key {a b : Reading} : a ≤ b ↔ a.key ≤ b.key := by
  have hle : a ≤ b ↔ a.date.day < b.date.day ∨ (a.date = b.date ∧ a.time.key ≤ b.time.key) :=
    Iff.rfl
  have hdate : a.date = b.date ↔ a.date.day = b.date.day :=
    ⟨congrArg Date.day, Date.ext_day⟩
  have ha := a.time.key_lt
  have hb := b.time.key_lt
  rw [hle, hdate]
  unfold key
  omega

/-- Readings are compared by their keys. -/
theorem compare_eq_compare_key (a b : Reading) : compare a b = compare a.key b.key := by
  have ha := a.time.key_lt
  have hb := b.time.key_lt
  change (compare a.date.day b.date.day).then (compare a.time.key b.time.key) = _
  rw [Int.compare_eq_ite_lt, Nat.compare_eq_ite_lt, Int.compare_eq_ite_lt]
  unfold key
  split_ifs <;> first | rfl | omega

theorem key_toWall (r : Reading) : r.toWall.key = r.key := rfl

theorem key_injective {a b : Reading} (h : a.key = b.key) : a = b := by
  have hwall : a.toWall = b.toWall := Wall.key_injective h
  obtain ⟨dateA, timeA⟩ := a
  obtain ⟨dateB, timeB⟩ := b
  obtain ⟨hday, htime⟩ : dateA.day = dateB.day ∧ timeA = timeB := Wall.mk.inj hwall
  rw [Date.ext_day hday, htime]

instance : LinearOrder Reading where
  le_refl _ := le_iff_key.mpr le_rfl
  le_trans _ _ _ hab hbc := le_iff_key.mpr (le_trans (le_iff_key.mp hab) (le_iff_key.mp hbc))
  lt_iff_le_not_ge _ _ := by rw [lt_iff_key, le_iff_key, le_iff_key, lt_iff_le_not_ge]
  le_antisymm _ _ hab hba := key_injective (le_antisymm (le_iff_key.mp hab) (le_iff_key.mp hba))
  le_total a b := by
    rw [le_iff_key, le_iff_key]
    exact le_total a.key b.key
  toDecidableLE := inferInstance
  compare_eq_compareOfLessAndEq a b := by
    rw [compare_eq_compare_key, LinearOrder.compare_eq_compareOfLessAndEq]
    unfold compareOfLessAndEq
    simp only [lt_iff_key, show a.key = b.key ↔ a = b from ⟨key_injective, congrArg key⟩]
    split_ifs <;> rfl

theorem seconds_eq_key_div (r : Reading) : r.seconds = r.key / 2000000000 := by
  have hnano := r.time.nano_lt
  unfold seconds key TimeOfDay.key
  omega

theorem key_eq (r : Reading) : r.key = r.seconds * 2000000000 + r.time.nano := by
  unfold key TimeOfDay.key seconds
  omega

theorem seconds_le_of_le {a b : Reading} (h : a ≤ b) : a.seconds ≤ b.seconds := by
  rw [le_iff_key] at h
  rw [seconds_eq_key_div, seconds_eq_key_div]
  omega

end Reading

/-- A reading of the calendar is the clock that shows it. -/
theorem Wall.key_of_reading? {w : Wall} {r : Reading} (h : w.reading? = some r) :
    r.key = w.key := by
  obtain ⟨date, hdate, rfl⟩ := Option.map_eq_some_iff.mp h
  have hday : date.day = w.day := Date.ofDay?_eq_some.mp hdate
  unfold key Reading.key
  rw [hday]

/-- A clock on the line where a reading of the calendar is shows this reading. -/
theorem Wall.reading?_of_key_eq {w : Wall} {r : Reading} (h : w.key = r.key) :
    w.reading? = some r := by
  have hwall : w = r.toWall := Wall.key_injective h
  have hdate : Date.ofDay? r.date.day = some r.date := Date.ofDay?_eq_some.mpr rfl
  rw [hwall]
  unfold reading? Reading.toWall
  rw [hdate]
  rfl

namespace Reading

/-- A shift by whole seconds that stays within the calendar. -/
theorem key_of_shift? {r u : Reading} {s : Int} (h : r.shift? s = some u) :
    u.key = r.key + s * 2000000000 := by
  rw [Wall.key_of_reading? h, Wall.key_shift, key_toWall]

/-- Readings whole seconds apart on the line of keys are as many seconds apart. -/
theorem seconds_add_of_key {a b : Reading} {s : Int} (h : a.key + s * 2000000000 = b.key) :
    a.seconds + s = b.seconds := by
  rw [seconds_eq_key_div, seconds_eq_key_div]
  omega

theorem seconds_of_shift? {r u : Reading} {s : Int} (h : r.shift? s = some u) :
    u.seconds = r.seconds + s :=
  (seconds_add_of_key (key_of_shift? h).symm).symm

theorem key_wall_shift (r : Reading) (s : Int) :
    (r.toWall.shift s).key = r.key + s * 2000000000 := by
  rw [Wall.key_shift, key_toWall]

theorem inCalendar (r : Reading) : InCalendar r.seconds := by
  have hday := r.date.mem
  have hsecond := r.time.second_lt
  unfold InCalendar seconds
  omega

/-- A shift by whole seconds that arrives in the calendar shows one of its days. -/
theorem day_wall_shift {r : Reading} {s : Int} (h : InCalendar (r.seconds + s)) :
    firstDay ≤ (r.toWall.shift s).day ∧ (r.toWall.shift s).day ≤ lastDay := by
  have hday : (r.toWall.shift s).day = (r.seconds + s) / 86400 := by
    have hsecond := r.time.second_lt
    unfold toWall Wall.shift TimeOfDay.shift TimeOfDay.atSecond seconds
    dsimp only
    omega
  unfold InCalendar at h
  omega

theorem exists_shift? {r : Reading} {s : Int} (h : InCalendar (r.seconds + s)) :
    ∃ u, r.shift? s = some u := by
  have hdate : Date.ofDay? (r.toWall.shift s).day = some ⟨_, day_wall_shift h⟩ :=
    dif_pos (day_wall_shift h)
  exact ⟨⟨⟨_, day_wall_shift h⟩, _⟩, by rw [shift?, Wall.reading?, hdate, Option.map_some]⟩

/-! ## Shifts that stop at the ends of the calendar -/

/-- Within the calendar nothing is stopped. -/
theorem key_shift {r : Reading} {s : Int} (h : InCalendar (r.seconds + s)) :
    (r.shift s).key = r.key + s * 2000000000 := by
  rw [← key_wall_shift]
  unfold shift
  dsimp only
  rw [dif_pos (day_wall_shift h)]
  rfl

/-- What lies before the stopped shift lies before the shift. -/
theorem key_lt_of_lt_shift {r x : Reading} {s : Int} (h : x < r.shift s) :
    x.key < r.key + s * 2000000000 := by
  rw [← key_wall_shift]
  rw [lt_iff_key] at h
  have hx := x.date.mem
  have htime := (r.toWall.shift s).time.key_lt
  unfold shift at h
  dsimp only at h
  split at h
  · exact h
  · next hout =>
    split at h
    · -- Nothing lies before the first midnight of the calendar.
      have hmidnight : (TimeOfDay.midnight.key : Int) = 0 := rfl
      unfold key at h
      dsimp only at h
      omega
    · have hxtime := x.time.key_lt
      unfold key Wall.key
      omega

/-- What lies at the stopped shift or after it lies at the shift or after it, if a larger shift
stops later. -/
theorem key_le_of_shift_le {r x : Reading} {s s' : Int} (hs : s ≤ s') (h : r.shift s ≤ x)
    (hlt : r.shift s < r.shift s') : r.key + s * 2000000000 ≤ x.key := by
  rw [← key_wall_shift]
  rw [le_iff_key] at h
  have hx := x.date.mem
  have hkey := key_wall_shift r s
  have hkey' := key_wall_shift r s'
  have htime := (r.toWall.shift s).time.key_lt
  have htime' := (r.toWall.shift s').time.key_lt
  have hday : (r.toWall.shift s).day ≤ (r.toWall.shift s').day := by
    unfold Wall.key at hkey hkey'
    omega
  unfold shift at h hlt
  dsimp only at h hlt
  split at h
  · exact h
  · next hout =>
    split at h
    · unfold key Wall.key
      omega
    · next hlow =>
      have hout' : ¬(firstDay ≤ (r.toWall.shift s').day ∧ (r.toWall.shift s').day ≤ lastDay) := by
        omega
      have hlow' : ¬(r.toWall.shift s').day < firstDay := by omega
      rw [dif_neg hout, dif_neg hout', if_neg hlow, if_neg hlow'] at hlt
      rw [lt_iff_key] at hlt
      omega

end Reading

namespace Moment

/-- The place of the local clock on the line of keys. -/
theorem key_wall (m : Moment) : m.wall.key = m.utc.key + m.offset * 2000000000 := by
  rw [wall, Wall.key_shift, Reading.key_toWall]

theorem lt_iff_utc {a b : Moment} : a < b ↔ a.utc < b.utc := Iff.rfl

/-- Moments are ordered by their instants. -/
instance : Preorder Moment where
  le_refl a := le_refl a.utc
  le_trans a b c := @le_trans Reading _ a.utc b.utc c.utc
  lt_iff_le_not_ge a b := @lt_iff_le_not_ge Reading _ a.utc b.utc

theorem le_of_not_lt {a b : Moment} (h : ¬a < b) : b ≤ a := by
  rw [lt_iff_utc, not_lt] at h
  exact h

end Moment

end Almanac
