import Almanac.Proofs.Clock.Shift
import Almanac.Recurrence.Cursor

/-!
# Ordinary instants

Outside leap seconds the readings of the universal timeline are evenly spaced: each one is a
number of nanoseconds since 1970, readings are compared by these numbers, the length of time
between two readings is their difference, and adding a duration adds to them. Local clocks shift
readings by whole seconds, which keeps the fraction, so an ordinary local reading means an
ordinary instant.
-/

namespace Almanac

/-- The fractions of a second that an ordinary time of day can have. -/
theorem TimeOfDay.isLeap_eq_false_iff {t : TimeOfDay} :
    t.isLeap = false ↔ t.nano < 1000000000 := by
  rw [isLeap, decide_eq_false_iff_not, Nat.not_le]

/-- Ordinary addition of seconds and nanoseconds, counted over all days. -/
theorem TimeOfDay.addParts_spec (second nano : Int) :
    (addParts second nano).1.nano < 1000000000 ∧
      (((addParts second nano).2 * 86400 + (addParts second nano).1.second) * 1000000000 +
        (addParts second nano).1.nano : Int) = second * 1000000000 + nano := by
  unfold addParts atSecond
  dsimp only
  omega

namespace Reading

/-- The reading is not inside a leap second. -/
def IsOrdinary (r : Reading) : Prop := r.time.isLeap = false

instance (r : Reading) : Decidable r.IsOrdinary := inferInstanceAs (Decidable (_ = _))

/-- The nanoseconds from 1970-01-01 to a reading, without leap seconds. -/
def nanos (r : Reading) : Int := r.seconds * 1000000000 + r.time.nano

variable {a b r u : Reading} {d : Duration} {s : Int}

theorem isOrdinary_iff : r.IsOrdinary ↔ r.time.nano < 1000000000 :=
  TimeOfDay.isLeap_eq_false_iff

theorem IsOrdinary.lt_iff_nanos (ha : a.IsOrdinary) (hb : b.IsOrdinary) :
    a < b ↔ a.nanos < b.nanos := by
  rw [isOrdinary_iff] at ha hb
  rw [lt_iff_key]
  unfold nanos seconds key TimeOfDay.key
  omega

/-- The length of time between ordinary readings. -/
theorem IsOrdinary.nanos_since (ha : a.IsOrdinary) (hb : b.IsOrdinary) :
    (a.since b).nanos = a.nanos - b.nanos := by
  unfold since TimeOfDay.since nanos seconds
  simp only [show a.time.isLeap = false from ha, show b.time.isLeap = false from hb,
    Bool.false_eq_true, if_false, ite_self]
  omega

/-- The clock a duration after an ordinary reading. -/
theorem IsOrdinary.add_toWall (hr : r.IsOrdinary) (d : Duration) :
    (r.toWall.add d).time.nano < 1000000000 ∧
      (((r.toWall.add d).day * 86400 + (r.toWall.add d).time.second) * 1000000000 +
        (r.toWall.add d).time.nano : Int) = r.nanos + d.nanos := by
  have hsum : r.time.add d =
      TimeOfDay.addParts (r.time.second + d.seconds) (r.time.nano + d.subsecond) :=
    if_pos (isOrdinary_iff.mp hr)
  have hsplit : d.seconds * 1000000000 + d.subsecond = d.nanos := Int.tdiv_mul_add_tmod ..
  obtain ⟨hnano, htotal⟩ :=
    TimeOfDay.addParts_spec (r.time.second + d.seconds) (r.time.nano + d.subsecond)
  unfold nanos seconds
  simp only [Wall.add, toWall, hsum]
  exact ⟨hnano, by omega⟩

/-- A duration after an ordinary reading comes an ordinary reading. -/
theorem IsOrdinary.add? (hr : r.IsOrdinary) (h : r.add? d = some u) :
    u.IsOrdinary ∧ u.nanos = r.nanos + d.nanos := by
  obtain ⟨date, hdate, rfl⟩ := Option.map_eq_some_iff.mp h
  have hday : date.day = (r.toWall.add d).day := Date.ofDay?_eq_some.mp hdate
  obtain ⟨hnano, htotal⟩ := hr.add_toWall d
  refine ⟨isOrdinary_iff.mpr hnano, ?_⟩
  unfold nanos seconds
  rw [hday]
  exact htotal

theorem IsOrdinary.exists_add? (hr : r.IsOrdinary)
    (h : InCalendar ((r.nanos + d.nanos) / 1000000000)) : ∃ u, r.add? d = some u := by
  obtain ⟨hnano, htotal⟩ := hr.add_toWall d
  have hsecond := (r.toWall.add d).time.second_lt
  have hday : firstDay ≤ (r.toWall.add d).day ∧ (r.toWall.add d).day ≤ lastDay := by
    unfold InCalendar at h
    omega
  have hdate : Date.ofDay? (r.toWall.add d).day = some ⟨_, hday⟩ := dif_pos hday
  exact ⟨⟨⟨_, hday⟩, _⟩, by rw [Reading.add?, Wall.reading?, hdate, Option.map_some]⟩

theorem IsOrdinary.nanos_div (hr : r.IsOrdinary) : r.nanos / 1000000000 = r.seconds := by
  rw [isOrdinary_iff] at hr
  unfold nanos
  omega

/-- Whole seconds after an ordinary reading the fraction is the same. -/
theorem IsOrdinary.add_seconds? (hr : r.IsOrdinary)
    (h : r.add? (Duration.ofSeconds s) = some u) :
    u.time.nano = r.time.nano ∧ u.seconds = r.seconds + s := by
  obtain ⟨hu, hnanos⟩ := hr.add? h
  have hlength : (Duration.ofSeconds s).nanos = s * 1000000000 := rfl
  rw [isOrdinary_iff] at hr hu
  unfold nanos at hnanos
  omega

theorem IsOrdinary.exists_add_seconds? (hr : r.IsOrdinary) (h : InCalendar (r.seconds + s)) :
    ∃ u, r.add? (Duration.ofSeconds s) = some u ∧ u.IsOrdinary ∧
      u.time.nano = r.time.nano ∧ u.seconds = r.seconds + s := by
  have hlength : (Duration.ofSeconds s).nanos = s * 1000000000 := rfl
  have hseconds : (r.nanos + (Duration.ofSeconds s).nanos) / 1000000000 = r.seconds + s := by
    rw [hlength, Int.add_mul_ediv_right _ _ (by decide), hr.nanos_div]
  obtain ⟨u, hu⟩ := hr.exists_add? (hseconds.symm ▸ h)
  exact ⟨u, hu, (hr.add? hu).1, hr.add_seconds? hu⟩

/-- Whole days from an ordinary reading, at the same time of day. -/
theorem IsOrdinary.exists_add_days? {n : Int} (hr : r.IsOrdinary)
    (h : InCalendar (r.seconds + n * 86400)) :
    ∃ u, r.add? (Duration.ofDays n) = some u ∧ u.IsOrdinary ∧
      u.time.nano = r.time.nano ∧ u.seconds = r.seconds + n * 86400 :=
  hr.exists_add_seconds? h

/-- Whole days from any reading the fraction is the one of its second; a leap second is left. -/
theorem nano_of_add_days? {n : Int} (hn : n ≠ 0) (h : r.add? (Duration.ofDays n) = some u) :
    u.time.nano = r.time.nano % 1000000000 := by
  obtain ⟨date, -, rfl⟩ := Option.map_eq_some_iff.mp h
  have hwhole : (Duration.ofDays n).seconds = n * 86400 := Int.mul_tdiv_cancel _ (by decide)
  have hpart : (Duration.ofDays n).subsecond = 0 := Int.mul_tmod_left _ _
  unfold Wall.add TimeOfDay.add TimeOfDay.addParts TimeOfDay.atSecond toWall
  dsimp only
  split
  · dsimp only
    omega
  · split
    · dsimp only
      omega
    · split
      · dsimp only
        omega
      · omega

theorem isOrdinary_of_add_days? {n : Int} (hn : n ≠ 0) (h : r.add? (Duration.ofDays n) = some u) :
    u.IsOrdinary := by
  rw [isOrdinary_iff, nano_of_add_days? hn h]
  exact Nat.mod_lt _ (by decide)

/-- A shift by whole seconds keeps the fraction. -/
theorem nano_of_shift? (h : r.shift? s = some u) : u.time.nano = r.time.nano := by
  obtain ⟨date, -, rfl⟩ := Option.map_eq_some_iff.mp h
  rfl

theorem IsOrdinary.shift? (hr : r.IsOrdinary) (h : r.shift? s = some u) : u.IsOrdinary := by
  rw [isOrdinary_iff] at hr ⊢
  rw [nano_of_shift? h]
  exact hr

end Reading

/-! ## What a local clock makes of ordinary readings -/

variable {clock : LocalClock} {behavior : Behavior} {policy : RepeatedPolicy} {r : Reading}
  {m : Moment} {offset : Int}

/-- The local reading of an ordinary instant is ordinary. -/
theorem Moment.isOrdinary_of_local? (hm : m.utc.IsOrdinary) (h : m.local? = some r) :
    r.IsOrdinary :=
  Reading.IsOrdinary.shift? hm h

theorem Moment.isOrdinary_of_ofLocal? (hr : r.IsOrdinary) (h : Moment.ofLocal? r offset = some m) :
    m.utc.IsOrdinary := by
  obtain ⟨u, hu, rfl⟩ := Option.map_eq_some_iff.mp h
  exact hr.shift? hu

namespace LocalClock

theorem isOrdinary_of_resolve? (hr : r.IsOrdinary) (h : clock.resolve? r policy = some m) :
    m.utc.IsOrdinary := by
  unfold resolve? at h
  split at h
  · cases h
  · exact Moment.isOrdinary_of_ofLocal? hr h
  · exact Moment.isOrdinary_of_ofLocal? hr h
  · exact Moment.isOrdinary_of_ofLocal? hr h

theorem isOrdinary_of_shiftSkipped? (hr : r.IsOrdinary) (h : clock.shiftSkipped? r = some m) :
    m.utc.IsOrdinary := by
  unfold shiftSkipped? at h
  split at h
  · obtain ⟨u, hu, rfl⟩ := Option.map_eq_some_iff.mp h
    exact hr.shift? hu
  · exact isOrdinary_of_resolve? hr h

/-- The instant of an ordinary reading is ordinary. -/
theorem isOrdinary_of_candidate? (hr : r.IsOrdinary) (h : clock.candidate? behavior r = some m) :
    m.utc.IsOrdinary := by
  unfold candidate? at h
  split at h
  · cases h
  · exact isOrdinary_of_shiftSkipped? hr h
  · exact isOrdinary_of_resolve? hr h

end LocalClock

end Almanac
