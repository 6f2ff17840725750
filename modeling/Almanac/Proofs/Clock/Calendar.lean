import Almanac.Clock.Date
import Mathlib.Tactic.IntervalCases

/-!
# Months on the line of days

The months of the calendar follow each other without a gap: each one takes up as many days as it
is long, and the next one starts right after it. A day therefore belongs to exactly one month,
and the year and the month that are computed from its number are that month.
-/

namespace Almanac

namespace Calendar

/-- The day number of the first day of a month. -/
def monthStart (year : Int) (month : Nat) : Int := dayNumber year month 1

/-- A day lies in a month. -/
def InMonth (year : Int) (month : Nat) (day : Int) : Prop :=
  monthStart year month ≤ day ∧ day < monthStart year month + monthLength year month

theorem monthStart_eq (year : Int) (month : Nat) :
    monthStart year month = yearStart year + daysBeforeMonth year month := by
  unfold monthStart dayNumber
  omega

/-! ## Years -/

/-- The number of days in a year. -/
def yearLength (year : Int) : Nat := if isLeap year then 366 else 365

theorem isLeap_iff (year : Int) :
    isLeap year = true ↔ year % 4 = 0 ∧ (year % 100 ≠ 0 ∨ year % 400 = 0) := by
  simp [isLeap]

theorem yearStart_succ (year : Int) : yearStart (year + 1) = yearStart year + yearLength year := by
  unfold yearLength yearStart
  split
  · next h =>
    rw [isLeap_iff] at h
    omega
  · next h =>
    rw [isLeap_iff] at h
    omega

theorem yearStart_mono {a b : Int} (h : a ≤ b) : yearStart a ≤ yearStart b := by
  unfold yearStart
  omega

/-- A day lies in the year that is computed from its number. -/
theorem yearStart_yearOf (day : Int) :
    yearStart (yearOf day) ≤ day ∧ day < yearStart (yearOf day + 1) := by
  unfold yearOf
  dsimp only
  split
  · next h =>
    unfold yearStart at h ⊢
    omega
  · next h =>
    split
    · next h' =>
      unfold yearStart at h h' ⊢
      omega
    · next h' => exact ⟨by omega, by omega⟩

/-! ## Months -/

/-- Every month takes up its length, and the last one ends with the year. -/
theorem daysBeforeMonth_succ (year : Int) {month : Nat} (h1 : 1 ≤ month) (h12 : month ≤ 12) :
    daysBeforeMonth year month + monthLength year month =
      if month = 12 then yearLength year else daysBeforeMonth year (month + 1) := by
  unfold yearLength
  interval_cases month <;> cases hleap : isLeap year <;> simp [daysBeforeMonth, monthLength, hleap]

theorem monthStart_nextMonth (year : Int) {month : Nat} (h1 : 1 ≤ month) (h12 : month ≤ 12) :
    monthStart (nextMonth year month).1 (nextMonth year month).2 =
      monthStart year month + monthLength year month := by
  have hsucc := daysBeforeMonth_succ year h1 h12
  unfold nextMonth
  by_cases hlast : month = 12
  · rw [if_pos hlast] at hsucc ⊢
    have hyear := yearStart_succ year
    have hfirst : daysBeforeMonth (year + 1) 1 = 0 := rfl
    rw [monthStart_eq, monthStart_eq]
    dsimp only
    omega
  · rw [if_neg hlast] at hsucc ⊢
    rw [monthStart_eq, monthStart_eq]
    dsimp only
    omega

theorem nextMonth_mem (year : Int) {month : Nat} (h1 : 1 ≤ month) (h12 : month ≤ 12) :
    1 ≤ (nextMonth year month).2 ∧ (nextMonth year month).2 ≤ 12 := by
  unfold nextMonth
  split <;> constructor <;> dsimp only <;> omega

/-- Months of one year that come later start after the end of the earlier ones. -/
theorem daysBeforeMonth_add_le (year : Int) {a b : Nat} (h1 : 1 ≤ a) (h12 : b ≤ 12) (h : a < b) :
    daysBeforeMonth year a + monthLength year a ≤ daysBeforeMonth year b := by
  induction b, h using Nat.le_induction with
  | base =>
    have hsucc := daysBeforeMonth_succ year h1 (show a ≤ 12 by omega)
    rw [if_neg (show a ≠ 12 by omega)] at hsucc
    exact hsucc.le
  | succ b hab ih =>
    have hle := ih (by omega)
    have hsucc := daysBeforeMonth_succ year (show 1 ≤ b by omega) (show b ≤ 12 by omega)
    rw [if_neg (show b ≠ 12 by omega)] at hsucc
    omega

theorem daysBeforeMonth_add_le_yearLength (year : Int) {month : Nat} (h1 : 1 ≤ month)
    (h12 : month ≤ 12) :
    daysBeforeMonth year month + monthLength year month ≤ yearLength year := by
  by_cases hlast : month = 12
  · have hsucc := daysBeforeMonth_succ year h1 h12
    rw [if_pos hlast] at hsucc
    omega
  · have hle := daysBeforeMonth_add_le year h1 le_rfl (by omega : month < 12)
    have hsucc := daysBeforeMonth_succ year (by omega) (le_refl 12)
    rw [if_pos rfl] at hsucc
    omega

/-- A month that comes later, in the same year or another, starts after the end of the earlier
one. -/
theorem monthEnd_le_monthStart {year year' : Int} {month month' : Nat} (h1 : 1 ≤ month)
    (h12 : month ≤ 12) (h12' : month' ≤ 12)
    (h : year < year' ∨ (year = year' ∧ month < month')) :
    monthStart year month + monthLength year month ≤ monthStart year' month' := by
  rw [monthStart_eq, monthStart_eq]
  rcases h with hyear | ⟨rfl, hmonth⟩
  · have hend := daysBeforeMonth_add_le_yearLength year h1 h12
    have hnext := yearStart_succ year
    have hmono := yearStart_mono (show year + 1 ≤ year' by omega)
    omega
  · have hend := daysBeforeMonth_add_le year h1 h12' hmonth
    omega

/-- A day lies in one month only. -/
theorem InMonth.unique {year year' : Int} {month month' : Nat} {day : Int}
    (h1 : 1 ≤ month) (h12 : month ≤ 12) (h1' : 1 ≤ month') (h12' : month' ≤ 12)
    (h : InMonth year month day) (h' : InMonth year' month' day) :
    year = year' ∧ month = month' := by
  by_contra hne
  obtain ⟨hstart, hend⟩ := h
  obtain ⟨hstart', hend'⟩ := h'
  by_cases hlt : year < year' ∨ (year = year' ∧ month < month')
  · have hle := monthEnd_le_monthStart h1 h12 h12' hlt
    omega
  · have hgt : year' < year ∨ (year' = year ∧ month' < month) := by omega
    have hle := monthEnd_le_monthStart h1' h12' h12 hgt
    omega

/-- The search for a month finds the last one that has begun. -/
theorem monthUpTo_spec (year : Int) (dayOfYear : Nat) (month : Nat) (hmonth : month ≤ 12) :
    1 ≤ monthUpTo year dayOfYear month ∧ monthUpTo year dayOfYear month ≤ 12 ∧
      daysBeforeMonth year (monthUpTo year dayOfYear month) ≤ dayOfYear ∧
      ∀ later, monthUpTo year dayOfYear month < later → later ≤ month →
        dayOfYear < daysBeforeMonth year later := by
  induction month with
  | zero => exact ⟨le_rfl, Nat.one_le_ofNat, Nat.zero_le _, fun later hlt hle => by omega⟩
  | succ month ih =>
    unfold monthUpTo
    split
    · next hbegun => exact ⟨by omega, hmonth, hbegun, fun later hlt hle => by omega⟩
    · next hnot =>
      obtain ⟨h1, h12, hbegun, hlater⟩ := ih (by omega)
      refine ⟨h1, h12, hbegun, fun later hlt hle => ?_⟩
      by_cases hlast : later = month + 1
      · rw [hlast]
        omega
      · exact hlater later hlt (by omega)

/-- A day lies in the month that is computed from its number. -/
theorem inMonth_yearMonthDay (day : Int) :
    1 ≤ (yearMonthDay day).month ∧ (yearMonthDay day).month ≤ 12 ∧
      InMonth (yearMonthDay day).year (yearMonthDay day).month day := by
  obtain ⟨hstart, hend⟩ := yearStart_yearOf day
  have hlength := yearStart_succ (yearOf day)
  obtain ⟨h1, h12, hbegun, hlater⟩ :=
    monthUpTo_spec (yearOf day) (day - yearStart (yearOf day)).toNat 12 le_rfl
  refine ⟨h1, h12, ?_⟩
  have hsucc := daysBeforeMonth_succ (yearOf day) h1 h12
  unfold InMonth
  rw [monthStart_eq]
  change yearStart (yearOf day) + daysBeforeMonth (yearOf day) (monthUpTo _ _ 12) ≤ day ∧
    day < yearStart (yearOf day) + daysBeforeMonth (yearOf day) (monthUpTo _ _ 12) +
      monthLength (yearOf day) (monthUpTo _ _ 12)
  refine ⟨by omega, ?_⟩
  split at hsucc
  · omega
  · have hnext := hlater _ (Nat.lt_succ_self _) (by omega)
    rw [Nat.succ_eq_add_one] at hnext
    omega

theorem monthLength_le (year : Int) (month : Nat) : monthLength year month ≤ 31 := by
  unfold monthLength
  split
  · split <;> decide
  all_goals decide

/-- Year, month and day of the month of a day make up the day. -/
theorem dayNumber_yearMonthDay (day : Int) :
    dayNumber (yearMonthDay day).year (yearMonthDay day).month (yearMonthDay day).day = day ∧
      1 ≤ (yearMonthDay day).day ∧
      (yearMonthDay day).day ≤ monthLength (yearMonthDay day).year (yearMonthDay day).month := by
  obtain ⟨-, -, hstart, hend⟩ := inMonth_yearMonthDay day
  rw [monthStart_eq] at hstart hend
  have hday : (yearMonthDay day).day = (day - yearStart (yearMonthDay day).year).toNat -
      daysBeforeMonth (yearMonthDay day).year (yearMonthDay day).month + 1 := rfl
  refine ⟨?_, ?_, ?_⟩
  · unfold dayNumber
    omega
  · omega
  · omega

end Calendar

namespace Date

open Calendar

theorem month_mem (d : Date) : 1 ≤ d.month ∧ d.month ≤ 12 :=
  ⟨(inMonth_yearMonthDay d.day).1, (inMonth_yearMonthDay d.day).2.1⟩

theorem inMonth (d : Date) : InMonth d.year d.month d.day :=
  (inMonth_yearMonthDay d.day).2.2

/-- A date lies in its own month only. -/
theorem inMonth_iff {year : Int} {month : Nat} {d : Date} (h1 : 1 ≤ month) (h12 : month ≤ 12) :
    InMonth year month d.day ↔ d.year = year ∧ d.month = month := by
  constructor
  · exact d.inMonth.unique d.month_mem.1 d.month_mem.2 h1 h12
  · rintro ⟨rfl, rfl⟩
    exact d.inMonth

/-- The day of the month. -/
def dayOfMonth (d : Date) : Nat := d.toYearMonthDay.day

theorem dayOfMonth_mem {year : Int} {month : Nat} {d : Date} (hyear : d.year = year)
    (hmonth : d.month = month) : 1 ≤ d.dayOfMonth ∧ d.dayOfMonth ≤ monthLength year month := by
  subst hyear hmonth
  exact (dayNumber_yearMonthDay d.day).2

theorem day_eq_monthStart_add {year : Int} {month : Nat} {d : Date} (hyear : d.year = year)
    (hmonth : d.month = month) : d.day = monthStart year month + d.dayOfMonth - 1 := by
  have hnumber : dayNumber d.year d.month d.dayOfMonth = d.day := (dayNumber_yearMonthDay d.day).1
  rw [← hnumber, hyear, hmonth, monthStart_eq, dayNumber]

/-- A date with a day of a month lies in that month. -/
theorem inMonth_of_ofYearMonthDay? {year : Int} {month day : Nat} {d : Date}
    (h : ofYearMonthDay? year month day = some d) :
    InMonth year month d.day ∧ d.day = monthStart year month + day - 1 := by
  unfold ofYearMonthDay? at h
  split at h
  · next hday =>
    have hnumber := ofDay?_eq_some.mp h
    unfold InMonth
    rw [hnumber, monthStart_eq, dayNumber]
    omega
  · cases h

theorem dayOfMonth_of_ofYearMonthDay? {year : Int} {month day : Nat} {d : Date}
    (h : ofYearMonthDay? year month day = some d) : d.dayOfMonth = day := by
  obtain ⟨hin, hday⟩ := inMonth_of_ofYearMonthDay? h
  unfold ofYearMonthDay? at h
  split at h
  · next hvalid =>
    obtain ⟨hyear, hmonth⟩ := (inMonth_iff hvalid.1 hvalid.2.1).mp hin
    have hown := day_eq_monthStart_add hyear hmonth
    omega
  · cases h

theorem ofYearMonthDay?_toYearMonthDay (d : Date) :
    ofYearMonthDay? d.toYearMonthDay.year d.toYearMonthDay.month d.toYearMonthDay.day =
      some d := by
  obtain ⟨h1, h12, -⟩ := inMonth_yearMonthDay d.day
  obtain ⟨hnumber, hlow, hhigh⟩ := dayNumber_yearMonthDay d.day
  unfold ofYearMonthDay? toYearMonthDay
  rw [if_pos ⟨h1, h12, hlow, hhigh⟩, ofDay?_eq_some, hnumber]

end Date

end Almanac
