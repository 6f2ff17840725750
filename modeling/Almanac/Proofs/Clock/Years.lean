import Almanac.Proofs.Clock.Calendar

/-!
# The years of the calendar

The calendar begins with the first day of a year and ends with the last day of another, so it holds
all dates of these years and of the years between. The year computed from a day is the one that the
day lies in.
-/

namespace Almanac

/-- The year of the first date. -/
def firstYear : Int := -262143

/-- The year of the last date. -/
def lastYear : Int := 262142

namespace Calendar

variable {year : Int} {month : Nat} {day : Int}

theorem yearStart_firstYear : yearStart firstYear = firstDay := by
  decide

theorem yearStart_lastYear_add_one : yearStart (lastYear + 1) = lastDay + 1 := by
  decide

/-- A day lies in one year only. -/
theorem yearOf_eq_iff : yearOf day = year ↔ yearStart year ≤ day ∧ day < yearStart (year + 1) := by
  obtain ⟨hstart, hend⟩ := yearStart_yearOf day
  constructor
  · rintro rfl
    exact ⟨hstart, hend⟩
  · rintro ⟨hstart', hend'⟩
    rcases lt_trichotomy (yearOf day) year with hlt | heq | hgt
    · have hle := yearStart_mono (show yearOf day + 1 ≤ year by omega)
      omega
    · exact heq
    · have hle := yearStart_mono (show year + 1 ≤ yearOf day by omega)
      omega

/-- The days of the calendar are the days of its years. -/
theorem day_mem_iff : firstDay ≤ day ∧ day ≤ lastDay ↔
    firstYear ≤ yearOf day ∧ yearOf day ≤ lastYear := by
  obtain ⟨hstart, hend⟩ := yearStart_yearOf day
  have hfirst := yearStart_firstYear
  have hlast := yearStart_lastYear_add_one
  constructor
  · rintro ⟨hlow, hhigh⟩
    constructor
    · by_contra hlt
      have hle := yearStart_mono (show yearOf day + 1 ≤ firstYear by omega)
      omega
    · by_contra hgt
      have hle := yearStart_mono (show lastYear + 1 ≤ yearOf day by omega)
      omega
  · rintro ⟨hlow, hhigh⟩
    have hle := yearStart_mono hlow
    have hle' := yearStart_mono (show yearOf day + 1 ≤ lastYear + 1 by omega)
    exact ⟨by omega, by omega⟩

/-- The days of a month lie in its year. -/
theorem InMonth.yearOf_eq (h1 : 1 ≤ month) (h12 : month ≤ 12) (h : InMonth year month day) :
    yearOf day = year := by
  obtain ⟨hstart, hend⟩ := h
  rw [monthStart_eq] at hstart hend
  have hlength := daysBeforeMonth_add_le_yearLength year h1 h12
  have hnext := yearStart_succ year
  exact yearOf_eq_iff.mpr ⟨by omega, by omega⟩

/-- The last month of a year is December, with 31 days. -/
theorem monthStart_december (year : Int) : monthStart year 12 = yearStart (year + 1) - 31 := by
  have hsucc := daysBeforeMonth_succ year (show 1 ≤ 12 by decide) le_rfl
  have hlength : monthLength year 12 = 31 := rfl
  rw [if_pos rfl, hlength] at hsucc
  rw [monthStart_eq, yearStart_succ]
  omega

theorem monthStart_january (year : Int) : monthStart year 1 = yearStart year := by
  rw [monthStart_eq]
  exact Int.add_zero _

end Calendar

namespace Date

open Calendar

variable {year : Int} {month day : Nat} {d : Date}

theorem year_mem (d : Date) : firstYear ≤ d.year ∧ d.year ≤ lastYear :=
  day_mem_iff.mp d.mem

/-- The calendar holds every date of its years. -/
theorem exists_ofYearMonthDay?_iff : (∃ d, ofYearMonthDay? year month day = some d) ↔
    (firstYear ≤ year ∧ year ≤ lastYear) ∧ (1 ≤ month ∧ month ≤ 12) ∧
      1 ≤ day ∧ day ≤ monthLength year month := by
  unfold ofYearMonthDay?
  by_cases hvalid : 1 ≤ month ∧ month ≤ 12 ∧ 1 ≤ day ∧ day ≤ monthLength year month
  · obtain ⟨h1, h12, hday⟩ := hvalid
    have hin : InMonth year month (dayNumber year month day) := by
      have hnumber : dayNumber year month day = monthStart year month + day - 1 := by
        rw [monthStart_eq, dayNumber]
      unfold InMonth
      omega
    rw [if_pos ⟨h1, h12, hday⟩, ← hin.yearOf_eq h1 h12, ← day_mem_iff, hin.yearOf_eq h1 h12]
    constructor
    · rintro ⟨d, hd⟩
      rw [← ofDay?_eq_some.mp hd]
      exact ⟨d.mem, ⟨h1, h12⟩, hday⟩
    · rintro ⟨hmem, -⟩
      exact ⟨⟨_, hmem⟩, ofDay?_eq_some.mpr rfl⟩
  · rw [if_neg hvalid]
    refine iff_of_false (by simp) ?_
    rintro ⟨-, ⟨h1, h12⟩, hday⟩
    exact hvalid ⟨h1, h12, hday⟩

end Date

end Almanac
