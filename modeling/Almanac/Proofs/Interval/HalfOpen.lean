import Almanac.Interval.Basic
import Mathlib.Order.Lattice

/-!
# Half-open intervals

In the order of the values, a half-open interval contains what lies from its start on and before
its end. Its constructor accepts two ends exactly when the first one comes before the second.
-/

namespace Almanac

variable {α : Type} [LinearOrder α] {a b v : α}

namespace Bound

theorem admits_lowerAt_inclusive : (lowerAt .inclusive a).admits v = true ↔ a ≤ v := by
  unfold admits lowerAt isInclusive
  rcases lt_trichotomy v a with hlt | rfl | hgt
  · simp [compare_lt_iff_lt.mpr hlt, hlt]
  · simp
  · simp [compare_gt_iff_gt.mpr hgt, hgt.le]

theorem admits_lowerAt_exclusive : (lowerAt .exclusive a).admits v = true ↔ a < v := by
  unfold admits lowerAt isInclusive
  rcases lt_trichotomy v a with hlt | rfl | hgt
  · simp [compare_lt_iff_lt.mpr hlt, hlt.le]
  · simp
  · simp [compare_gt_iff_gt.mpr hgt, hgt]

theorem admits_upperAt_exclusive : (upperAt .exclusive a).admits v = true ↔ v < a := by
  unfold admits upperAt isInclusive
  rcases lt_trichotomy v a with hlt | rfl | hgt
  · simp [compare_lt_iff_lt.mpr hlt, hlt]
  · simp
  · simp [compare_gt_iff_gt.mpr hgt, hgt.le]

end Bound

namespace Interval

theorem closedOpen_of_lt (h : a < b) :
    closedOpen a b = .ok ⟨.lowerAt .inclusive a, .upperAt .exclusive b⟩ := by
  have hcompare : compare (Extended.finite a) (.finite b) = .lt := compare_lt_iff_lt.mpr h
  unfold closedOpen ofBounds
  simp [Bound.lowerAt, Bound.upperAt, hcompare]

theorem exists_closedOpen_eq_error (h : ¬a < b) : ∃ fault, closedOpen a b = .error fault := by
  have hne : compare (Extended.finite a) (.finite b) ≠ .lt := mt compare_lt_iff_lt.mp h
  unfold closedOpen ofBounds
  rw [if_neg (by simp [Bound.lowerAt, Bound.upperAt])]
  cases hcompare : compare (Bound.lowerAt .inclusive a).value (Bound.upperAt .exclusive b).value with
  | lt => exact (hne hcompare).elim
  | eq => exact ⟨_, rfl⟩
  | gt => exact ⟨_, rfl⟩

theorem contains_of_closedOpen {i : Interval α} (h : closedOpen a b = .ok i) :
    i.contains v = true ↔ a ≤ v ∧ v < b := by
  by_cases hlt : a < b
  · rw [closedOpen_of_lt hlt] at h
    cases h
    rw [contains, Bool.and_eq_true, Bound.admits_lowerAt_inclusive, Bound.admits_upperAt_exclusive]
  · obtain ⟨fault, hfault⟩ := exists_closedOpen_eq_error hlt
    rw [hfault] at h
    cases h

theorem not_lt_of_closedOpen {fault : Fault} (h : closedOpen a b = .error fault) : ¬a < b := by
  intro hlt
  rw [closedOpen_of_lt hlt] at h
  cases h

theorem contains_empty : (empty a).contains v ≠ true := by
  rw [contains, empty, Ne, Bool.and_eq_true, Bound.admits_lowerAt_exclusive,
    Bound.admits_upperAt_exclusive]
  intro hboth
  exact lt_asymm hboth.1 hboth.2

end Interval

end Almanac
