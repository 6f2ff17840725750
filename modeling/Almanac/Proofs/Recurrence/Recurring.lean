import Almanac.Proofs.Recurrence.Ends

/-!
# Monthly dates recur

An accepted monthly recurrence selects a date that some month of its months has in some year. Such
a date is there again within eight years of any date, since leap years are at most eight years
apart. Nine years before the end of the calendar a scan therefore always finds a date, and it finds
the first one. Where a scan finds none, the calendar has none left: the number of months that it
passes over is never too small.
-/

namespace Almanac

open Calendar

namespace Monthly

variable {m : Monthly} {date e : Date} {inclusive : Bool} {fault : Fault}

/-- The dates of a monthly recurrence after a date, or from it on. -/
def datesFrom (m : Monthly) (date : Date) (inclusive : Bool) : Set Date :=
  {x | x ∈ m.datesIn x.year x.month ∧ if inclusive then date ≤ x else date < x}

/-- What a scan finds is the first date. -/
theorem isLeast_of_scan (h : m.scan date inclusive = .ok e) :
    IsLeast (m.datesFrom date inclusive) e := by
  obtain ⟨hmem, hle, hleast⟩ := scan_spec h
  refine ⟨⟨hmem, Date.add_ite_le_iff.mp hle⟩, ?_⟩
  rintro x ⟨hx, hxle⟩
  exact hleast x hx (Date.add_ite_le_iff.mpr hxle)

/-- A scan that fails has no dates left. -/
theorem datesFrom_of_scan_error (h : m.scan date inclusive = .error fault) :
    m.datesFrom date inclusive = ∅ := by
  refine Set.eq_empty_iff_forall_notMem.mpr ?_
  rintro x ⟨hx, hle⟩
  exact not_le_of_gt (lt_of_scan_error h hx) (Date.add_ite_le_iff.mpr hle)

/-- Nine years before the end of the calendar, a scan of an accepted monthly recurrence succeeds and
gives the first of its dates after a date, or from it on; it lies within the next eight years. A
scan that fails, from any date, has passed over no date of the calendar and left none for the months
beyond its bound. -/
theorem scan_succeeds (m : Monthly) (inclusive : Bool) :
    (∀ date : Date, date.year ≤ lastYear - 9 →
      ∃ e, m.scan date inclusive = .ok e ∧ IsLeast (m.datesFrom date inclusive) e ∧
        e.year ≤ date.year + 8) ∧
    ∀ date fault, m.scan date inclusive = .error fault → m.datesFrom date inclusive = ∅ := by
  refine ⟨fun date hyear => ?_, fun date fault => datesFrom_of_scan_error⟩
  obtain ⟨x, hx, hlater, hwithin⟩ :=
    m.exists_mem_datesIn_of_year date.year_mem.1 (show date.year + 8 < lastYear by omega)
  have hlt : date < x := Date.lt_of_year_lt hlater
  have hmem : x ∈ m.datesFrom date inclusive := by
    refine ⟨hx, ?_⟩
    split
    · exact hlt.le
    · exact hlt
  cases hscan : m.scan date inclusive with
  | error fault =>
    rw [datesFrom_of_scan_error hscan] at hmem
    exact hmem.elim
  | ok e =>
    have hleast := isLeast_of_scan hscan
    refine ⟨e, rfl, hleast, ?_⟩
    by_contra hgt
    exact not_lt_of_ge (hleast.2 hmem) (Date.lt_of_year_lt (by omega))

section Sample

/-- The 29th of February, at half past ten. -/
def leapDays : Monthly where
  times := ⟨[⟨37800, 0, by decide, TimeOfDay.midnight.nano_lt⟩], List.cons_ne_nil _ _,
    List.pairwise_singleton _ _⟩
  selection := .dayOfMonth 29
  months := ⟨2⟩
  proper := by decide

/-- After the leap day of 2096 comes the one of 2104, since 2100 has none. -/
theorem scan_succeeds_leapDays :
    (⟨46080, by decide⟩ : Date).year ≤ lastYear - 9 ∧
      leapDays.scan ⟨46080, by decide⟩ false = .ok ⟨49001, by decide⟩ ∧
      IsLeast (leapDays.datesFrom ⟨46080, by decide⟩ false) ⟨49001, by decide⟩ := by
  have hyear : (⟨46080, by decide⟩ : Date).year ≤ lastYear - 9 := by decide
  have hscan : leapDays.scan ⟨46080, by decide⟩ false = .ok ⟨49001, by decide⟩ := by
    decide +kernel
  obtain ⟨e, he, hleast, -⟩ := (scan_succeeds leapDays false).1 _ hyear
  cases hscan.symm.trans he
  exact ⟨hyear, hscan, hleast⟩

end Sample

end Monthly

end Almanac
