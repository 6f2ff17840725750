import Almanac.Proofs.Recurrence.Ends
import Almanac.Proofs.Recurrence.Periods

/-!
# The faults of rules and periods

The rule of a recurrence that its constructor has accepted, and a period, return errors of one kind
only: a date, a moment or a number of periods lies beyond the range of the calendar. In particular
there is always a day of the week to go on to, as the sets of days are not empty. A weekly rule
panics besides, but only when it is asked at one of the dates before the first Sunday of the
calendar, and a period does for a moment that the local calendar does not reach.
-/

namespace Almanac

open Calendar

/-- An error that is returned because a result lies out of range. -/
def Fault.IsRangeError (fault : Fault) : Prop :=
  fault.isPanic = false ∧ fault.category = .range

/-- An operation that fails, if it does, because a result lies out of range. -/
def FailsByRange {β : Type} (x : Except Fault β) : Prop :=
  ∀ fault, x = .error fault → fault.IsRangeError

section FailsByRange

variable {β γ : Type} {fault : Fault}

theorem failsByRange_ok (b : β) : FailsByRange (.ok b : Except Fault β) := by
  intro fault h
  cases h

theorem failsByRange_error (h : fault.IsRangeError) :
    FailsByRange (.error fault : Except Fault β) := by
  rintro _ ⟨⟩
  exact h

theorem FailsByRange.bind {x : Except Fault β} {f : β → Except Fault γ} (hx : FailsByRange x)
    (hf : ∀ b, FailsByRange (f b)) : FailsByRange (x >>= f) := by
  intro fault h
  rcases error_or_of_bind_eq_error h with h | ⟨b, -, h⟩
  · exact hx fault h
  · exact hf b fault h

theorem FailsByRange.map {x : Except Fault β} {f : β → γ} (hx : FailsByRange x) :
    FailsByRange (x.map f) := by
  cases x with
  | error fault => exact failsByRange_error (hx fault rfl)
  | ok b => exact failsByRange_ok _

end FailsByRange

/-! ## Dates -/

namespace Date

theorem failsByRange_plusDays (d : Date) (n : Int) : FailsByRange (d.plusDays n) := by
  unfold plusDays
  split
  · exact failsByRange_ok _
  · exact failsByRange_error ⟨rfl, rfl⟩

theorem failsByRange_nextWeekday (d : Date) (days : WeekDays) (inclusive : Bool) :
    FailsByRange (d.nextWeekday days inclusive) := by
  unfold nextWeekday
  dsimp only
  split
  · exact failsByRange_ok _
  · exact failsByRange_error ⟨rfl, rfl⟩

end Date

namespace Monthly

theorem failsByRange_scan (m : Monthly) (date : Date) (inclusive : Bool) :
    FailsByRange (m.scan date inclusive) := by
  unfold scan
  dsimp only
  split
  · exact failsByRange_ok _
  · exact failsByRange_error ⟨rfl, rfl⟩

end Monthly

/-- The dates before the first Sunday of the calendar. -/
def Date.beforeSundays : Set Date := {d | d.weekStart = .error (.panic .weekStart)}

/-- The calendar has no such date after one that has a Sunday before it. -/
theorem Date.mem_beforeSundays_of_le {d e : Date} (hle : d ≤ e) (he : e ∈ beforeSundays) :
    d ∈ beforeSundays := by
  rcases d.weekStart_cases with ⟨sunday, hsunday⟩ | ⟨hpanic, -⟩
  · obtain ⟨sunday', hsunday'⟩ := exists_weekStart_of_le hsunday hle
    cases hsunday'.symm.trans he
  · exact hpanic

namespace Weekly

variable {w : Weekly} {date c : Date} {day : Weekday} {last : Option Date} {fault : Fault}

/-- A day of the week is looked for in vain when its date is out of range, and cannot be looked for
at all before the first Sunday. -/
theorem fault_of_candidate (h : w.candidate date day last = .error fault) :
    fault.IsRangeError ∨ fault = .panic .weekStart ∧ date ∈ Date.beforeSundays := by
  cases last with
  | some last => exact Or.inl (last.failsByRange_plusDays _ fault h)
  | none =>
    cases hnext : date.nextWeekday (.ofWeekday day) false with
    | error f =>
      unfold candidate at h
      dsimp only at h
      rw [hnext] at h
      cases h
      exact Or.inl (date.failsByRange_nextWeekday _ _ _ hnext)
    | ok next =>
      rw [candidate_none hnext] at h
      rcases date.weekStart_cases with ⟨sunday, hsunday⟩ | ⟨hpanic, -⟩
      · rw [hsunday] at h
        change (if _ then _ else _) = _ at h
        split at h
        · cases h
        · exact Or.inl (next.failsByRange_plusDays _ fault h)
      · rw [hpanic] at h
        cases h
        exact Or.inr ⟨rfl, hpanic⟩

theorem fault_of_dateAfter (h : w.dateAfter date day last = .error fault) :
    fault.IsRangeError ∨ fault = .panic .weekStart ∧ date ∈ Date.beforeSundays := by
  rcases error_or_of_bind_eq_error h with h | ⟨c, -, h⟩
  · exact fault_of_candidate h
  · split at h
    · exact Or.inl (c.failsByRange_plusDays _ fault h)
    · cases h

/-- Whatever has been recorded, the next date of a day of the week lies after the date. -/
theorem lt_of_dateAfter (h : w.dateAfter date day last = .ok c) : date < c := by
  have hstride : 0 < w.stride := by
    have hweeks := w.weeks_pos
    unfold stride
    omega
  obtain ⟨c₀, -, h⟩ := exists_of_bind_eq_ok h
  split at h
  · have hday := Date.day_of_plusDays h
    have hover := Int.lt_ediv_add_one_mul_self (date.day - c₀.day) hstride
    rw [Date.lt_iff]
    omega
  · next hlater =>
    cases h
    exact not_le.mp hlater

end Weekly

namespace DateRule

/-- A rule fails for a date out of range only, or it panics at one of some early dates; and it
gives no early date when it is asked at one that is not early. -/
structure FailsByRange (rule : DateRule) (early : Set Date) : Prop where
  first : ∀ d, Almanac.FailsByRange (rule.first d)
  next : ∀ d slots fault, rule.next d slots = .error fault →
    fault.IsRangeError ∨ fault = .panic .weekStart ∧ d ∈ early
  early_of_first : ∀ d e, rule.first d = .ok e → e ∈ early → d ∈ early
  early_of_next : ∀ d slots e, rule.next d slots = .ok e → e ∈ early → d ∈ early

end DateRule

theorem Daily.failsByRange_rule (d : Daily) : d.rule.FailsByRange ∅ := by
  unfold rule
  cases d.selection with
  | everyDays n =>
    exact ⟨failsByRange_ok, fun date _ fault h => Or.inl (date.failsByRange_plusDays _ fault h),
      fun _ _ _ h => h.elim, fun _ _ _ _ h => h.elim⟩
  | weekDays days =>
    exact ⟨fun date => date.failsByRange_nextWeekday _ _,
      fun date _ fault h => Or.inl (date.failsByRange_nextWeekday _ _ fault h),
      fun _ _ _ h => h.elim, fun _ _ _ _ h => h.elim⟩

theorem Weekly.failsByRange_rule (w : Weekly) : w.rule.FailsByRange Date.beforeSundays where
  first date := date.failsByRange_nextWeekday _ _
  next date slots fault h := by
    rcases exists_of_earliestAfter_error h with ⟨-, hempty⟩ | ⟨day, -, herror⟩
    -- The constructor refuses an empty set of days, so there is a day to look at.
    · exact (w.toList_weekDays_ne_nil hempty).elim
    · exact fault_of_dateAfter herror
  early_of_first date first h hearly := by
    obtain ⟨-, hle, -⟩ := Date.nextWeekday_spec h
    refine Date.mem_beforeSundays_of_le (Date.le_iff.mpr ?_) hearly
    simpa using hle
  early_of_next date slots e h hearly := by
    obtain ⟨hfrom, -⟩ := w.earliestAfter_spec h
    rcases hfrom with hnone | ⟨day, -, hday⟩
    · cases hnone
    · exact Date.mem_beforeSundays_of_le (le_of_lt (lt_of_dateAfter hday)) hearly

theorem Monthly.failsByRange_rule (m : Monthly) : m.rule.FailsByRange ∅ where
  first date := m.failsByRange_scan date true
  next date _ fault h := Or.inl (m.failsByRange_scan date false fault h)
  early_of_first _ _ _ h := h.elim
  early_of_next _ _ _ _ h := h.elim

namespace RecurrenceKind

/-- The dates at which the rule of a recurrence panics if it needs to look for another one. -/
def earlyDates : RecurrenceKind → Set Date
  | weekly _ => Date.beforeSundays
  | _ => ∅

/-- The rules of all kinds of recurrences. -/
theorem failsByRange_rule {kind : RecurrenceKind} {rule : DateRule} {times : TimesOfDay}
    (h : kind.calendar? = some (rule, times)) : rule.FailsByRange kind.earlyDates := by
  cases kind with
  | period p => cases h
  | daily d =>
    cases h
    exact d.failsByRange_rule
  | weekly w =>
    cases h
    exact w.failsByRange_rule
  | monthly m =>
    cases h
    exact m.failsByRange_rule

end RecurrenceKind

/-! ## Periods -/

namespace Period

variable (p : Period)

theorem failsByRange_clearFrom (gap : Interval Reading) (start : Reading) (bound : Nat)
    (steps : Int) (candidate : Reading) :
    FailsByRange (p.clearFrom gap start bound steps candidate) := by
  induction bound generalizing steps candidate with
  | zero => exact failsByRange_ok _
  | succ bound ih =>
    unfold clearFrom
    split
    · split
      · exact ih _ _
      · exact failsByRange_error ⟨rfl, rfl⟩
    · exact failsByRange_ok _

theorem failsByRange_clearGap (clock : LocalClock) (start candidate : Reading) :
    FailsByRange (p.clearGap clock start candidate) := by
  unfold clearGap
  split
  · exact failsByRange_ok _
  · split
    · exact failsByRange_ok _
    · exact p.failsByRange_clearFrom _ _ _ _ _

theorem failsByRange_elapsed (clock : LocalClock) (now : Moment) :
    FailsByRange (p.elapsed clock now) := by
  unfold elapsed
  split
  · exact failsByRange_ok _
  · exact failsByRange_error ⟨rfl, rfl⟩

theorem failsByRange_resolution (behavior : Behavior) (clock : LocalClock) (now : Moment)
    (start candidate : Reading) :
    FailsByRange (p.resolution behavior clock now start candidate) := by
  unfold resolution
  split
  · split
    · exact failsByRange_ok _
    · exact (p.failsByRange_clearGap clock start candidate).map
  · split
    · exact (p.failsByRange_elapsed clock now).map
    · exact failsByRange_ok _

/-- The next occurrence of a period is out of range, or the moment has no local reading. -/
theorem fault_of_nextTime {behavior : Behavior} {clock : LocalClock} {now : Moment} {fault : Fault}
    (h : p.nextTime behavior clock now = .error fault) :
    fault.IsRangeError ∨ fault = .panic .localReading ∧ now.local? = none := by
  cases hstart : now.local? with
  | none =>
    unfold nextTime at h
    rw [hstart] at h
    cases h
    exact Or.inr ⟨rfl, rfl⟩
  | some start =>
    refine Or.inl ?_
    cases hcandidate : start.add? p.duration with
    | none =>
      unfold nextTime at h
      simp only [hstart, hcandidate] at h
      cases h
      exact ⟨rfl, rfl⟩
    | some candidate =>
      rw [nextTime_eq hstart hcandidate] at h
      refine FailsByRange.bind (p.failsByRange_resolution behavior clock now start candidate)
        (fun resolved => ?_) fault h
      split
      · split
        · exact failsByRange_ok _
        · exact p.failsByRange_elapsed clock now
      · exact p.failsByRange_elapsed clock now

/-- A moment without a local reading is not asked for any occurrence. -/
theorem nextTime_of_local?_eq_none {behavior : Behavior} {clock : LocalClock} {now : Moment}
    (h : now.local? = none) : p.nextTime behavior clock now = .error (.panic .localReading) := by
  unfold nextTime
  rw [h]
  rfl

end Period

end Almanac
