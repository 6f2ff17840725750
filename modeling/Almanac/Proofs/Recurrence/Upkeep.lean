import Almanac.Proofs.Recurrence.Failure
import Almanac.Proofs.Recurrence.Faults
import Almanac.Proofs.Recurrence.Requests
import Mathlib.Data.List.Rotate

/-!
# What a cursor keeps

A cursor that has been started has a date, its queue is a rotation of all times of day, and what it
has recorded for a day of the week is a date with this day. A start brings this about and every step
keeps it, also one that fails after the queue has been rotated; and a start that fails leaves the
cursor fresh. No call therefore steps a cursor that has not been started. It fails only with the
rule, with the period, or for want of candidates, and so for a result out of range. What is left are
panics: where a moment is read that the local calendar does not reach, and where a weekly recurrence
goes on from a date before the first Sunday of the calendar.
-/

namespace Almanac

theorem TimesOfDay.isRotated_rotatedAfter (times : TimesOfDay) (t : TimeOfDay) :
    times.toList.IsRotated (times.rotatedAfter t) := by
  have hrotated : (times.toList.filter (· ≤ t) ++ times.toList.filter (t < ·)).IsRotated
      (times.rotatedAfter t) := List.isRotated_append
  rwa [← times.toList_eq_append t] at hrotated

namespace WeekSlots

/-- Every date is recorded under its own day of the week. -/
def OwnDays (slots : WeekSlots) : Prop := ∀ w d, slots.at? w = some d → d.weekday = w

theorem ownDays_empty : empty.OwnDays := by
  intro w d h
  rw [at?_empty] at h
  cases h

theorem OwnDays.record {slots : WeekSlots} (h : slots.OwnDays) (d : Date) :
    (slots.record d).OwnDays := by
  intro w e he
  rw [at?_record] at he
  split at he
  · next hw =>
    cases he
    exact hw.symm
  · exact h w e he

end WeekSlots

namespace Cursor

/-- What holds of a cursor from its start on. -/
structure Kept (times : TimesOfDay) (c : Cursor) : Prop where
  exists_date : ∃ date, c.date = some date
  isRotated : times.toList.IsRotated c.queue
  ownDays : c.slots.OwnDays

/-- A cursor that stands on one of some early dates. -/
def IsEarly (early : Set Date) (c : Cursor) : Prop := ∃ date ∈ c.date, date ∈ early

variable {rule : DateRule} {early : Set Date} {times : TimesOfDay} {behavior : Behavior}
  {clock : LocalClock} {now : Moment} {bound : Nat} {start r : Reading} {visited : List Reading}
  {c c' : Cursor} {result : Except Fault Moment} {fault : Fault}

theorem Kept.isFresh (h : c.Kept times) : c.isFresh = false := by
  obtain ⟨date, hdate⟩ := h.exists_date
  rw [Cursor.isFresh, hdate]
  rfl

/-! ## Starting -/

theorem kept_of_start (h : ({} : Cursor).start rule times start = .ok c) : c.Kept times := by
  have hcases := startFrom_start rule times start
  rw [h] at hcases
  cases hcases with
  | today => exact ⟨⟨_, rfl⟩, times.isRotated_rotatedAfter _, WeekSlots.ownDays_empty⟩
  | later => exact ⟨⟨_, rfl⟩, .refl _, WeekSlots.ownDays_empty⟩
  | @goOn date =>
    refine ⟨⟨date, rfl⟩, ?_, WeekSlots.ownDays_empty⟩
    dsimp only
    split
    · exact times.isRotated_rotatedAfter _
    · exact .refl _

theorem fault_of_start (hrule : rule.FailsByRange early)
    (h : ({} : Cursor).start rule times start = .error fault) :
    fault.IsRangeError ∨ fault = .panic .weekStart ∧ start.date ∈ early := by
  have hcases := startFrom_start rule times start
  rw [h] at hcases
  cases hcases with
  | noFirst hfirst => exact Or.inl (hrule.first _ fault hfirst)
  | noNext _ _ hnext => exact hrule.next _ _ fault hnext

/-- A start that leads to an early date is on an early date. -/
theorem early_of_start (hrule : rule.FailsByRange early)
    (h : ({} : Cursor).start rule times start = .ok c) (hearly : c.IsEarly early) :
    start.date ∈ early := by
  obtain ⟨date, hdate, hearly⟩ := hearly
  have hcases := startFrom_start rule times start
  rw [h] at hcases
  cases hcases with
  | today =>
    cases hdate
    exact hearly
  | later hfirst =>
    cases hdate
    exact hrule.early_of_first _ _ hfirst hearly
  | goOn _ _ hnext =>
    cases hdate
    exact hrule.early_of_next _ _ _ hnext hearly

theorem kept_of_started (h : ({} : Cursor).started rule times now = .ok c) : c.Kept times := by
  obtain ⟨start, -, hstart⟩ := exists_start_of_started h
  exact kept_of_start hstart

theorem Kept.started (h : c.Kept times) : c.started rule times now = .ok c :=
  started_of_isFresh_eq_false h.isFresh

/-! ## Stepping -/

/-- Every step keeps the cursor up, whether it succeeds or not, and fails only with the rule. -/
theorem Kept.advance (h : c.Kept times) (rule : DateRule) :
    (c.advance rule).2.Kept times ∧ ∀ fault, (c.advance rule).1 = .error fault →
      ∃ date ∈ c.date, rule.next date c.slots = .error fault := by
  obtain ⟨queue, date?, last, slots⟩ := c
  obtain ⟨⟨date, rfl⟩, hrotated, hdays⟩ := h
  dsimp only at hrotated hdays
  -- The branch for a cursor that has not been started needs an empty queue, or no date.
  cases queue with
  | nil => exact (times.ne_nil (List.isRotated_nil_iff.mp hrotated)).elim
  | cons u rest =>
    have hrotated' : times.toList.IsRotated (rest ++ [u]) :=
      hrotated.trans (List.isRotated_concat u rest).symm
    cases hover : last.any (u ≤ ·) with
    | false =>
      rw [advance_of_stay hover]
      exact ⟨⟨⟨_, rfl⟩, hrotated', hdays.record _⟩, fun fault hfault => nomatch hfault⟩
    | true =>
      rw [advance_of_over hover]
      cases hnext : rule.next date slots with
      | error fault =>
        refine ⟨⟨⟨_, rfl⟩, hrotated', hdays⟩, ?_⟩
        rintro _ ⟨⟩
        exact ⟨date, rfl, hnext⟩
      | ok e => exact ⟨⟨⟨_, rfl⟩, hrotated', hdays.record _⟩, fun fault hfault => nomatch hfault⟩

theorem Kept.fault_of_advance (hrule : rule.FailsByRange early) (h : c.Kept times)
    (hfault : (c.advance rule).1 = .error fault) :
    fault.IsRangeError ∨ fault = .panic .weekStart ∧ c.IsEarly early := by
  obtain ⟨date, hdate, hnext⟩ := (h.advance rule).2 fault hfault
  exact (hrule.next date _ fault hnext).imp_right fun hpanic =>
    ⟨hpanic.1, date, hdate, hpanic.2⟩

/-- No step goes back to an early date. -/
theorem isEarly_of_advance (hrule : rule.FailsByRange early)
    (hstep : c.advance rule = (.ok r, c')) (hearly : c'.IsEarly early) : c.IsEarly early := by
  obtain ⟨queue, date?, last, slots⟩ := c
  obtain ⟨e, he, hearly⟩ := hearly
  unfold Cursor.advance at hstep
  split at hstep
  · next date time rest hdate _ =>
    dsimp only at hdate hstep
    refine ⟨date, hdate, ?_⟩
    split at hstep
    · cases hstep
    · next next hnext =>
      cases hstep
      cases he
      split at hnext
      · exact hrule.early_of_next _ _ _ hnext hearly
      · cases hnext
        exact hearly
  · cases hstep

theorem Kept.steps (h : c.Kept times) (hsteps : Steps rule c visited c') : c'.Kept times := by
  induction hsteps with
  | nil => exact h
  | @cons c c₁ _ _ _ hstep _ ih =>
    have hkept := (h.advance rule).1
    rw [hstep] at hkept
    exact ih hkept

theorem isEarly_of_steps (hrule : rule.FailsByRange early) (hsteps : Steps rule c visited c')
    (hearly : c'.IsEarly early) : c.IsEarly early := by
  induction hsteps with
  | nil => exact hearly
  | cons hstep _ ih => exact isEarly_of_advance hrule hstep (ih hearly)

/-- A search keeps the cursor up. It fails by range, or it panics from an early date. -/
theorem Kept.search (hrule : rule.FailsByRange early) (h : c.Kept times)
    (hsearch : Cursor.search rule behavior clock now bound c = (result, c')) :
    (∀ fault, result = .error fault →
      fault.IsRangeError ∨ fault = .panic .weekStart ∧ c.IsEarly early) ∧ c'.Kept times := by
  obtain ⟨c₁, left, hsteps, -, -, hend⟩ := exists_steps_of_search hsearch
  have hkept := h.steps hsteps
  have hkept' := (hkept.advance rule).1
  cases hend with
  | limit =>
    refine ⟨?_, hkept⟩
    rintro _ ⟨⟩
    exact Or.inl ⟨rfl, rfl⟩
  | fault hstep =>
    have hfault := hkept.fault_of_advance hrule (congrArg Prod.fst hstep)
    rw [hstep] at hkept'
    refine ⟨?_, hkept'⟩
    rintro _ ⟨⟩
    exact hfault.imp_right (And.imp_right (isEarly_of_steps hrule hsteps))
  | found hstep =>
    rw [hstep] at hkept'
    exact ⟨fun fault hfault => (nomatch hfault), hkept'⟩

end Cursor

/-! ## Calling -/

namespace Recurrence

/-- How a recurrence leaves its cursor between two calls: fresh, or kept up with its times. -/
def FreshOrKept (r : Recurrence) (c : Cursor) : Prop :=
  c = {} ∨ ∃ rule times, r.kind.calendar? = some (rule, times) ∧ c.Kept times

/-- The panics of a call that goes on with a cursor. It reads the moment on the local clock, for a
period or to start the cursor, or it looks for another date from the date of the cursor, which is
the date of the moment if the cursor is yet to be started. -/
inductive Panics (r : Recurrence) (c : Cursor) (now : Moment) : Fault → Prop
  | unread (hnow : now.local? = none)
      (hreads : r.kind.calendar? = none ∨ c.isFresh = true) : Panics r c now (.panic .localReading)
  | early {date : Date} (hdate : date ∈ c.date.or (now.local?.map (·.date)))
      (hearly : date ∈ r.kind.earlyDates) : Panics r c now (.panic .weekStart)

variable {r : Recurrence} {clock : LocalClock} {rule : DateRule} {times : TimesOfDay}
  {state : RecurrenceState} {now : Moment} {c c' c₀ : Cursor} {visited : List Reading}
  {result : Except Fault Moment} {fault : Fault}

theorem FreshOrKept.fresh_or (h : r.FreshOrKept c)
    (hcalendar : r.kind.calendar? = some (rule, times)) : c = {} ∨ c.Kept times := by
  refine h.imp_right ?_
  rintro ⟨_, _, hcalendar', hkept⟩
  rw [hcalendar] at hcalendar'
  cases hcalendar'
  exact hkept

/-- The cursor that a call steps on is kept up. -/
theorem FreshOrKept.kept_of_started (h : r.FreshOrKept c)
    (hcalendar : r.kind.calendar? = some (rule, times))
    (hstarted : c.started rule times now = .ok c₀) : c₀.Kept times := by
  rcases h.fresh_or hcalendar with rfl | hkept
  · exact Cursor.kept_of_started hstarted
  · rw [hkept.started] at hstarted
    cases hstarted
    exact hkept

/-- A cursor that a call has started stands on an early date only if the call goes on from one. -/
theorem FreshOrKept.panics_of_started (h : r.FreshOrKept c)
    (hcalendar : r.kind.calendar? = some (rule, times))
    (hstarted : c.started rule times now = .ok c₀) (hearly : c₀.IsEarly r.kind.earlyDates) :
    r.Panics c now (.panic .weekStart) := by
  rcases h.fresh_or hcalendar with rfl | hkept
  · obtain ⟨start, hlocal, hstart⟩ := Cursor.exists_start_of_started hstarted
    have hdate := Cursor.early_of_start (RecurrenceKind.failsByRange_rule hcalendar) hstart hearly
    refine .early ?_ hdate
    rw [hlocal]
    rfl
  · rw [hkept.started] at hstarted
    cases hstarted
    obtain ⟨date, hdate, hearly⟩ := hearly
    refine .early ?_ hearly
    rw [Option.mem_def.mp hdate]
    rfl

/-- A fresh cursor does not get started for want of a first date, or because of a panic. -/
theorem fault_of_started (hcalendar : r.kind.calendar? = some (rule, times))
    (hstarted : ({} : Cursor).started rule times now = .error fault) :
    fault.IsRangeError ∨ r.Panics {} now fault := by
  rcases Cursor.started_eq_error_cases hstarted with ⟨rfl, hnow⟩ | ⟨start, hlocal, hstart⟩
  · exact Or.inr (.unread hnow (Or.inr rfl))
  · refine (Cursor.fault_of_start (RecurrenceKind.failsByRange_rule hcalendar) hstart).imp_right ?_
    rintro ⟨rfl, hearly⟩
    refine .early ?_ hearly
    rw [hlocal]
    rfl

theorem FreshOrKept.occurrence (h : r.FreshOrKept c)
    (hoccurrence : r.occurrence clock c now = (result, c')) :
    (∀ fault, result = .error fault → fault.IsRangeError ∨ r.Panics c now fault) ∧
      r.FreshOrKept c' := by
  cases hcalendar : r.kind.calendar? with
  | none =>
    obtain ⟨p, hp⟩ := RecurrenceKind.exists_period_of_calendar?_eq_none hcalendar
    simp only [Recurrence.occurrence, hp] at hoccurrence
    cases hoccurrence
    refine ⟨fun fault hfault => (p.fault_of_nextTime hfault).imp_right ?_, h⟩
    rintro ⟨rfl, hnow⟩
    exact .unread hnow (Or.inl hcalendar)
  | some calendar =>
    obtain ⟨rule, times⟩ := calendar
    rw [occurrence_of_calendar? hcalendar, Cursor.nextOccurrence] at hoccurrence
    cases hstarted : c.started rule times now with
    | error fault =>
      rw [hstarted] at hoccurrence
      cases hoccurrence
      refine ⟨?_, h⟩
      rintro _ ⟨⟩
      rcases h.fresh_or hcalendar with rfl | hkept
      · exact fault_of_started hcalendar hstarted
      · rw [hkept.started] at hstarted
        cases hstarted
    | ok c₀ =>
      rw [hstarted] at hoccurrence
      obtain ⟨hfails, hkept⟩ := (h.kept_of_started hcalendar hstarted).search
        (RecurrenceKind.failsByRange_rule hcalendar) hoccurrence
      refine ⟨fun fault hfault => (hfails fault hfault).imp_right ?_,
        Or.inr ⟨rule, times, hcalendar, hkept⟩⟩
      rintro ⟨rfl, hearly⟩
      exact h.panics_of_started hcalendar hstarted hearly

/-- A moment without a local reading is not read without a panic. -/
theorem occurrence_of_local?_eq_none (hnow : now.local? = none)
    (hreads : r.kind.calendar? = none ∨ c.isFresh = true) :
    (r.occurrence clock c now).1 = .error (.panic .localReading) := by
  cases hcalendar : r.kind.calendar? with
  | none =>
    obtain ⟨p, hp⟩ := RecurrenceKind.exists_period_of_calendar?_eq_none hcalendar
    simp only [Recurrence.occurrence, hp]
    exact p.nextTime_of_local?_eq_none hnow
  | some calendar =>
    have hfresh : c.isFresh = true := hreads.resolve_left (by
      rw [hcalendar]
      exact Option.some_ne_none calendar)
    rw [occurrence_of_calendar? hcalendar, Cursor.nextOccurrence, Cursor.started, if_pos hfresh,
      hnow]

theorem FreshOrKept.resumed (h : r.FreshOrKept state.cursor) :
    r.FreshOrKept (resumed clock state now).cursor := by
  rcases resumed_eq_or clock state now with heq | heq
  · rw [heq]
    exact Or.inl rfl
  · rwa [heq]

/-- A call fails by range or panics, and keeps up what it has started. -/
theorem FreshOrKept.next (h : r.FreshOrKept state.cursor) (clock : LocalClock) (now : Moment) :
    (∀ fault, (r.next clock state now).result = .error fault → fault.IsRangeError ∨
      r.Panics (Recurrence.resumed clock state now).cursor (clock.showing now) fault) ∧
      r.FreshOrKept (r.next clock state now).state.cursor := by
  obtain ⟨result, c, hoccurrence⟩ : ∃ result c,
      r.occurrence clock (Recurrence.resumed clock state now).cursor (clock.showing now) =
        (result, c) := ⟨_, _, rfl⟩
  obtain ⟨hfails, hkept⟩ := h.resumed.occurrence hoccurrence
  cases result with
  | ok m =>
    obtain ⟨hresult, hstate⟩ := next_of_ok hoccurrence
    rw [hresult, hstate]
    exact ⟨fun fault hfault => (nomatch hfault), hkept⟩
  | error fault =>
    obtain ⟨hresult, hstate⟩ := next_of_error hoccurrence
    rw [hresult, hstate]
    refine ⟨?_, hkept⟩
    rintro _ ⟨⟩
    exact hfails fault rfl

theorem Reachable.freshOrKept (h : r.Reachable state) : r.FreshOrKept state.cursor := by
  induction h with
  | fresh => exact Or.inl rfl
  | next clock now _ ih => exact (ih.next clock now).2

/-- Whatever a recurrence has been asked for, its calls return errors for a result out of range
only. They panic only for a moment without a local reading, and always when they read such a moment,
or when a weekly recurrence goes on from a date before the first Sunday of the calendar. The cursor
is left fresh or kept up, and every cursor that the next call steps on, from the started one through
all readings in between, is kept up. -/
theorem fails_by_range_only (r : Recurrence) (requests : List Request) :
    (∀ reply ∈ r.replies requests, ∀ fault, reply.result = .error fault →
      fault.isPanic = false → fault.category = .range) ∧
    (∀ clock now fault,
      (r.next clock (r.stateAfter {} requests) now).result = .error fault →
        fault.IsRangeError ∨ r.Panics (resumed clock (r.stateAfter {} requests) now).cursor
          (clock.showing now) fault) ∧
    (∀ clock now, (clock.showing now).local? = none →
      r.kind.calendar? = none ∨
        (resumed clock (r.stateAfter {} requests) now).cursor.isFresh = true →
      (r.next clock (r.stateAfter {} requests) now).result = .error (.panic .localReading)) ∧
    r.FreshOrKept (r.stateAfter {} requests).cursor ∧
    ∀ clock now rule times c₀ visited c, r.kind.calendar? = some (rule, times) →
      r.startedFrom (resumed clock (r.stateAfter {} requests) now).cursor (clock.showing now) =
        .ok c₀ →
      Cursor.Steps rule c₀ visited c →
        c.Kept times ∧ ∀ fault, (c.advance rule).1 = .error fault →
          fault.IsRangeError ∨ fault = .panic .weekStart ∧ c.IsEarly r.kind.earlyDates := by
  have hreach : r.Reachable (r.stateAfter {} requests) := Reachable.stateAfter .fresh requests
  refine ⟨fun reply hreply fault hfault hreturns => ?_, fun clock now =>
    (hreach.freshOrKept.next clock now).1, fun clock now hnow hreads => ?_, hreach.freshOrKept, ?_⟩
  · obtain ⟨state, hstate, hresult⟩ := Reachable.exists_of_mem_repliesFrom .fresh hreply
    rw [hresult] at hfault
    rcases (hstate.freshOrKept.next reply.clock reply.now).1 fault hfault with hrange | hpanics
    · exact hrange.2
    · cases hpanics <;> cases hreturns
  · obtain ⟨result, c, hoccurrence⟩ : ∃ result c, r.occurrence clock
        (resumed clock (r.stateAfter {} requests) now).cursor (clock.showing now) = (result, c) :=
      ⟨_, _, rfl⟩
    obtain rfl : result = .error (.panic .localReading) :=
      (congrArg Prod.fst hoccurrence).symm.trans (occurrence_of_local?_eq_none hnow hreads)
    exact (next_of_error hoccurrence).1
  · intro clock now rule times c₀ visited c hcalendar hstarted hsteps
    rw [startedFrom_of_calendar? hcalendar] at hstarted
    have hkept := (hreach.freshOrKept.resumed.kept_of_started hcalendar hstarted).steps hsteps
    exact ⟨hkept, fun fault hfault =>
      hkept.fault_of_advance (RecurrenceKind.failsByRange_rule hcalendar) hfault⟩

section Sample

/-- A quarter past eight in the morning and eight in the evening. -/
def twoTimes : TimesOfDay where
  toList := [⟨29700, 0, by decide, TimeOfDay.midnight.nano_lt⟩,
    ⟨72000, 0, by decide, TimeOfDay.midnight.nano_lt⟩]
  ne_nil := by decide
  sorted := by decide

/-- Twice on the Monday of every third week. -/
def mondays : Recurrence where
  kind := .weekly
    { times := twoTimes
      weeks := 3
      weekDays := ⟨2⟩
      weeks_ne_zero := by decide
      proper := rfl }

/-- Three calls around the last day of the calendar, which is a Monday: one before it, and one after
each of its two occurrences. -/
def lastCalls : List Request :=
  [.next .utc calendarEnd, .next .utc (onTheHour 95026236 10 (by decide) (by decide)),
    .next .utc (onTheHour 95026236 21 (by decide) (by decide))]

/-- The third call finds no other Monday. It fails by range, and leaves the cursor kept up with its
queue rotated. -/
theorem fails_by_range_only_mondays :
    (∃ reply ∈ mondays.replies lastCalls, ∃ fault, reply.result = .error fault ∧
      fault.category = .range) ∧
    (mondays.stateAfter {} lastCalls).cursor.Kept twoTimes ∧
    (mondays.stateAfter {} lastCalls).cursor.queue = twoTimes.toList.rotate 1 := by
  obtain ⟨hfaults, -, -, hcursor, -⟩ := fails_by_range_only mondays lastCalls
  have hfailed : ∃ reply ∈ mondays.replies lastCalls,
      reply.result = .error (.dateSum ⟨95026236, by decide⟩ 21) := by
    decide +kernel
  obtain ⟨reply, hreply, hfault⟩ := hfailed
  refine ⟨⟨reply, hreply, _, hfault, hfaults reply hreply _ hfault rfl⟩, ?_, by decide +kernel⟩
  rcases hcursor.fresh_or rfl with hfresh | hkept
  · have hqueue : (mondays.stateAfter {} lastCalls).cursor.queue ≠ [] := by decide +kernel
    exact (hqueue (congrArg Cursor.queue hfresh)).elim
  · exact hkept

/-- Twice on Thursdays and Fridays of every sixth week. -/
def thursdaysAndFridays : Recurrence where
  kind := .weekly
    { times := twoTimes
      weeks := 6
      weekDays := ⟨48⟩
      weeks_ne_zero := by decide
      proper := rfl }

/-- The calendar begins on a Thursday. When its times are over, Friday has not been reached, and the
week of the two dates has no Sunday. -/
example : (thursdaysAndFridays.next .utc {}
    (onTheHour firstDay 21 (by decide) (by decide))).result = .error (.panic .weekStart) := by
  decide +kernel

/-- West of Greenwich the first instant of the calendar has no local reading. -/
example : (thursdaysAndFridays.next dateLineWest {}
    (onTheHour firstDay 0 (by decide) (by decide))).result = .error (.panic .localReading) := by
  decide +kernel

end Sample

end Recurrence

end Almanac
