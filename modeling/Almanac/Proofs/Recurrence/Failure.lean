import Almanac.Proofs.Recurrence.Started

/-!
# What a failed call leaves behind

A call that fails may have started the cursor, stepped it over readings and rotated its times
before the rule had no further date. The cursor is stuck then: every later search fails the way
this one did. A call that would have examined the same readings first therefore answers as if the
failed one had not been made, as long as none of these readings lies after its moment.
-/

namespace Almanac

namespace Recurrence

/-- The cursor that a call steps on, started if it was fresh. A period does without. -/
def startedFrom (r : Recurrence) (cursor : Cursor) (now : Moment) : Except Fault Cursor :=
  match r.kind.calendar? with
  | none => .ok cursor
  | some (rule, times) => cursor.started rule times now

/-- The readings that a call examines in vain. -/
def examined (r : Recurrence) (clock : LocalClock) (state : RecurrenceState) (now : Moment) :
    List Reading :=
  match r.kind.calendar?, r.startedFrom (resumed clock state now).cursor (clock.showing now) with
  | some (rule, _), .ok c =>
    c.passedOver rule r.behavior clock (clock.showing now) Cursor.maxCandidates
  | _, _ => []

/-- A call has left no trace: the remembered occurrence is the same, and every later call has the
same result. -/
def LeavesNoTrace (r : Recurrence) (clock : LocalClock) (state : RecurrenceState) (now : Moment) :
    Prop :=
  (r.next clock state now).state.lastScheduled = state.lastScheduled ∧
    ∀ clock' now', (r.next clock' (r.next clock state now).state now').result =
      (r.next clock' state now').result

variable {r : Recurrence} {clock clock' : LocalClock} {rule : DateRule} {times : TimesOfDay}
  {state state' : RecurrenceState} {now now' m : Moment} {c : Cursor} {fault : Fault}

/-! ## States between calls -/

/-- A failed call of a period only forgets what a discontinuity forgets. -/
theorem state_next_of_calendar?_eq_none (hcalendar : r.kind.calendar? = none)
    (hfail : (r.next clock state now).result = .error fault) :
    (r.next clock state now).state = resumed clock state now := by
  obtain ⟨c, hoccurrence⟩ := occurrence_of_next_error hfail
  have hcursor : (resumed clock state now).cursor = c := by
    rw [← cursor_occurrence_of_calendar?_eq_none (c := (resumed clock state now).cursor)
      hcalendar, hoccurrence]
  subst hcursor
  exact (next_of_error hoccurrence).2

/-! ## After a failure -/

theorem startedFrom_of_calendar? (h : r.kind.calendar? = some (rule, times)) :
    r.startedFrom c now = c.started rule times now := by
  simp only [startedFrom, h]

theorem startedFrom_of_isFresh_eq_false (h : c.isFresh = false) : r.startedFrom c now = .ok c := by
  unfold startedFrom
  cases r.kind.calendar? with
  | none => rfl
  | some calendar => exact Cursor.started_of_isFresh_eq_false h

theorem examined_of_started {c₀ : Cursor} (h : r.kind.calendar? = some (rule, times))
    (hstarted : r.startedFrom (resumed clock state now).cursor (clock.showing now) = .ok c₀) :
    r.examined clock state now =
      c₀.passedOver rule r.behavior clock (clock.showing now) Cursor.maxCandidates := by
  simp only [examined, h, hstarted]

/-- A call that goes on from a started cursor searches from there. -/
theorem occurrence_of_startedFrom {c₀ : Cursor} (h : r.kind.calendar? = some (rule, times))
    (hstarted : r.startedFrom c now = .ok c₀) :
    r.occurrence clock c now =
      c₀.search rule r.behavior clock now Cursor.maxCandidates := by
  rw [startedFrom_of_calendar? h] at hstarted
  rw [occurrence_of_calendar? h, Cursor.nextOccurrence, hstarted]

/-- How a failed call with candidates left has moved the state: not at all, or it has started the
cursor, stepped it over readings and got it stuck. -/
inductive Moved (r : Recurrence) (rule : DateRule) (times : TimesOfDay) (clock : LocalClock)
    (state : RecurrenceState) (now : Moment) (fault : Fault) : Prop
  | unmoved (hexamined : r.examined clock state now = [])
      (hstate : (r.next clock state now).state = resumed clock state now)
  | stuck {c₀ c₁ c' : Cursor}
      (hstarted : r.startedFrom (resumed clock state now).cursor (clock.showing now) = .ok c₀)
      (hsteps : Cursor.Steps rule c₀ (r.examined clock state now) c₁)
      (hstep : c₁.advance rule = (.error fault, c')) (hstuck : Cursor.Stuck rule times fault c')
      (hfresh : r.examined clock state now = [] →
        (resumed clock state now).cursor.isFresh = false)
      (hstate : (r.next clock state now).state =
        { resumed clock state now with cursor := c' })

theorem Reachable.moved (hcalendar : r.kind.calendar? = some (rule, times))
    (hreach : r.Reachable state) (hfail : (r.next clock state now).result = .error fault)
    (hlength : (r.examined clock state now).length < Cursor.maxCandidates) :
    r.Moved rule times clock state now fault := by
  obtain ⟨c', hoccurrence⟩ := occurrence_of_next_error hfail
  have hstate := (next_of_error hoccurrence).2
  obtain ⟨dates, hdates⟩ := RecurrenceKind.exists_dates hcalendar
  have hwalk := fun anchor => (hdates anchor).1
  obtain ⟨anchor, hanchor⟩ := hreach.exists_countsFrom hcalendar hwalk
  have hcounts : Cursor.CountsFrom rule times dates anchor (resumed clock state now).cursor :=
    countsFrom_resumed hanchor
  cases hstarted : r.startedFrom (resumed clock state now).cursor (clock.showing now) with
  | error f =>
    refine .unmoved ?_ ?_
    · simp only [examined, hcalendar, hstarted]
    · rw [startedFrom_of_calendar? hcalendar] at hstarted
      rw [occurrence_of_calendar? hcalendar, Cursor.nextOccurrence, hstarted] at hoccurrence
      cases hoccurrence
      exact hstate
  | ok c₀ =>
    rw [occurrence_of_startedFrom hcalendar hstarted] at hoccurrence
    have hexamined := examined_of_started hcalendar hstarted
    obtain ⟨c₁, left, hsteps, -, hleft, hend⟩ := Cursor.exists_steps_of_search hoccurrence
    rw [← hexamined] at hsteps hleft
    have hstarted' := (startedFrom_of_calendar? hcalendar).symm.trans hstarted
    obtain ⟨a, -, hc₀⟩ := hcounts.started hwalk hstarted'
    cases hend with
    | limit =>
      rw [Nat.add_zero] at hleft
      exact (Nat.ne_of_lt hlength hleft).elim
    | fault hstep =>
      have hc₁ := hc₀.steps (hwalk a) hsteps
      refine .stuck hstarted hsteps hstep (hc₁.stuck_of_advance hstep) ?_ hstate
      -- A cursor that this call has started gets over its first reading.
      intro hnil
      rcases hcounts with hfresh | ⟨b, -, hcursor⟩
      · rw [hnil] at hsteps
        cases hsteps
        rw [startedFrom_of_calendar? hcalendar, hfresh] at hstarted
        obtain ⟨x, c₂, hx⟩ := Cursor.exists_advance_of_started hstarted
        rw [hx] at hstep
        cases hstep
      · exact hcursor.isFresh

/-- Every continuous call with a stuck cursor fails the same way. -/
theorem result_next_of_stuck (hcalendar : r.kind.calendar? = some (rule, times))
    (hstuck : Cursor.Stuck rule times fault state.cursor)
    (hcontinuous : isDiscontinuous state (clock.showing now) = false) :
    (r.next clock state now).result = .error fault := by
  have hstarted : r.startedFrom state.cursor (clock.showing now) = .ok state.cursor :=
    startedFrom_of_isFresh_eq_false hstuck.isFresh
  obtain ⟨n, hn⟩ : ∃ n, Cursor.maxCandidates = n + 1 := ⟨999999, rfl⟩
  obtain ⟨c', hsearch⟩ := hstuck.search r.behavior clock (clock.showing now) n
  refine (next_of_error (c := c') ?_).1
  rw [resumed_of_continuous hcontinuous, occurrence_of_startedFrom hcalendar hstarted, hn]
  exact hsearch

/-- A continuous call that examines some readings first, after which the cursor cannot go on,
fails the same way exactly when none of them lies after its moment. -/
theorem result_next_iff_of_steps {c₀ c₁ c' : Cursor} {visited : List Reading}
    (hcalendar : r.kind.calendar? = some (rule, times))
    (hcontinuous : isDiscontinuous state (clock.showing now) = false)
    (hstarted : r.startedFrom state.cursor (clock.showing now) = .ok c₀)
    (hsteps : Cursor.Steps rule c₀ visited c₁) (hstep : c₁.advance rule = (.error fault, c'))
    (hlength : visited.length < Cursor.maxCandidates) :
    (r.next clock state now).result = .error fault ↔
      NoneAfter clock r.behavior (clock.showing now) visited := by
  have hoccurrence : r.occurrence clock (resumed clock state now).cursor (clock.showing now) =
      c₀.search rule r.behavior clock (clock.showing now) Cursor.maxCandidates := by
    rw [resumed_of_continuous hcontinuous]
    exact occurrence_of_startedFrom hcalendar hstarted
  constructor
  · intro hfail
    by_contra hafter
    obtain ⟨m, c₂, hsearch⟩ :=
      hsteps.exists_search_of_not_noneAfter hafter (Nat.le_of_lt hlength)
    rw [(next_of_ok (hoccurrence.trans hsearch)).1] at hfail
    cases hfail
  · intro hnone
    obtain ⟨left, hleft⟩ : ∃ left, Cursor.maxCandidates = visited.length + (left + 1) :=
      ⟨Cursor.maxCandidates - visited.length - 1, by omega⟩
    refine (next_of_error (c := c') ?_).1
    rw [hoccurrence, hleft, hsteps.search_of_noneAfter hnone]
    exact Cursor.search_of_fault hstep

/-- A failed call keeps the occurrence of the state that it went on from. A later call answers as
if the failed one had not been made: when it is discontinuous, when the failed call examined
nothing in vain, and when it would examine the same readings first without finding one of them
after its moment. -/
theorem next_after_failure (hreach : r.Reachable state)
    (hfail : (r.next clock state now).result = .error fault) :
    (r.next clock state now).state.lastScheduled = (resumed clock state now).lastScheduled ∧
      ∀ clock' now',
        (isDiscontinuous (resumed clock state now) (clock'.showing now') = true ∨
          r.examined clock state now = [] ∨
          r.startedFrom (resumed clock state now).cursor (clock'.showing now') =
              r.startedFrom (resumed clock state now).cursor (clock.showing now) ∧
            (r.examined clock state now).length < Cursor.maxCandidates ∧
            NoneAfter clock' r.behavior (clock'.showing now') (r.examined clock state now)) →
        (r.next clock' (r.next clock state now).state now').result =
          (r.next clock' (resumed clock state now) now').result := by
  obtain ⟨c', hoccurrence⟩ := occurrence_of_next_error hfail
  have hlast : (r.next clock state now).state.lastScheduled =
      (resumed clock state now).lastScheduled := by
    rw [(next_of_error hoccurrence).2]
  refine ⟨hlast, fun clock' now' hlater => ?_⟩
  cases hcontinuous : isDiscontinuous (resumed clock state now) (clock'.showing now') with
  | true => exact (result_next_of_discontinuous hlast.symm hcontinuous).symm
  | false =>
    cases hcalendar : r.kind.calendar? with
    | none =>
      rw [state_next_of_calendar?_eq_none hcalendar hfail]
    | some calendar =>
      obtain ⟨rule, times⟩ := calendar
      have hlength : (r.examined clock state now).length < Cursor.maxCandidates := by
        rcases hlater with hbroken | hnil | ⟨-, hlength, -⟩
        · rw [hcontinuous] at hbroken
          cases hbroken
        · rw [hnil]
          exact Nat.succ_pos _
        · exact hlength
      cases hreach.moved hcalendar hfail hlength with
      | unmoved hexamined hstate => rw [hstate]
      | @stuck c₀ c₁ c' hstarted hsteps hstep hstuck hfresh hstate =>
        have hafter : (r.next clock' (r.next clock state now).state now').result =
            .error fault := by
          apply result_next_of_stuck hcalendar
          · rw [hstate]
            exact hstuck
          · unfold isDiscontinuous at hcontinuous ⊢
            rw [hlast]
            exact hcontinuous
        obtain ⟨hstarted', hnone⟩ :
            r.startedFrom (resumed clock state now).cursor (clock'.showing now') = .ok c₀ ∧
              NoneAfter clock' r.behavior (clock'.showing now')
                (r.examined clock state now) := by
          rcases hlater with hbroken | hnil | ⟨hsame, -, hnone⟩
          · rw [hcontinuous] at hbroken
            cases hbroken
          · rw [startedFrom_of_isFresh_eq_false (hfresh hnil)] at hstarted ⊢
            rw [hnil]
            exact ⟨hstarted, noneAfter_nil⟩
          · rw [hsame]
            exact ⟨hstarted, hnone⟩
        rw [hafter]
        exact ((result_next_iff_of_steps hcalendar hcontinuous hstarted' hsteps hstep
          hlength).mpr hnone).symm

section Sample

/-- Every so many days at 08:00. -/
def eachMorning (days : UInt32) (h : (DailySelection.everyDays days).fault? = none) :
    Recurrence where
  kind := .daily
    { times := ⟨[⟨28800, 0, by decide, TimeOfDay.midnight.nano_lt⟩], by decide, by decide⟩
      selection := .everyDays days
      proper := h }

/-- An instant on the hour of a day, counted from the first of January 1970. -/
def onTheHour (day : Int) (hour : Nat) (hday : firstDay ≤ day ∧ day ≤ lastDay)
    (hhour : hour < 24) : Moment :=
  ⟨⟨⟨day, hday⟩, ⟨hour * 3600, 0, by omega, TimeOfDay.midnight.nano_lt⟩⟩, 0⟩

/-- The morning of 1 June 2026. -/
def june : Moment := onTheHour 20605 7 (by decide) (by decide)

/-- The start of the day after. -/
def nextMidnight : Moment := onTheHour 20606 0 (by decide) (by decide)

/-- The evening of the last day but one of the calendar. -/
def calendarEnd : Moment := onTheHour 95026235 23 (by decide) (by decide)

/-- Every ten million days: the calendar holds a few of them. -/
def rare : Recurrence := eachMorning 10000000 rfl

/-- The state after the first occurrence, on 1 June. -/
def afterJune (r : Recurrence) : RecurrenceState := (r.next .utc {} june).state

/-- A call at the end of the calendar fails, and its repetition fails the same way. -/
theorem next_after_failure_rare :
    rare.Reachable (afterJune rare) ∧
      (rare.next .utc (afterJune rare) calendarEnd).result =
        .error (.dateSum ⟨90020605, by decide⟩ 10000000) ∧
      (rare.next .utc (afterJune rare) calendarEnd).state.lastScheduled =
        (afterJune rare).lastScheduled ∧
      (rare.next .utc (rare.next .utc (afterJune rare) calendarEnd).state calendarEnd).result =
        (rare.next .utc (afterJune rare) calendarEnd).result := by
  have hreach : rare.Reachable (afterJune rare) := .next .utc june .fresh
  have hfail : (rare.next .utc (afterJune rare) calendarEnd).result =
      .error (.dateSum ⟨90020605, by decide⟩ 10000000) := by
    decide +kernel
  have hresumed : resumed .utc (afterJune rare) calendarEnd = afterJune rare :=
    resumed_of_continuous (by decide +kernel)
  obtain ⟨hlast, hlater⟩ := next_after_failure hreach hfail
  have hagain := hlater .utc calendarEnd
    (Or.inr (Or.inr ⟨rfl, by decide +kernel, by decide +kernel⟩))
  rw [hresumed] at hlast hagain
  exact ⟨hreach, hfail, hlast, hagain⟩

/-- The morning of 31 May 2026. -/
def may : Moment := onTheHour 20604 9 (by decide) (by decide)

/-- Every 4294967295 days: no two of them are in the calendar. -/
def once : Recurrence := eachMorning 4294967295 rfl

/-- A failed call before the occurrence given last forgets it, and one after readings that it
passes over hides them from later calls. -/
theorem not_leavesNoTrace :
    (once.Reachable (afterJune once) ∧
      (once.next .utc (afterJune once) may).result =
        .error (.dateSum ⟨20604, by decide⟩ 4294967295) ∧
      ¬once.LeavesNoTrace .utc (afterJune once) may) ∧
    rare.Reachable (afterJune rare) ∧
      (rare.next .utc (afterJune rare) calendarEnd).result =
        .error (.dateSum ⟨90020605, by decide⟩ 10000000) ∧
      ¬rare.LeavesNoTrace .utc (afterJune rare) calendarEnd := by
  refine ⟨⟨.next .utc june .fresh, by decide +kernel, ?_⟩,
    .next .utc june .fresh, by decide +kernel, ?_⟩
  · intro hboth
    obtain ⟨hlast, -⟩ := hboth
    exact absurd hlast (by decide +kernel)
  · intro hboth
    obtain ⟨-, hlater⟩ := hboth
    exact absurd (hlater .utc nextMidnight) (by decide +kernel)

end Sample

end Recurrence

end Almanac
