import Almanac.Proofs.Recurrence.Months
import Almanac.Proofs.Recurrence.Walk
import Almanac.Recurrence.Basic

/-!
# A single call

What a recurrence answers to one call depends on its kind only through the cursor: a period
computes its occurrence and leaves the cursor alone, and every calendar recurrence searches with
its rule and its times of day. A call goes on from the state before it, or from a fresh one when
the sequence is discontinuous.
-/

namespace Almanac

namespace RecurrenceKind

/-- The readings of a recurrence, counted from the date of its start. A period has none. -/
def readings (kind : RecurrenceKind) (anchor : Date) : Set Reading :=
  match kind with
  | period _ => ∅
  | daily d => Almanac.readings (d.selection.dates anchor) d.times
  | weekly w => Almanac.readings (w.dates anchor) w.times
  | monthly m => Almanac.readings (m.dates anchor) m.times

/-- The rule and the times of day that the cursor of a recurrence goes by. A period needs no
cursor. -/
def calendar? : RecurrenceKind → Option (DateRule × TimesOfDay)
  | period _ => none
  | daily d => some (d.rule, d.times)
  | weekly w => some (w.rule, w.times)
  | monthly m => some (m.rule, m.times)

variable {kind : RecurrenceKind} {rule : DateRule} {times : TimesOfDay}

/-- The cursor of a recurrence walks through the dates of its readings. -/
theorem exists_dates (h : kind.calendar? = some (rule, times)) :
    ∃ dates : Date → Set Date, ∀ anchor, rule.WalksThrough anchor (dates anchor) ∧
      kind.readings anchor = Almanac.readings (dates anchor) times := by
  cases kind with
  | period p => cases h
  | daily d =>
    cases h
    exact ⟨d.selection.dates, fun anchor => ⟨d.walksThrough anchor, rfl⟩⟩
  | weekly w =>
    cases h
    exact ⟨w.dates, fun anchor => ⟨w.walksThrough anchor, rfl⟩⟩
  | monthly m =>
    cases h
    exact ⟨m.dates, fun anchor => ⟨m.walksThrough anchor, rfl⟩⟩

theorem exists_period_of_calendar?_eq_none (h : kind.calendar? = none) :
    ∃ p, kind = .period p := by
  cases kind with
  | period p => exact ⟨p, rfl⟩
  | daily d => cases h
  | weekly w => cases h
  | monthly m => cases h

theorem readings_of_calendar?_eq_none (h : kind.calendar? = none) (anchor : Date) :
    kind.readings anchor = ∅ := by
  obtain ⟨p, rfl⟩ := exists_period_of_calendar?_eq_none h
  rfl

end RecurrenceKind

namespace Recurrence

variable {r : Recurrence} {clock : LocalClock} {rule : DateRule} {times : TimesOfDay}
  {state state' : RecurrenceState} {now m : Moment} {c : Cursor} {fault : Fault}

/-- A recurrence with a cursor searches for its occurrences. -/
theorem occurrence_of_calendar? (h : r.kind.calendar? = some (rule, times)) :
    r.occurrence clock c now = c.nextOccurrence rule times r.behavior clock now := by
  obtain ⟨name, behavior, kind⟩ := r
  cases kind with
  | period p => cases h
  | daily d => cases h; rfl
  | weekly w => cases h; rfl
  | monthly m => cases h; rfl

/-- A period leaves the cursor alone. -/
theorem cursor_occurrence_of_calendar?_eq_none (h : r.kind.calendar? = none) :
    (r.occurrence clock c now).2 = c := by
  obtain ⟨p, hp⟩ := RecurrenceKind.exists_period_of_calendar?_eq_none h
  simp only [occurrence, hp]

/-! ## Result and state -/

/-- The state that a call goes on from: a fresh one when the sequence is discontinuous. -/
def resumed (clock : LocalClock) (state : RecurrenceState) (now : Moment) : RecurrenceState :=
  if isDiscontinuous state (clock.showing now) then {} else state

theorem resumed_of_continuous (h : isDiscontinuous state (clock.showing now) = false) :
    resumed clock state now = state := by
  unfold resumed
  rw [h]
  rfl

theorem resumed_eq_or (clock : LocalClock) (state : RecurrenceState) (now : Moment) :
    resumed clock state now = {} ∨ resumed clock state now = state := by
  unfold resumed
  split
  · exact Or.inl rfl
  · exact Or.inr rfl

/-- The moment of the occurrence given last is not before it. -/
theorem isDiscontinuous_showing_self (clock : LocalClock) (m : Moment) (c : Cursor) :
    isDiscontinuous ⟨some m, c⟩ (clock.showing m) = false := by
  refine decide_eq_false fun hlt => ?_
  have hself : m.utc < m.utc := hlt
  exact lt_irrefl _ hself

theorem next_of_ok
    (h : r.occurrence clock (resumed clock state now).cursor (clock.showing now) = (.ok m, c)) :
    (r.next clock state now).result = .ok (Schedule.ofMoment m (clock.showing now)) ∧
      (r.next clock state now).state = ⟨some m, c⟩ := by
  unfold resumed at h
  simp only [next, h, and_self]

theorem next_of_error
    (h : r.occurrence clock (resumed clock state now).cursor (clock.showing now) =
      (.error fault, c)) :
    (r.next clock state now).result = .error fault ∧
      (r.next clock state now).state = { resumed clock state now with cursor := c } := by
  unfold resumed at h
  simp only [next, h, resumed, and_self]

/-- A call fails only when it finds no occurrence. -/
theorem occurrence_of_next_error (h : (r.next clock state now).result = .error fault) :
    ∃ c, r.occurrence clock (resumed clock state now).cursor (clock.showing now) =
      (.error fault, c) := by
  obtain ⟨result, c, hoccurrence⟩ : ∃ result c,
      r.occurrence clock (resumed clock state now).cursor (clock.showing now) = (result, c) :=
    ⟨_, _, rfl⟩
  cases result with
  | ok m =>
    rw [(next_of_ok hoccurrence).1] at h
    cases h
  | error f =>
    rw [(next_of_error hoccurrence).1] at h
    cases h
    exact ⟨c, hoccurrence⟩

/-- A call succeeds only with the occurrence that it finds. -/
theorem occurrence_of_next_ok {s : Schedule} (h : (r.next clock state now).result = .ok s) :
    ∃ m c, r.occurrence clock (resumed clock state now).cursor (clock.showing now) = (.ok m, c) ∧
      s = Schedule.ofMoment m (clock.showing now) ∧
      (r.next clock state now).state = ⟨some m, c⟩ := by
  obtain ⟨result, c, hoccurrence⟩ : ∃ result c,
      r.occurrence clock (resumed clock state now).cursor (clock.showing now) = (result, c) :=
    ⟨_, _, rfl⟩
  cases result with
  | ok m =>
    obtain ⟨hresult, hstate⟩ := next_of_ok hoccurrence
    rw [hresult] at h
    cases h
    exact ⟨m, c, hoccurrence, rfl, hstate⟩
  | error fault =>
    rw [(next_of_error hoccurrence).1] at h
    cases h

/-- A call moves the cursor as its search does. -/
theorem cursor_next (r : Recurrence) (clock : LocalClock) (state : RecurrenceState)
    (now : Moment) :
    (r.next clock state now).state.cursor =
      (r.occurrence clock (resumed clock state now).cursor (clock.showing now)).2 := by
  obtain ⟨result, c, hoccurrence⟩ : ∃ result c,
      r.occurrence clock (resumed clock state now).cursor (clock.showing now) = (result, c) :=
    ⟨_, _, rfl⟩
  rw [hoccurrence]
  cases result with
  | ok m => rw [(next_of_ok hoccurrence).2]
  | error fault => rw [(next_of_error hoccurrence).2]

/-- A discontinuous call only depends on that it is one. -/
theorem result_next_of_discontinuous (hlast : state.lastScheduled = state'.lastScheduled)
    (h : isDiscontinuous state (clock.showing now) = true) :
    (r.next clock state now).result = (r.next clock state' now).result := by
  have h' : isDiscontinuous state' (clock.showing now) = true := by
    unfold isDiscontinuous at h ⊢
    rw [← hlast]
    exact h
  simp only [next, h, h', if_true]

/-- The states of a recurrence between calls, in any clocks and at any moments. A reset makes the
state fresh again. -/
inductive Reachable (r : Recurrence) : RecurrenceState → Prop
  | fresh : Reachable r {}
  | next {state : RecurrenceState} (clock : LocalClock) (now : Moment) (h : Reachable r state) :
      Reachable r (r.next clock state now).state

end Recurrence

end Almanac
