import Almanac.Proofs.Recurrence.Checked
import Almanac.Proofs.Recurrence.Clearing

/-!
# Calls in machine integers

A period may have as many milliseconds as 64 bits hold, and rounding up the distance to the end of
a gap to whole periods adds the one to the other. The sum fits nevertheless: a gap is only cleared
when one period leads to a reading in it, so that both the period and the distance are at most as
long as the calendar. The number of periods that is tried first then clears the gap. With what is
known of calendar recurrences, every call gives the same answer in machine integers as in integers
of any size.
-/

namespace Almanac

open Checked

namespace Period

variable {p : Period} {behavior : Behavior} {clock : LocalClock} {now : Moment}
  {start candidate stop : Reading} {gap : Interval Reading} {bound : Nat}

/-! ## Evaluation -/

/-- The steps that clear a gap. The loop stops without a result when it would take more passes
than it is given. -/
def clearFromChecked (p : Period) (gap : Interval Reading) (start : Reading) :
    Nat → Int → Reading → Checked Reading
  | 0, _, candidate => if gap.contains candidate then ExceptT.mk none else return candidate
  | passes + 1, steps, candidate =>
    if gap.contains candidate then
      match (Duration.ofMilliseconds? (steps * p.milliseconds)).bind start.add? with
      | some next => do
        let following ← integer (steps + 1)
        clearFromChecked p gap start passes following next
      | none => throw (.periodSteps start steps)
    else return candidate

def clearGapChecked (p : Period) (passes : Nat) (clock : LocalClock) (start candidate : Reading) :
    Checked Reading := do
  match ← clock.gapChecked candidate with
  | none => return candidate
  | some (_, gap) =>
    match gap.upper.value? with
    | none => return candidate
    | some stop =>
      let distance ← integer (stop.since start).milliseconds
      let sum ← integer (distance + p.milliseconds)
      let rounded ← integer (sum - 1)
      let steps ← integer (rounded.tdiv p.milliseconds)
      p.clearFromChecked gap start passes steps candidate

/-- The instant of the reading one period later. Only a skipped reading needs integers. -/
def resolutionChecked (p : Period) (passes : Nat) (behavior : Behavior) (clock : LocalClock)
    (now : Moment) (start candidate : Reading) : Checked (Option Moment) :=
  if clock.isSkipped candidate then
    match behavior.skipped with
    | .shift => liftM (clock.shiftSkippedChecked candidate)
    | .skip => do
      let cleared ← p.clearGapChecked passes clock start candidate
      return clock.resolve? cleared behavior.repeated
  else ofResult (p.resolution behavior clock now start candidate)

def nextTimeChecked (p : Period) (passes : Nat) (behavior : Behavior) (clock : LocalClock)
    (now : Moment) : Checked Moment := do
  let some start := now.local? | throw (.panic .localReading)
  let some candidate := start.add? p.duration | throw (.momentSum now p.duration)
  match ← p.resolutionChecked passes behavior clock now start candidate with
  | some next => if now < next then return next else ofResult (p.elapsed clock now)
  | none => ofResult (p.elapsed clock now)

/-! ## The sums -/

section HoldsUntil

variable (hstart : start.IsOrdinary) (hcandidate : p.multiple? start 1 = some candidate)
  (hholds : HoldsUntil gap candidate stop)

include hstart hcandidate hholds

/-- A period that leads into a gap is shorter than the distance to the end of the gap, and this
distance is at most the length of the calendar. -/
theorem milliseconds_since_mem :
    p.milliseconds < (stop.since start).milliseconds ∧
      (stop.since start).milliseconds ≤ 16544868105600000 := by
  obtain ⟨hless, hdistance⟩ := milliseconds_since hstart hcandidate hholds
  have hfirst := start.inCalendar
  have hlast := stop.inCalendar
  rw [← hstart.nanos_div] at hfirst
  rw [← hholds.isOrdinary.nanos_div] at hlast
  unfold InCalendar firstDay lastDay at hfirst hlast
  omega

/-- No more periods are tried than there are milliseconds in the sum that is divided. -/
theorem stepsTo_mem :
    0 ≤ p.stepsTo start stop ∧ p.stepsTo start stop ≤ 33089736211200000 := by
  obtain ⟨hless, hmost⟩ := milliseconds_since_mem hstart hcandidate hholds
  have hpos := p.pos
  have hnonneg : 0 ≤ (stop.since start).milliseconds + p.milliseconds - 1 := by omega
  have hself := Int.ediv_le_self p.milliseconds hnonneg
  have hquotient := Int.ediv_nonneg hnonneg hpos.le
  rw [stepsTo, Int.tdiv_eq_ediv_of_nonneg hnonneg]
  omega

/-- One pass of the loop leads beyond the gap. -/
theorem yields_clearFrom :
    Yields (p.clearFromChecked gap start 1 (p.stepsTo start stop) candidate)
      (p.clearFrom gap start (bound + 2) (p.stepsTo start stop) candidate) := by
  have hinside : gap.contains candidate = true :=
    (hholds.contains_iff candidate le_rfl).mpr hholds.lt
  have hbeyond : ∀ x, p.multiple? start (p.stepsTo start stop) = some x →
      ¬gap.contains x = true := fun x hx => not_contains_of_stepsTo hstart hcandidate hholds hx
  have hsteps := stepsTo_mem hstart hcandidate hholds
  rw [clearFrom_eq hstart hinside hbeyond]
  unfold clearFromChecked
  rw [if_pos hinside, bind_ofMilliseconds? hstart]
  cases hmultiple : p.multiple? start (p.stepsTo start stop) with
  | none => exact yields_throw _
  | some x =>
    refine Yields.bind_liftM (integer_eq (by omega)) ?_
    unfold clearFromChecked
    rw [if_neg (hbeyond x hmultiple)]
    exact yields_pure x

end HoldsUntil

/-! ## One call -/

section Call

variable (hday : clock.zone.HasDayOffsets)

include hday

theorem yields_clearGap (hstart : start.IsOrdinary)
    (hcandidate : p.multiple? start 1 = some candidate) :
    Yields (p.clearGapChecked 1 clock start candidate) (p.clearGap clock start candidate) := by
  obtain ⟨hordinary, -⟩ := isOrdinary_multiple? hstart hcandidate
  refine Yields.bind_liftM (clock.gapChecked_eq candidate) ?_
  unfold clearGap
  cases hfound : clock.gap? candidate with
  | none => exact yields_pure candidate
  | some found =>
    obtain ⟨t, gap⟩ := found
    obtain ⟨stop, hholds⟩ := LocalClock.exists_holdsUntil hday hordinary hfound
    -- The candidate and the end of the gap lie in the calendar, which bounds both summands.
    obtain ⟨hless, hmost⟩ := milliseconds_since_mem hstart hcandidate hholds
    have hsteps := stepsTo_mem hstart hcandidate hholds
    have hpos := p.pos
    dsimp only
    rw [hholds.upper_eq]
    refine Yields.bind_liftM (integer_eq (by omega)) (Yields.bind_liftM (integer_eq (by omega))
      (Yields.bind_liftM (integer_eq (by omega)) (Yields.bind_liftM (integer_eq ?_)
        (yields_clearFrom hstart hcandidate hholds))))
    rw [← stepsTo]
    omega

theorem yields_resolution (hstart : start.IsOrdinary)
    (hcandidate : p.multiple? start 1 = some candidate) :
    Yields (p.resolutionChecked 1 behavior clock now start candidate)
      (p.resolution behavior clock now start candidate) := by
  unfold resolutionChecked
  split
  · next hskipped =>
    unfold resolution
    rw [if_pos hskipped]
    cases behavior.skipped with
    | shift =>
      dsimp only
      rw [clock.shiftSkippedChecked_eq]
      exact yields_pure _
    | skip => exact (yields_clearGap hday hstart hcandidate).map _
  · exact yields_ofResult _

theorem yields_nextTime (hnow : now.utc.IsOrdinary) :
    Yields (p.nextTimeChecked 1 behavior clock now) (p.nextTime behavior clock now) := by
  cases hstart : now.local? with
  | none =>
    simp only [nextTimeChecked, nextTime, hstart]
    exact yields_throw _
  | some start =>
    cases hcandidate : start.add? p.duration with
    | none =>
      simp only [nextTimeChecked, nextTime, hstart, hcandidate]
      exact yields_throw _
    | some candidate =>
      rw [nextTime_eq hstart hcandidate]
      simp only [nextTimeChecked, hstart, hcandidate]
      rw [← multiple?_one] at hcandidate
      refine (yields_resolution hday (Moment.isOrdinary_of_local? hnow hstart) hcandidate).bind
        fun resolved => ?_
      cases resolved with
      | none => exact yields_ofResult _
      | some next =>
        dsimp only
        split
        · exact yields_pure next
        · exact yields_ofResult _

end Call

end Period

namespace Recurrence

variable {clock : LocalClock} {now : Moment}

def occurrenceChecked (r : Recurrence) (passes : Nat) (clock : LocalClock) (cursor : Cursor)
    (now : Moment) : Option (Except Fault Moment × Cursor) :=
  match r.kind with
  | .period p => (p.nextTimeChecked passes r.behavior clock now).run.map (·, cursor)
  | .daily d => cursor.nextOccurrenceChecked d.ruleChecked d.times r.behavior clock now
  | .weekly w => cursor.nextOccurrenceChecked w.ruleChecked w.times r.behavior clock now
  | .monthly m => cursor.nextOccurrenceChecked m.ruleChecked m.times r.behavior clock now

/-- The next occurrence after the present moment, in machine integers and with at most `passes`
passes of the loop that clears a gap. -/
def nextChecked (r : Recurrence) (passes : Nat) (clock : LocalClock) (state : RecurrenceState)
    (now : Moment) : Option (Answer (Except Fault Schedule)) := do
  let now := clock.showing now
  let broken := isDiscontinuous state now
  let state := if broken then {} else state
  let resets := if broken then 1 else 0
  match ← r.occurrenceChecked passes clock state.cursor now with
  | (.ok m, cursor) => return ⟨.ok (Schedule.ofMoment m now), ⟨some m, cursor⟩, resets⟩
  | (.error fault, cursor) => return ⟨.error fault, { state with cursor }, resets⟩

theorem occurrenceChecked_eq (r : Recurrence) (hday : clock.zone.HasDayOffsets) (cursor : Cursor)
    (hnow : now.utc.IsOrdinary) :
    r.occurrenceChecked 1 clock cursor now = some (r.occurrence clock cursor now) := by
  obtain ⟨name, behavior, kind⟩ := r
  cases kind with
  | period p =>
    unfold occurrenceChecked occurrence
    dsimp only
    rw [Period.yields_nextTime hday hnow]
    rfl
  | daily d => exact Cursor.nextOccurrenceChecked_eq d.agrees _ _ _ _ _
  | weekly w => exact Cursor.nextOccurrenceChecked_eq w.agrees _ _ _ _ _
  | monthly m => exact Cursor.nextOccurrenceChecked_eq m.agrees _ _ _ _ _

/-- Where offsets are less than a day, and at any moment outside a leap second, a call gives the
same answer in machine integers as in integers of any size, from any state of any recurrence. So no
integer leaves its 64 bits and no number of days the range of durations, and the loop that clears a
gap takes one pass at most. -/
theorem nextChecked_eq_next (r : Recurrence) (hday : clock.zone.HasDayOffsets)
    (state : RecurrenceState) (hnow : now.utc.IsOrdinary) :
    r.nextChecked 1 clock state now = some (r.next clock state now) := by
  have hshown : (clock.showing now).utc.IsOrdinary := hnow
  unfold nextChecked next
  dsimp only
  rw [occurrenceChecked_eq r hday _ hshown]
  generalize r.occurrence clock _ _ = answer
  obtain ⟨result, cursor⟩ := answer
  cases result <;> rfl

section Sample

/-- Every forty minutes, where skipped readings are dropped. -/
def fortyMinutesDropping : Recurrence where
  behavior := { skipped := .skip }
  kind := .period .fortyMinutes

/-- Forty minutes after half past one is a reading that clocks skip. The loop has to take its one
pass: with none there is no answer. -/
theorem nextChecked_eq_next_newYork :
    newYork.zone.HasDayOffsets ∧ (springForward 23400 (-18000) (by decide)).utc.IsOrdinary ∧
      (fortyMinutesDropping.nextChecked 0 newYork {}
        (springForward 23400 (-18000) (by decide))).isNone = true ∧
      fortyMinutesDropping.nextChecked 1 newYork {} (springForward 23400 (-18000) (by decide)) =
        some (fortyMinutesDropping.next newYork {} (springForward 23400 (-18000) (by decide))) :=
  ⟨hasDayOffsets_newYork, by decide, by decide +kernel,
    nextChecked_eq_next fortyMinutesDropping hasDayOffsets_newYork {} (by decide)⟩

end Sample

end Recurrence

end Almanac
