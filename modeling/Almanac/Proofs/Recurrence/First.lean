import Almanac.Proofs.Recurrence.History
import Almanac.Proofs.Zone.Passing

/-!
# The first reading with an instant to come

A fresh recurrence starts its cursor at the local reading of the present and goes on from there. It
takes the first reading after the start whose instant lies after the present: the readings in
between are dropped or mean instants that have passed. Only a reading that is left behind at the
start or overtaken by the first one can mean an earlier instant after the present.
-/

namespace Almanac

/-- The first reading of a set after a start whose instant lies after the present, with its
instant. -/
structure FirstAfter (set : Set Reading) (clock : LocalClock) (behavior : Behavior) (now : Moment)
    (start x : Reading) (m : Moment) : Prop where
  mem : x ∈ set
  start_lt : start < x
  candidate?_eq : clock.candidate? behavior x = some m
  now_lt : now < m
  not_lt_of_between : ∀ y ∈ set, start < y → y < x → ∀ m', clock.candidate? behavior y = some m' →
    ¬now < m'

/-- In a smaller set that keeps the readings after the start, the first one is the same. -/
theorem FirstAfter.of_subset {set set' : Set Reading} {clock : LocalClock} {behavior : Behavior}
    {now m : Moment} {start x : Reading} (h : FirstAfter set clock behavior now start x m)
    (hsubset : set ⊆ set') (hafter : ∀ y ∈ set', start < y → y ∈ set) :
    FirstAfter set' clock behavior now start x m :=
  ⟨hsubset h.mem, h.start_lt, h.candidate?_eq, h.now_lt,
    fun y hy hlt => h.not_lt_of_between y (hafter y hy hlt) hlt⟩

/-- In a spaced zone, an instant after the present that comes before the one of the first reading
belongs to a reading that is left behind or overtaken. -/
theorem FirstAfter.leftBehind_or_overtaken {set : Set Reading} {clock : LocalClock}
    {behavior : Behavior} {now m m' : Moment} {start x y : Reading} (hspaced : clock.zone.Spaced)
    (hday : clock.zone.HasDayOffsets) (hnow : clock.showing now = now)
    (hstart : now.local? = some start) (h : FirstAfter set clock behavior now start x m)
    (hy : y ∈ set) (hm' : clock.candidate? behavior y = some m') (hlt : now < m')
    (hback : m' < m) : clock.LeftBehind behavior start y ∨ clock.Overtaken behavior x y := by
  by_cases hle : y ≤ start
  · exact Or.inl
      (LocalClock.leftBehind_of_candidate? hspaced hday hnow hstart hm' hle hlt)
  · rcases lt_trichotomy x y with hafter | rfl | hbefore
    · exact Or.inr
        (LocalClock.overtaken_of_candidate? hspaced hday h.candidate?_eq hm' hafter hback)
    · rw [h.candidate?_eq, Option.some.injEq] at hm'
      subst hm'
      exact (lt_irrefl _ hback).elim
    · exact (h.not_lt_of_between y hy (not_le.mp hle) hbefore m' hm' hlt).elim

/-- A search goes to the first reading after the one that its cursor has passed, and leaves the
cursor there. -/
theorem Cursor.Passed.exists_firstAfter {rule : DateRule} {anchor : Date} {dates : Set Date}
    {times : TimesOfDay} {behavior : Behavior} {clock : LocalClock} {now m : Moment} {bound : Nat}
    {p : Reading} {c c' : Cursor} (hwalk : rule.WalksThrough anchor dates)
    (h : Passed dates times p c)
    (hsearch : search rule behavior clock now bound c = (.ok m, c')) :
    ∃ x, FirstAfter (readings dates times) clock behavior now p x m ∧
      Passed dates times x c' ∧ c'.StandsOn x := by
  obtain ⟨c₁, left, hsteps, hnone, -, hend⟩ := exists_steps_of_search hsearch
  obtain ⟨q, htraverses, hpassed⟩ := h.steps hwalk hsteps
  cases hend with
  | @found left x _ _ hstep hm hlt =>
    obtain ⟨⟨⟨hx, hqx⟩, hleast⟩, hpassed'⟩ := hpassed.advance hwalk hstep
    refine ⟨x, ⟨hx, htraverses.le.trans_lt hqx, hm, hlt, fun y hy hpy hyx => ?_⟩, hpassed',
      standsOn_of_advance hstep⟩
    have hyq : y ≤ q := by
      by_contra hqy
      exact not_le_of_gt hyx (hleast ⟨hy, not_le.mp hqy⟩)
    exact hnone y (htraverses.mem_iff.mpr ⟨hy, hpy, hyq⟩)

namespace RecurrenceKind

variable {kind : RecurrenceKind} {rule : DateRule} {times : TimesOfDay} {a : Date}

/-- The readings of a phase-free recurrence are the qualifying ones from the date of its start
on. -/
theorem readings_of_phaseFree (h : kind.PhaseFree) (hcalendar : kind.calendar? = some (rule, times))
    (a : Date) : kind.readings a = Almanac.readings {e ∈ kind.qualifying | a ≤ e} times := by
  cases kind with
  | period p => cases hcalendar
  | daily d =>
    cases hcalendar
    exact congrArg (Almanac.readings · _) (DailySelection.dates_of_phaseFree h a)
  | weekly w =>
    cases hcalendar
    exact congrArg (Almanac.readings · _) (Weekly.dates_of_weeks_eq_one h a)
  | monthly m =>
    cases hcalendar
    exact congrArg (Almanac.readings · _) (Set.ext fun e => and_comm)

end RecurrenceKind

/-- For a phase-free recurrence the first reading from the date of the start on is the first one of
all qualifying readings. -/
theorem FirstAfter.of_phaseFree {kind : RecurrenceKind} {rule : DateRule} {times : TimesOfDay}
    {clock : LocalClock} {behavior : Behavior} {now m : Moment} {start x : Reading}
    (hfree : kind.PhaseFree) (hcalendar : kind.calendar? = some (rule, times))
    (h : FirstAfter (kind.readings start.date) clock behavior now start x m) :
    FirstAfter (readings kind.qualifying times) clock behavior now start x m := by
  rw [RecurrenceKind.readings_of_phaseFree hfree hcalendar] at h
  refine h.of_subset (fun y hy => ⟨hy.1.1, hy.2⟩) fun y hy hlt => ?_
  exact ⟨⟨hy.1, Reading.date_le_of_lt hlt⟩, hy.2⟩

namespace Recurrence

variable {r : Recurrence} {clock : LocalClock} {rule : DateRule} {times : TimesOfDay}
  {now : Moment} {s : Schedule}

/-- A fresh recurrence finds the instant of the first of its readings after the local reading of
the present. -/
theorem exists_firstAfter_of_next (hcalendar : r.kind.calendar? = some (rule, times))
    (hok : (r.next clock {} now).result = .ok s) :
    ∃ start x, (clock.showing now).local? = some start ∧
      FirstAfter (r.kind.readings start.date) clock r.behavior (clock.showing now) start x
        s.occursOn := by
  obtain ⟨m, c, hoccurrence, rfl, -⟩ := occurrence_of_next_ok hok
  have hresumed : (resumed clock {} now).cursor = {} := congrArg RecurrenceState.cursor
    (resumed_of_continuous rfl)
  rw [hresumed, occurrence_of_calendar? hcalendar] at hoccurrence
  unfold Cursor.nextOccurrence at hoccurrence
  cases hstarted : ({} : Cursor).started rule times (clock.showing now) with
  | error fault =>
    rw [hstarted] at hoccurrence
    cases hoccurrence
  | ok c₀ =>
    rw [hstarted] at hoccurrence
    obtain ⟨start, hstart, hc₀⟩ := Cursor.exists_start_of_started hstarted
    obtain ⟨dates, hdates⟩ := RecurrenceKind.exists_dates hcalendar
    obtain ⟨hwalk, hreadings⟩ := hdates start.date
    obtain ⟨x, hx, -⟩ := (Cursor.passed_of_start hwalk hc₀).exists_firstAfter hwalk hoccurrence
    rw [← hreadings] at hx
    exact ⟨start, x, hstart, hx⟩

end Recurrence

end Almanac
