import Almanac.Proofs.Recurrence.Requests
import Almanac.Proofs.Zone.Constant

/-!
# Calls that do not depend on what was asked before

The dates of some recurrences are not counted from their start: every day, days of the week in
every week, and dates of the month. Under an offset that never changes, readings and instants have
one order. A cursor that has passed a reading not after the present then finds the first reading
after the present, wherever it has been started, and so does a cursor that is started now. As long
as all calls succeed, the occurrence given last is the one that the cursor stands on, and a call
before it starts the cursor afresh. What was asked before therefore plays no part.
-/

namespace Almanac

open Calendar

/-! ## Dates that are not counted from a start -/

namespace Date

/-- A date of a set of days of the week is found from any date before it, from a date on or after
it. -/
theorem exists_nextWeekday {d e : Date} {days : WeekDays} {inclusive : Bool}
    (he : days.contains e.weekday = true) (hle : d.day + (if inclusive then 0 else 1) ≤ e.day) :
    ∃ first, d.nextWeekday days inclusive = .ok first := by
  let start : Nat := if inclusive then 0 else 1
  have hstart : (if inclusive then (0 : Int) else 1) = start := by
    cases inclusive <;> rfl
  rw [hstart] at hle
  let n := start + ((e.day - d.day - start) % 7).toNat
  have hn : (n : Int) = start + (e.day - d.day - start) % 7 := by omega
  have hx : firstDay ≤ d.day + n ∧ d.day + n ≤ lastDay := by
    have hd := d.mem
    have he := e.mem
    omega
  have hadd : d.addDays? n = some ⟨d.day + n, hx⟩ := ofDay?_eq_some.mpr rfl
  have hweekday : (⟨d.day + n, hx⟩ : Date).weekday = e.weekday := by
    rw [weekday_eq_iff]
    dsimp only
    omega
  have hfound : ((List.range' start 7).findSome? fun n : Nat =>
      (d.addDays? n).filter fun e => days.contains e.weekday).isSome = true := by
    rw [List.findSome?_isSome_iff]
    refine ⟨n, List.mem_range'_1.mpr ⟨Nat.le_add_right _ _, by omega⟩, ?_⟩
    simp [hadd, hweekday, he]
  obtain ⟨first, hfirst⟩ := Option.isSome_iff_exists.mp hfound
  exact ⟨first, by simp only [nextWeekday, start, hfirst]⟩

end Date

namespace DailySelection

/-- The dates of a selection that does not count them. -/
def qualifying : DailySelection → Set Date
  | everyDays _ => Set.univ
  | weekDays days => {e | days.contains e.weekday = true}

def PhaseFree : DailySelection → Prop
  | everyDays n => n = 1
  | weekDays _ => True

theorem dates_of_phaseFree {s : DailySelection} (h : s.PhaseFree) (a : Date) :
    s.dates a = {e ∈ s.qualifying | a ≤ e} := by
  ext e
  cases s with
  | everyDays n =>
    obtain rfl : n = 1 := h
    simp [dates, qualifying]
  | weekDays days => simp [dates, qualifying, and_comm]

end DailySelection

/-- In a recurrence of every week all weeks count. -/
theorem Weekly.dates_of_weeks_eq_one {w : Weekly} (h : w.weeks = 1) (a : Date) :
    w.dates a = {e | w.weekDays.contains e.weekday = true ∧ a ≤ e} := by
  ext e
  refine ⟨fun he => ⟨he.2.1, he.1⟩, fun he => ⟨he.2, he.1, ?_⟩⟩
  have hle : a.day + (if true then 0 else 1) ≤ e.day := by simpa using Date.le_iff.mp he.2
  obtain ⟨first, hfirst⟩ := Date.exists_nextWeekday he.1 hle
  exact ⟨first, hfirst, by simp [Counts, h]⟩

namespace RecurrenceKind

/-- The dates do not depend on where the recurrence starts: there are none, or every date with
some property is one of them. -/
def PhaseFree : RecurrenceKind → Prop
  | period _ => True
  | daily d => d.selection.PhaseFree
  | weekly w => w.weeks = 1
  | monthly _ => True

/-- The dates of a recurrence that does not count them. -/
def qualifying : RecurrenceKind → Set Date
  | period _ => ∅
  | daily d => d.selection.qualifying
  | weekly w => {e | w.weekDays.contains e.weekday = true}
  | monthly m => {e | e ∈ m.datesIn e.year e.month}

variable {kind : RecurrenceKind} {rule : DateRule} {times : TimesOfDay}

/-- The rule of a phase-free recurrence walks through the qualifying dates, wherever it starts. -/
theorem walksThrough_of_phaseFree (h : kind.PhaseFree)
    (hcalendar : kind.calendar? = some (rule, times)) (a : Date) :
    rule.WalksThrough a {e ∈ kind.qualifying | a ≤ e} := by
  cases kind with
  | period p => cases hcalendar
  | daily d =>
    cases hcalendar
    exact DailySelection.dates_of_phaseFree h a ▸ d.walksThrough a
  | weekly w =>
    cases hcalendar
    exact Weekly.dates_of_weeks_eq_one h a ▸ w.walksThrough a
  | monthly m =>
    cases hcalendar
    have hdates : m.dates a = {e ∈ (monthly m).qualifying | a ≤ e} := Set.ext fun e => and_comm
    exact hdates ▸ m.walksThrough a

end RecurrenceKind

/-! ## A search under one offset -/

namespace Cursor

variable {rule : DateRule} {dates : Set Date} {times : TimesOfDay} {behavior : Behavior}
  {clock : LocalClock} {offset : Int} {now m : Moment} {bound : Nat} {a : Date} {p : Reading}
  {c c' : Cursor}

/-- A cursor that has passed a reading not after the present finds the first one after it. -/
theorem Passed.isLeast_of_search (hconstant : clock.zone.Constant offset)
    (hnow : now.offset = offset) (hwalk : rule.WalksThrough a dates) (h : Passed dates times p c)
    (hp : p.key ≤ now.wall.key) (hsearch : search rule behavior clock now bound c = (.ok m, c')) :
    ∃ x, IsLeast {y ∈ readings dates times | now.wall.key < y.key} x ∧
      clock.candidate? behavior x = some m ∧ Passed dates times x c' := by
  obtain ⟨c₁, left, hsteps, hnone, -, hend⟩ := exists_steps_of_search hsearch
  obtain ⟨q, htraverses, hq⟩ := h.steps hwalk hsteps
  cases hend with
  | @found left x _ _ hstep hm hlt =>
    obtain ⟨⟨⟨hx, -⟩, hleast⟩, hpassed⟩ := hq.advance hwalk hstep
    have hafter := (LocalClock.lt_iff_key_of_constant hconstant hm hnow).mp hlt
    refine ⟨x, ⟨⟨hx, hafter⟩, fun y hmem => ?_⟩, hm, hpassed⟩
    obtain ⟨hy, hyafter⟩ := hmem
    by_contra hyx
    have hyx := lt_of_not_ge hyx
    -- A reading between the present and the one found would have been examined before.
    have hyq : y ≤ q := by
      by_contra hqy
      exact not_le_of_gt hyx (hleast ⟨hy, lt_of_not_ge hqy⟩)
    have hpy : p < y := Reading.lt_iff_key.mpr (lt_of_le_of_lt hp hyafter)
    obtain ⟨m', hm'⟩ :=
      LocalClock.exists_candidate?_of_constant hconstant hnow hyafter hyx.le hm
    refine hnone y (htraverses.mem_iff.mpr ⟨hy, hpy, hyq⟩) m' hm' ?_
    exact (LocalClock.lt_iff_key_of_constant hconstant hm' hnow).mpr hyafter

/-- The dates before the start of a cursor do not matter, once it has passed a reading from its
start on. -/
theorem isLeast_readings_of_start {x : Reading} (ha : a ≤ p.date) (hp : p.key ≤ now.wall.key)
    (h : IsLeast {y ∈ readings {e ∈ dates | a ≤ e} times | now.wall.key < y.key} x) :
    IsLeast {y ∈ readings dates times | now.wall.key < y.key} x := by
  obtain ⟨⟨⟨⟨hdate, -⟩, htime⟩, hafter⟩, hleast⟩ := h
  refine ⟨⟨⟨hdate, htime⟩, hafter⟩, fun y hmem => ?_⟩
  obtain ⟨⟨hydate, hytime⟩, hyafter⟩ := hmem
  have hpy : p < y := Reading.lt_iff_key.mpr (lt_of_le_of_lt hp hyafter)
  have hay : a ≤ y.date := by
    rw [Date.le_iff] at ha ⊢
    rcases hpy with hlater | ⟨hsame, -⟩
    · rw [Date.lt_iff] at hlater
      omega
    · rwa [← hsame]
  exact hleast ⟨⟨⟨hydate, hay⟩, hytime⟩, hyafter⟩

end Cursor

/-- A present between two readings of the calendar has a local reading. -/
theorem Moment.exists_local? {now : Moment} {p x : Reading} (hp : p.key ≤ now.wall.key)
    (hx : now.wall.key < x.key) : ∃ start, now.local? = some start ∧ start.key = now.wall.key := by
  have hday : firstDay ≤ now.wall.day ∧ now.wall.day ≤ lastDay := by
    have hpday := p.date.mem
    have hxday := x.date.mem
    have hptime := p.time.key_lt
    have hxtime := x.time.key_lt
    have htime := now.wall.time.key_lt
    unfold Wall.key Reading.key at hp hx
    omega
  have hdate : Date.ofDay? now.wall.day = some ⟨now.wall.day, hday⟩ := Date.ofDay?_eq_some.mpr rfl
  refine ⟨⟨⟨now.wall.day, hday⟩, now.wall.time⟩, ?_, rfl⟩
  simp [local?, Wall.reading?, hdate]

/-! ## Calls -/

namespace Recurrence

/-- All calls among some requests are made by one clock, and all of them succeed. -/
def Served (r : Recurrence) (clock : LocalClock) (requests : List Request) : Prop :=
  ∀ reply ∈ r.replies requests, reply.clock = clock ∧ reply.result.isOk = true

instance (r : Recurrence) (clock : LocalClock) (requests : List Request) :
    Decidable (r.Served clock requests) :=
  inferInstanceAs (Decidable (∀ reply ∈ r.replies requests, _ ∧ _))

/-- The occurrence after a moment, by the dates that qualify: the instant of the first reading
after the local reading of the moment. -/
def FindsFirst (r : Recurrence) (times : TimesOfDay) (clock : LocalClock) (now : Moment)
    (found : Moment) : Prop :=
  ∃ start x, (clock.showing now).local? = some start ∧
    IsLeast {y ∈ readings r.kind.qualifying times | start < y} x ∧
    clock.candidate? r.behavior x = some found

/-- A state between calls that have all succeeded: a fresh one, or one whose cursor has passed the
reading of the occurrence found last. -/
inductive Standing (r : Recurrence) (times : TimesOfDay) (clock : LocalClock) :
    RecurrenceState → Prop
  | fresh : Standing r times clock {}
  | found {a : Date} {p : Reading} {m : Moment} {c : Cursor} (ha : a ≤ p.date)
      (hm : clock.candidate? r.behavior p = some m)
      (hpassed : Cursor.Passed {e ∈ r.kind.qualifying | a ≤ e} times p c) :
      Standing r times clock ⟨some m, c⟩

variable {r : Recurrence} {clock : LocalClock} {offset : Int} {rule : DateRule}
  {times : TimesOfDay} {anchor : Option Date} {state state' : RecurrenceState} {now : Moment}
  {requests requests' : List Request} {s s' : Schedule}

section Calendar

variable (hfree : r.kind.PhaseFree) (hcalendar : r.kind.calendar? = some (rule, times))
  (hconstant : clock.zone.Constant offset)

include hfree hcalendar hconstant

/-- A call goes on from a reading that is not after the present, or starts at the present. -/
theorem Standing.exists_passed {c : Cursor} (h : Standing r times clock state)
    (hstarted : (resumed clock state now).cursor.started rule times (clock.showing now) = .ok c) :
    ∃ a p, a ≤ p.date ∧ p.key ≤ (clock.showing now).wall.key ∧
      Cursor.Passed {e ∈ r.kind.qualifying | a ≤ e} times p c := by
  have hfresh : ∀ c, ({} : Cursor).started rule times (clock.showing now) = .ok c →
      ∃ a p, a ≤ p.date ∧ p.key ≤ (clock.showing now).wall.key ∧
        Cursor.Passed {e ∈ r.kind.qualifying | a ≤ e} times p c := by
    intro c hc
    obtain ⟨start, hstart, hc⟩ := Cursor.exists_start_of_started hc
    have hwalk := RecurrenceKind.walksThrough_of_phaseFree hfree hcalendar start.date
    exact ⟨start.date, start, Int.le_refl _, (Wall.key_of_reading? hstart).le,
      Cursor.passed_of_start hwalk hc⟩
  unfold resumed at hstarted
  split at hstarted
  · exact hfresh c hstarted
  · next hcontinuous =>
    cases h with
    | fresh => exact hfresh c hstarted
    | @found a p m c' ha hm hpassed =>
      rw [hpassed.started, Except.ok.injEq] at hstarted
      subst hstarted
      have hnot : ¬clock.showing now < m := fun hlt => hcontinuous (decide_eq_true hlt)
      rw [LocalClock.lt_iff_key_of_constant hconstant hm
        (LocalClock.offset_showing hconstant now), not_lt] at hnot
      exact ⟨a, p, ha, hnot, hpassed⟩

/-- A call that succeeds finds the first reading after the present, and the cursor stands on it. -/
theorem Standing.next (h : Standing r times clock state)
    (hs : (r.next clock state now).result = .ok s) :
    Standing r times clock (r.next clock state now).state ∧
      r.FindsFirst times clock now s.occursOn := by
  obtain ⟨m, c', hoccurrence, rfl, hstate⟩ := occurrence_of_next_ok hs
  rw [occurrence_of_calendar? hcalendar, Cursor.nextOccurrence] at hoccurrence
  cases hstarted : (resumed clock state now).cursor.started rule times (clock.showing now) with
  | error fault =>
    rw [hstarted] at hoccurrence
    cases hoccurrence
  | ok c =>
    rw [hstarted] at hoccurrence
    obtain ⟨a, p, ha, hp, hpassed⟩ := h.exists_passed hfree hcalendar hconstant hstarted
    have hwalk := RecurrenceKind.walksThrough_of_phaseFree hfree hcalendar a
    obtain ⟨x, hleast, hx, hpassed'⟩ := hpassed.isLeast_of_search hconstant
      (LocalClock.offset_showing hconstant now) hwalk hp hoccurrence
    obtain ⟨start, hstart, hkey⟩ := Moment.exists_local? hp hleast.1.2
    refine ⟨hstate ▸ .found hleast.1.1.1.2 hx hpassed', start, x, hstart, ?_, hx⟩
    have hall := Cursor.isLeast_readings_of_start ha hp hleast
    simpa only [Reading.lt_iff_key, hkey] using hall

/-- Requests whose calls all succeed leave the cursor on the occurrence found last. -/
theorem Standing.stateAfter (h : Standing r times clock state)
    (hserved : ∀ reply ∈ r.repliesFrom anchor state requests,
      reply.clock = clock ∧ reply.result.isOk = true) :
    Standing r times clock (r.stateAfter state requests) := by
  induction requests generalizing anchor state with
  | nil => exact h
  | cons request requests ih =>
    cases request with
    | next clock' now =>
      obtain ⟨⟨hclock, hok⟩, hrest⟩ := List.forall_mem_cons.mp hserved
      dsimp only at hclock hok
      subst hclock
      obtain ⟨s, hs⟩ := exists_of_isOk hok
      exact ih (h.next hfree hcalendar hconstant hs).1 hrest
    | reset => exact ih .fresh hserved

end Calendar

/-- A moment has at most one occurrence after it. -/
theorem FindsFirst.unique {m m' : Moment} (h : r.FindsFirst times clock now m)
    (h' : r.FindsFirst times clock now m') : m = m' := by
  obtain ⟨start, x, hstart, hleast, hx⟩ := h
  obtain ⟨start', x', hstart', hleast', hx'⟩ := h'
  rw [hstart, Option.some.injEq] at hstart'
  subst hstart'
  rw [hleast.unique hleast', hx', Option.some.injEq] at hx
  exact hx.symm

theorem eq_ofMoment_of_next_ok (h : (r.next clock state now).result = .ok s) :
    s = Schedule.ofMoment s.occursOn (clock.showing now) := by
  obtain ⟨m, c, -, rfl, -⟩ := occurrence_of_next_ok h
  rfl

/-- A period answers from the present alone. -/
theorem result_next_of_calendar?_eq_none (h : r.kind.calendar? = none)
    (hs : (r.next clock state now).result = .ok s)
    (hs' : (r.next clock state' now).result = .ok s') : s = s' := by
  obtain ⟨m, c, hm, rfl, -⟩ := occurrence_of_next_ok hs
  obtain ⟨m', c', hm', rfl, -⟩ := occurrence_of_next_ok hs'
  obtain ⟨p, hp⟩ := RecurrenceKind.exists_period_of_calendar?_eq_none h
  simp only [occurrence, hp, Prod.mk.injEq] at hm hm'
  rw [hm.1, Except.ok.injEq] at hm'
  rw [hm'.1]

/-- Under an offset that never changes, recurrences whose dates are not counted from their start
answer from the present alone. Two copies that have each served any calls, all with success, and
both succeed at a moment give the same schedule; a copy that has served none is one of them. The
occurrence of a calendar recurrence is the first of all its readings after the local reading of
the moment. -/
theorem next_eq_of_served (hfree : r.kind.PhaseFree) (hconstant : clock.zone.Constant offset)
    (hserved : r.Served clock requests) (hserved' : r.Served clock requests')
    (hs : (r.next clock (r.stateAfter {} requests) now).result = .ok s)
    (hs' : (r.next clock (r.stateAfter {} requests') now).result = .ok s') :
    s = s' ∧ ∀ rule times, r.kind.calendar? = some (rule, times) →
      ∃ start x, (clock.showing now).local? = some start ∧
        IsLeast {y ∈ readings r.kind.qualifying times | start < y} x ∧
        s.occursOn.local? = some x ∧ s.occursOn.offset = offset := by
  cases hcalendar : r.kind.calendar? with
  | none =>
    refine ⟨result_next_of_calendar?_eq_none hcalendar hs hs', fun rule times h => ?_⟩
    cases h
  | some calendar =>
    obtain ⟨rule, times⟩ := calendar
    have hstanding := Standing.fresh.stateAfter hfree hcalendar hconstant hserved
    have hstanding' := Standing.fresh.stateAfter hfree hcalendar hconstant hserved'
    have hfinds := (hstanding.next hfree hcalendar hconstant hs).2
    have hfinds' := (hstanding'.next hfree hcalendar hconstant hs').2
    refine ⟨?_, fun rule' times' h => ?_⟩
    · rw [eq_ofMoment_of_next_ok hs, eq_ofMoment_of_next_ok hs', hfinds.unique hfinds']
    · cases h
      obtain ⟨start, x, hstart, hleast, hx⟩ := hfinds
      exact ⟨start, x, hstart, hleast, LocalClock.local?_of_constant hconstant hx⟩

/-- On Mondays and Thursdays of every week, at half past one at night and one in the afternoon. -/
def twiceAWeek : Recurrence where
  kind := .weekly
    { times := ⟨[⟨5400, 0, by decide, TimeOfDay.midnight.nano_lt⟩,
        ⟨46800, 0, by decide, TimeOfDay.midnight.nano_lt⟩], by decide, by decide⟩
      weeks := 1
      weekDays := ⟨18⟩
      weeks_ne_zero := by decide
      proper := rfl }

/-- A clock twelve hours behind universal time. -/
def dateLineWest : LocalClock := { id := "Etc/GMT+12", zone := Zone.Table.dateLineWest }

/-- Half past noon of a day in universal time, which is half past midnight by the clock. -/
def halfPastNoon (day : Int) (h : firstDay ≤ day ∧ day ≤ lastDay) : Moment :=
  dateLineWest.ofUtc ⟨⟨day, h⟩, ⟨45000, 0, by decide, TimeOfDay.midnight.nano_lt⟩⟩

/-- One copy has been asked about a Wednesday, about the Sunday before it, and about that Sunday
again after a reset; the other one has been asked about the Monday. -/
theorem next_eq_of_served_twiceAWeek :
    let wednesday := halfPastNoon 20523 (by decide)
    let sunday := halfPastNoon 20520 (by decide)
    let monday := halfPastNoon 20521 (by decide)
    let requests := [.next dateLineWest wednesday, .next dateLineWest sunday, .reset,
      .next dateLineWest sunday]
    let requests' := [.next dateLineWest monday]
    twiceAWeek.kind.PhaseFree ∧ dateLineWest.zone.Constant (-43200) ∧
      twiceAWeek.Served dateLineWest requests ∧ twiceAWeek.Served dateLineWest requests' ∧
      ∃ s s', (twiceAWeek.next dateLineWest (twiceAWeek.stateAfter {} requests) wednesday).result
          = .ok s ∧
        (twiceAWeek.next dateLineWest (twiceAWeek.stateAfter {} requests') wednesday).result
          = .ok s' ∧ s = s' := by
  intro wednesday sunday monday requests requests'
  have hfree : twiceAWeek.kind.PhaseFree := rfl
  have hconstant : dateLineWest.zone.Constant (-43200) := Zone.constant_fixed _
  have hserved : twiceAWeek.Served dateLineWest requests := by decide +kernel
  have hserved' : twiceAWeek.Served dateLineWest requests' := by decide +kernel
  have hs : (twiceAWeek.next dateLineWest (twiceAWeek.stateAfter {} requests) wednesday).result =
      .ok ⟨⟨⟨⟨20524, by decide⟩, ⟨48600, 0, by decide, by decide⟩⟩, -43200⟩, ⟨90000000000000⟩⟩ := by
    decide +kernel
  have hs' : (twiceAWeek.next dateLineWest (twiceAWeek.stateAfter {} requests') wednesday).result =
      .ok ⟨⟨⟨⟨20524, by decide⟩, ⟨48600, 0, by decide, by decide⟩⟩, -43200⟩, ⟨90000000000000⟩⟩ := by
    decide +kernel
  exact ⟨hfree, hconstant, hserved, hserved', _, _, hs, hs',
    (next_eq_of_served hfree hconstant hserved hserved' hs hs').1⟩

end Recurrence

end Almanac
