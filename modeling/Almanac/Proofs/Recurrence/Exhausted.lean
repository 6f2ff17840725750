import Almanac.Proofs.Recurrence.Enumeration
import Almanac.Proofs.Recurrence.Later

/-!
# What a failed call says

After calls that have all succeeded the cursor stands on the reading of the occurrence given last,
and every reading between the start and this one meant an instant in the past for the clock that met
it. A call that returns an error from there has examined as many readings as it may, none of which
lies after its moment, or it has come to the end of a strand of the dates. In the second case a
reading of the strand with an instant to come can only have been missed before: it does not lie
after the start, or the cursor has passed it by another clock.
-/

namespace Almanac

/-- Why a reading with an instant to come is not found any more: it does not lie after the start,
or it was met by a clock that reads it otherwise. In a spaced zone with a single clock only
readings left behind at the start are missed. -/
inductive Missed (clocks : Set LocalClock) (clock : LocalClock) (behavior : Behavior)
    (start p y : Reading) : Prop
  | atStart (hle : y ≤ start)
      (hleft : clock.zone.Spaced → clock.zone.HasDayOffsets → (∀ c ∈ clocks, c = clock) →
        clock.LeftBehind behavior start y)
  | passed (hlt : start < y) (hle : y ≤ p)
      (hclock : ∃ c ∈ clocks, c.candidate? behavior y ≠ clock.candidate? behavior y)

section Missed

variable {clocks : Set LocalClock} {clock : LocalClock} {behavior : Behavior}
  {start p y : Reading} {begun m : Moment}

theorem missed_of_le_start (hshown : ∃ c ∈ clocks, c.showing begun = begun)
    (hstart : begun.local? = some start) (hle : y ≤ start)
    (hm : clock.candidate? behavior y = some m) (hlt : begun < m) :
    Missed clocks clock behavior start p y := by
  refine .atStart hle fun hspaced hday honly => ?_
  obtain ⟨c, hc, hshows⟩ := hshown
  rw [honly c hc] at hshows
  exact LocalClock.leftBehind_of_candidate? hspaced hday hshows hstart hm hle hlt

end Missed

/-! ## Failing steps and searches -/

namespace Cursor

variable {rule : DateRule} {anchor : Date} {dates : Set Date} {times : TimesOfDay}
  {strands : Set (Set Date)} {behavior : Behavior} {clock : LocalClock} {now m : Moment}
  {bound : Nat} {p start : Reading} {c c' : Cursor} {fault : Fault}

/-- The reading that a cursor stands on: the start if it has just been started. -/
def readingFrom (c : Cursor) (start : Reading) : Reading :=
  match c.date, c.lastTime with
  | some date, some time => ⟨date, time⟩
  | _, _ => start

theorem StandsOn.readingFrom_eq (h : c.StandsOn p) (start : Reading) : c.readingFrom start = p := by
  simp only [readingFrom, h.date_eq, h.lastTime_eq]

theorem StandsOn.isFresh (h : c.StandsOn p) : c.isFresh = false := by
  rw [Cursor.isFresh, h.date_eq]
  rfl

/-- A step returns an error only where the readings of a strand have come to an end. -/
theorem Passed.exists_strand_of_advance_error (hends : rule.EndsWith anchor dates strands)
    (h : Passed dates times p c) (hstep : c.advance rule = (.error fault, c'))
    (hreturns : fault.isPanic = false) :
    ∃ strand ∈ strands, ∀ y ∈ readings dates times, p < y → y.date ∉ strand := by
  obtain ⟨-, slots, hreached, hnext, hover, -⟩ := h.exists_of_advance_error hstep
  obtain ⟨strand, hstrand, hend⟩ := hends.of_next p.date slots fault hreached hnext hreturns
  exact ⟨strand, hstrand, fun y hy hlt => hend y.date hy.1 (date_lt_of_over hover hy hlt)⟩

/-- A search returns an error at the limit of candidates, or where a strand has no reading left with
an instant after the moment. -/
theorem Passed.exists_strand_of_search_error (hwalk : rule.WalksThrough anchor dates)
    (hends : rule.EndsWith anchor dates strands) (h : Passed dates times p c)
    (hsearch : search rule behavior clock now bound c = (.error fault, c'))
    (hreturns : fault.isPanic = false) :
    (fault = .noOccurrence maxCandidates now ∧
      ∃ visited q, Traverses (readings dates times) p visited q ∧ visited.length = bound ∧
        NoneAfter clock behavior now visited) ∨
    ∃ strand ∈ strands, ∀ y ∈ readings dates times, p < y → y.date ∈ strand →
      ∀ m, clock.candidate? behavior y = some m → ¬now < m := by
  obtain ⟨c₁, left, hsteps, hnone, hlength, hend⟩ := exists_steps_of_search hsearch
  obtain ⟨q, htraverses, hpassed⟩ := h.steps hwalk hsteps
  cases hend with
  | limit => exact Or.inl ⟨rfl, _, q, htraverses, hlength, hnone⟩
  | fault hstep =>
    obtain ⟨strand, hstrand, hend⟩ := hpassed.exists_strand_of_advance_error hends hstep hreturns
    refine Or.inr ⟨strand, hstrand, fun y hy hlt hin => ?_⟩
    by_cases hq : q < y
    · exact (hend y hy hq hin).elim
    · exact hnone y (htraverses.mem_iff.mpr ⟨hy, hlt, not_lt.mp hq⟩)

end Cursor

/-! ## States between calls that succeed -/

/-- The moment of the start that a call goes on from: its own one if it starts the cursor, and the
earlier one otherwise. -/
def Cursor.begunAt (c : Cursor) (earlier : Option Moment) (now : Moment) : Option Moment :=
  if c.isFresh then some now else earlier

/-- The states between calls by some clocks that have all succeeded, with the moment of the latest
start. A reset makes the state fresh again. -/
inductive Recurrence.Succeeds (r : Recurrence) (clocks : Set LocalClock) :
    Option Moment → RecurrenceState → Prop
  | fresh : Succeeds r clocks none {}
  | next {earlier : Option Moment} {state : RecurrenceState} {clock : LocalClock} {now : Moment}
      {s : Schedule} (h : Succeeds r clocks earlier state) (hclock : clock ∈ clocks)
      (hok : (r.next clock state now).result = .ok s) :
      Succeeds r clocks ((resumed clock state now).cursor.begunAt earlier (clock.showing now))
        (r.next clock state now).state

namespace Recurrence

/-- A cursor that was begun at a start has passed a reading, up to which every reading since the
start meant no instant after a moment for the clock that met it. -/
structure Underway (times : TimesOfDay) (dates : Date → Set Date) (clocks : Set LocalClock)
    (behavior : Behavior) (begun : Moment) (start p : Reading) (now : Moment) (c : Cursor) :
    Prop where
  shown : ∃ k ∈ clocks, k.showing begun = begun
  local?_eq : begun.local? = some start
  begun_le : begun ≤ now
  passed : Cursor.Passed (dates start.date) times p c
  met : ∀ y ∈ readings (dates start.date) times, start < y → y ≤ p →
    ∃ k ∈ clocks, ∀ m, k.candidate? behavior y = some m → ¬now < m

/-- A state is fresh, or its cursor stands on the reading of the occurrence given last. -/
inductive Settled (times : TimesOfDay) (dates : Date → Set Date) (clocks : Set LocalClock)
    (behavior : Behavior) : Option Moment → RecurrenceState → Prop
  | fresh {earlier : Option Moment} : Settled times dates clocks behavior earlier {}
  | found {begun last : Moment} {start p : Reading} {c : Cursor}
      (hunderway : Underway times dates clocks behavior begun start p last c)
      (hstands : c.StandsOn p) : Settled times dates clocks behavior (some begun) ⟨some last, c⟩

variable {r : Recurrence} {rule : DateRule} {times : TimesOfDay} {dates : Date → Set Date}
  {clocks : Set LocalClock} {behavior : Behavior} {clock : LocalClock} {earlier : Option Moment}
  {state : RecurrenceState} {begun now now' m : Moment} {start p y : Reading} {c c' : Cursor}
  {bound : Nat} {s : Schedule} {fault : Fault}

theorem Underway.later (h : Underway times dates clocks behavior begun start p now c)
    (hle : now ≤ now') : Underway times dates clocks behavior begun start p now' c := by
  refine ⟨h.shown, h.local?_eq, h.begun_le.trans hle, h.passed, fun y hy hlt hyp => ?_⟩
  obtain ⟨k, hk, hnot⟩ := h.met y hy hlt hyp
  exact ⟨k, hk, fun m hm hafter => hnot m hm (hle.trans_lt hafter)⟩

/-- A search that succeeds leaves the cursor on the reading of its instant. -/
theorem Underway.search (hwalk : ∀ a, rule.WalksThrough a (dates a)) (hclock : clock ∈ clocks)
    (h : Underway times dates clocks behavior begun start p now c)
    (hsearch : Cursor.search rule behavior clock now bound c = (.ok m, c')) :
    ∃ x, Underway times dates clocks behavior begun start x m c' ∧ c'.StandsOn x := by
  obtain ⟨x, hfirst, hpassed, hstands⟩ :=
    h.passed.exists_firstAfter (hwalk start.date) hsearch
  have hlt := hfirst.now_lt
  refine ⟨x, ⟨h.shown, h.local?_eq, h.begun_le.trans hlt.le, hpassed, ?_⟩, hstands⟩
  intro y hy hstart hyx
  by_cases hyp : y ≤ p
  · exact (h.later hlt.le).met y hy hstart hyp
  · refine ⟨clock, hclock, fun m' hm' hafter => ?_⟩
    rcases hyx.lt_or_eq with hyx | rfl
    · exact hfirst.not_lt_of_between y hy (not_le.mp hyp) hyx m' hm' (hlt.trans hafter)
    · rw [hfirst.candidate?_eq, Option.some.injEq] at hm'
      subst hm'
      exact lt_irrefl _ hafter

/-- A reading up to the one of the cursor that means an instant to come has been missed. -/
theorem Underway.missed (h : Underway times dates clocks behavior begun start p now c)
    (hy : y ∈ readings (dates start.date) times) (hle : y ≤ p)
    (hm : clock.candidate? behavior y = some m) (hlt : now < m) :
    Missed clocks clock behavior start p y := by
  by_cases hstart : y ≤ start
  · exact missed_of_le_start h.shown h.local?_eq hstart hm (h.begun_le.trans_lt hlt)
  · obtain ⟨k, hk, hnot⟩ := h.met y hy (not_le.mp hstart) hle
    refine .passed (not_le.mp hstart) hle ⟨k, hk, fun hsame => ?_⟩
    exact hnot m (hsame.trans hm) hlt

/-- The cursor that a call goes on with is under way. -/
theorem Settled.exists_underway (hwalk : ∀ a, rule.WalksThrough a (dates a))
    (hclock : clock ∈ clocks) (h : Settled times dates clocks behavior earlier state)
    (hstarted : (resumed clock state now).cursor.started rule times (clock.showing now) = .ok c) :
    ∃ begun start, (resumed clock state now).cursor.begunAt earlier (clock.showing now) =
        some begun ∧
      Underway times dates clocks behavior begun start
        ((resumed clock state now).cursor.readingFrom start) (clock.showing now) c := by
  have hfresh : ∀ c, ({} : Cursor).started rule times (clock.showing now) = .ok c →
      ∃ begun start, ({} : Cursor).begunAt earlier (clock.showing now) = some begun ∧
        Underway times dates clocks behavior begun start (({} : Cursor).readingFrom start)
          (clock.showing now) c := by
    intro c hc
    obtain ⟨start, hstart, hc⟩ := Cursor.exists_start_of_started hc
    refine ⟨_, start, rfl, ⟨clock, hclock, rfl⟩, hstart, le_rfl,
      Cursor.passed_of_start (hwalk start.date) hc, fun y _ hlt hle => ?_⟩
    exact (not_le_of_gt hlt hle).elim
  unfold resumed at hstarted ⊢
  split at hstarted
  · next hbroken =>
    rw [if_pos hbroken]
    exact hfresh c hstarted
  · next hcontinuous =>
    rw [if_neg hcontinuous]
    cases h with
    | fresh => exact hfresh c hstarted
    | @found begun last start p c₀ hunderway hstands =>
      rw [hunderway.passed.started, Except.ok.injEq] at hstarted
      subst hstarted
      have hnot : ¬clock.showing now < last := fun hlt => hcontinuous (decide_eq_true hlt)
      have hbegun : c₀.begunAt (some begun) (clock.showing now) = some begun := by
        rw [Cursor.begunAt, hstands.isFresh]
        rfl
      refine ⟨begun, start, hbegun, ?_⟩
      rw [hstands.readingFrom_eq]
      exact hunderway.later (Moment.le_of_not_lt hnot)

/-- Only a fresh cursor fails to start. -/
theorem Settled.cursor_eq_of_started_error
    (h : Settled times dates clocks behavior earlier state)
    (hstarted : (resumed clock state now).cursor.started rule times (clock.showing now) =
      .error fault) : (resumed clock state now).cursor = {} := by
  unfold resumed at hstarted ⊢
  split at hstarted
  · next hbroken => rw [if_pos hbroken]
  · next hcontinuous =>
    rw [if_neg hcontinuous]
    cases h with
    | fresh => rfl
    | found hunderway _ =>
      rw [hunderway.passed.started] at hstarted
      cases hstarted

/-- A call that succeeds leaves the cursor on the reading of its occurrence. -/
theorem Settled.next (hcalendar : r.kind.calendar? = some (rule, times))
    (hwalk : ∀ a, rule.WalksThrough a (dates a)) (hclock : clock ∈ clocks)
    (h : Settled times dates clocks r.behavior earlier state)
    (hok : (r.next clock state now).result = .ok s) :
    Settled times dates clocks r.behavior
      ((resumed clock state now).cursor.begunAt earlier (clock.showing now))
      (r.next clock state now).state := by
  obtain ⟨m, c', hoccurrence, -, hstate⟩ := occurrence_of_next_ok hok
  rw [occurrence_of_calendar? hcalendar, Cursor.nextOccurrence] at hoccurrence
  cases hstarted : (resumed clock state now).cursor.started rule times (clock.showing now) with
  | error f =>
    rw [hstarted] at hoccurrence
    cases hoccurrence
  | ok c =>
    rw [hstarted] at hoccurrence
    obtain ⟨begun, start, hbegun, hunderway⟩ := h.exists_underway hwalk hclock hstarted
    obtain ⟨x, hunderway', hstands⟩ := hunderway.search hwalk hclock hoccurrence
    rw [hbegun, hstate]
    exact .found hunderway' hstands

theorem Succeeds.settled (hcalendar : r.kind.calendar? = some (rule, times))
    (hwalk : ∀ a, rule.WalksThrough a (dates a)) (h : r.Succeeds clocks earlier state) :
    Settled times dates clocks r.behavior earlier state := by
  induction h with
  | fresh => exact .fresh
  | next _ hclock hok ih => exact ih.next hcalendar hwalk hclock hok

/-! ## Failed calls -/

/-- A continuous call that finds none of as many readings as it may examine after its moment fails
at the limit. -/
theorem result_next_of_limit {visited : List Reading}
    (hcalendar : r.kind.calendar? = some (rule, times))
    (hcontinuous : isDiscontinuous state (clock.showing now) = false)
    (hfresh : state.cursor.isFresh = false) (hsteps : Cursor.Steps rule state.cursor visited c')
    (hlength : visited.length = Cursor.maxCandidates)
    (hnone : NoneAfter clock r.behavior (clock.showing now) visited) :
    (r.next clock state now).result =
      .error (.noOccurrence Cursor.maxCandidates (clock.showing now)) := by
  have hsearch : Cursor.search rule r.behavior clock (clock.showing now) (visited.length + 0)
      state.cursor = _ := hsteps.search_of_noneAfter hnone
  rw [hlength, Nat.add_zero] at hsearch
  refine (next_of_error (c := c') ?_).1
  rw [resumed_of_continuous hcontinuous,
    occurrence_of_startedFrom hcalendar (startedFrom_of_isFresh_eq_false hfresh)]
  exact hsearch

/-- After calls that have all succeeded, a call of a calendar recurrence returns an error only in
two cases. It has gone through as many readings as it may, none of which means an instant to come;
or the dates of a strand have no reading left that means one, except such as have been missed
before. -/
theorem limit_or_exhausted_of_error (hcalendar : r.kind.calendar? ≠ none)
    (hclock : clock ∈ clocks) (h : r.Succeeds clocks earlier state)
    (hfail : (r.next clock state now).result = .error fault) (hreturns : fault.isPanic = false) :
    ∃ begun start, (resumed clock state now).cursor.begunAt earlier (clock.showing now) =
        some begun ∧ begun.local? = some start ∧
      ((fault = .noOccurrence Cursor.maxCandidates (clock.showing now) ∧
        ∃ visited q, Traverses (r.kind.readings start.date)
            ((resumed clock state now).cursor.readingFrom start) visited q ∧
          visited.length = Cursor.maxCandidates ∧
          NoneAfter clock r.behavior (clock.showing now) visited) ∨
      ∃ strand ∈ r.kind.strands, ∀ y ∈ r.kind.readings start.date, y.date ∈ strand →
        ∀ m, clock.candidate? r.behavior y = some m → clock.showing now < m →
          Missed clocks clock r.behavior start
            ((resumed clock state now).cursor.readingFrom start) y) := by
  obtain ⟨⟨rule, times⟩, hcalendar⟩ := Option.ne_none_iff_exists'.mp hcalendar
  obtain ⟨dates, hdates⟩ := RecurrenceKind.exists_dates_with_ends hcalendar
  have hwalk := fun a => (hdates a).1
  have hsettled := h.settled hcalendar hwalk
  obtain ⟨c', hoccurrence⟩ := occurrence_of_next_error hfail
  rw [occurrence_of_calendar? hcalendar, Cursor.nextOccurrence] at hoccurrence
  cases hstarted : (resumed clock state now).cursor.started rule times (clock.showing now) with
  | ok c =>
    rw [hstarted] at hoccurrence
    obtain ⟨begun, start, hbegun, hunderway⟩ := hsettled.exists_underway hwalk hclock hstarted
    refine ⟨begun, start, hbegun, hunderway.local?_eq, ?_⟩
    obtain ⟨-, hends, hreadings⟩ := hdates start.date
    rw [hreadings]
    rcases hunderway.passed.exists_strand_of_search_error (hwalk start.date) hends hoccurrence
      hreturns with hlimit | ⟨strand, hstrand, hend⟩
    · exact Or.inl hlimit
    · refine Or.inr ⟨strand, hstrand, fun y hy hin m hm hlt => ?_⟩
      refine hunderway.missed hy ?_ hm hlt
      by_contra hle
      exact hend y hy (not_le.mp hle) hin m hm hlt
  | error f =>
    -- It is this call that starts the cursor.
    have hcursor := hsettled.cursor_eq_of_started_error hstarted
    rw [hstarted] at hoccurrence
    cases hoccurrence
    rw [hcursor] at hstarted ⊢
    obtain ⟨start, hstart, hfailed⟩ : ∃ start, (clock.showing now).local? = some start ∧
        ({} : Cursor).start rule times start = .error fault := by
      rcases Cursor.started_eq_error_cases hstarted with ⟨rfl, -⟩ | hfailed
      · cases hreturns
      · exact hfailed
    refine ⟨_, start, rfl, hstart, Or.inr ?_⟩
    obtain ⟨-, hends, hreadings⟩ := hdates start.date
    rw [hreadings]
    obtain ⟨strand, hstrand, hend⟩ :=
      Cursor.exists_strand_of_start ((hwalk start.date).lists hends) hfailed hreturns
    refine ⟨strand, hstrand, fun y hy hin m hm hlt => ?_⟩
    have hle : y ≤ start := by
      by_contra hle
      exact hend y hy (not_le.mp hle) hin
    exact missed_of_le_start ⟨clock, hclock, rfl⟩ hstart hle hm hlt

section Sample

/-- At a quarter to two, before clocks fall back, the reading 01:40 is left behind. It is the only
one of the recurrence, and the call fails. -/
theorem limit_or_exhausted_of_error_newYork :
    let r := dailyAt 4294967295 6000 (by decide) rfl
    let now := fallBack 20700 (-14400) (by decide)
    r.kind.calendar? ≠ none ∧ newYork ∈ ({newYork} : Set LocalClock) ∧
      r.Succeeds {newYork} none {} ∧
      (r.next newYork {} now).result = .error (.dateSum ⟨20758, by decide⟩ 4294967295) ∧
      ∃ start ∈ (newYork.showing now).local?, ∃ y ∈ r.kind.readings start.date, ∃ m,
        newYork.candidate? r.behavior y = some m ∧ now < m ∧
        newYork.LeftBehind r.behavior start y := by
  intro r now
  have hcalendar : r.kind.calendar? ≠ none := Option.some_ne_none _
  have hfail : (r.next newYork {} now).result =
      .error (.dateSum ⟨20758, by decide⟩ 4294967295) := by
    decide +kernel
  obtain ⟨begun, start, hbegun, hstart, hlimit | ⟨strand, hstrand, hend⟩⟩ :=
    limit_or_exhausted_of_error hcalendar (Set.mem_singleton newYork) .fresh hfail rfl
  · cases hlimit.1
  · cases hbegun
    have hdate : start.date = ⟨20758, by decide⟩ := by
      have hshown : (newYork.showing now).local?.map (·.date) = some ⟨20758, by decide⟩ := by
        decide +kernel
      rw [hstart] at hshown
      exact Option.some.inj hshown
    have hy : (⟨⟨20758, by decide⟩, ⟨6000, 0, by decide, by decide⟩⟩ : Reading) ∈
        r.kind.readings start.date := by
      rw [hdate]
      exact ⟨⟨by decide, by decide⟩, List.mem_singleton.mpr rfl⟩
    have hm : newYork.candidate? r.behavior
        ⟨⟨20758, by decide⟩, ⟨6000, 0, by decide, by decide⟩⟩ =
          some (fallBack 24000 (-18000) (by decide)) := by
      decide +kernel
    obtain rfl : strand = Set.univ := hstrand
    refine ⟨hcalendar, rfl, .fresh, hfail, start, hstart, _, hy, _, hm, by decide, ?_⟩
    cases hend _ hy trivial _ hm (by decide) with
    | atStart hle hleft =>
      exact hleft spaced_newYork hasDayOffsets_newYork fun c hc => Set.mem_singleton_iff.mp hc
    | passed hlt hle hclock =>
      obtain ⟨c, hc, hne⟩ := hclock
      obtain rfl := Set.mem_singleton_iff.mp hc
      exact (hne rfl).elim

/-- A call fails although a reading counted from the latest start means an instant to come. -/
def FailsEarly (r : Recurrence) (clock : LocalClock) (earlier : Option Moment)
    (state : RecurrenceState) (now : Moment) : Prop :=
  (∃ fault, (r.next clock state now).result = .error fault) ∧
    ∃ start, ((resumed clock state now).cursor.begunAt earlier (clock.showing now)).bind
        Moment.local? = some start ∧
      ∃ y ∈ r.kind.readings start.date, ∃ m, clock.candidate? r.behavior y = some m ∧
        clock.showing now < m

/-- While the calendar goes on, a rule of every day steps from day to day. -/
theorem exists_steps_of_everyDay {rule : DateRule}
    (hrule : ∀ d slots, rule.next d slots = d.plusDays 1) (t : TimeOfDay) (n : Nat) (d : Date)
    (slots : WeekSlots) (hroom : d.day + n ≤ lastDay) :
    ∃ visited c', Cursor.Steps rule ⟨[t], some d, some t, slots⟩ visited c' ∧
      visited.length = n ∧ ∀ y ∈ visited, y.date.day ≤ d.day + n := by
  induction n generalizing d slots with
  | zero => exact ⟨[], _, .nil, rfl, fun y hy => (List.not_mem_nil hy).elim⟩
  | succ n ih =>
    obtain ⟨e, he⟩ := Date.exists_plusDays (d := d) (e := ⟨lastDay, by decide⟩)
      (show (0 : Int) ≤ 1 by decide) (show d.day + 1 ≤ lastDay by omega)
    have hday := Date.day_of_plusDays he
    obtain ⟨visited, c', hsteps, hlength, hbound⟩ := ih e (slots.record e) (by omega)
    have hstep : Cursor.advance rule ⟨[t], some d, some t, slots⟩ =
        (.ok ⟨e, t⟩, ⟨[t], some e, some t, slots.record e⟩) := by
      rw [Cursor.advance_of_over (Cursor.any_le_eq_true (Nat.le_refl t.key)), hrule, he]
      rfl
    refine ⟨_, c', .cons hstep hsteps, congrArg (· + 1) hlength, fun y hy => ?_⟩
    rcases List.mem_cons.mp hy with rfl | hy
    · dsimp only
      omega
    · have hle := hbound y hy
      omega

/-- After the first occurrence, on 1 June 2026, the first million days are all before the year
5000. -/
theorem failsEarly_eachMorning :
    (eachMorning 1 rfl).FailsEarly .utc (some june) (afterJune (eachMorning 1 rfl))
      (onTheHour 1106685 0 (by decide) (by decide)) := by
  let r := eachMorning 1 rfl
  let now := onTheHour 1106685 0 (by decide) (by decide)
  have hconstant : LocalClock.utc.zone.Constant 0 := Zone.constant_fixed 0
  have hcursor : (afterJune r).cursor.queue = [⟨28800, 0, by decide, by decide⟩] ∧
      (afterJune r).cursor.date = some ⟨20605, by decide⟩ ∧
      (afterJune r).cursor.lastTime = some ⟨28800, 0, by decide, by decide⟩ := by
    decide +kernel
  have hrule : ∀ d slots, DateRule.next { first := .ok, next := fun date _ => date.plusDays 1 } d
      slots = d.plusDays 1 := fun _ _ => rfl
  obtain ⟨visited, c', hsteps, hlength, hbound⟩ := exists_steps_of_everyDay hrule
    ⟨28800, 0, by decide, by decide⟩ Cursor.maxCandidates ⟨20605, by decide⟩
    (afterJune r).cursor.slots (by decide)
  have hnone : NoneAfter .utc r.behavior now visited := by
    intro y hy m hm hlt
    have hkey := (LocalClock.lt_iff_key_of_constant hconstant hm rfl).mp hlt
    have hday := hbound y hy
    have htime := y.time.key_lt
    have hnow : now.wall.key = 1106685 * 172800000000000 := by
      decide +kernel
    have hmax : Cursor.maxCandidates = 1000000 := rfl
    unfold Reading.key at hkey
    dsimp only at hday
    omega
  obtain ⟨hqueue, hdate, htime⟩ := hcursor
  rw [← hqueue, ← hdate, ← htime] at hsteps
  refine ⟨⟨_, result_next_of_limit rfl (by decide +kernel) ?_ hsteps hlength hnone⟩,
    ⟨⟨20605, by decide⟩, ⟨25200, 0, by decide, by decide⟩⟩, by decide +kernel,
    ⟨⟨1106685, by decide⟩, ⟨28800, 0, by decide, by decide⟩⟩,
    ⟨⟨by decide, by decide⟩, List.mem_singleton.mpr rfl⟩,
    onTheHour 1106685 8 (by decide) (by decide), by decide +kernel, by decide⟩
  rw [Cursor.isFresh, hdate]
  rfl

/-- On Mondays and Fridays at 09:00, in the first week only: the calendar does not hold the next
week that counts. -/
def oneWeek : Recurrence where
  kind := .weekly DateRule.oneWeekOnly

/-- Calls after successful ones fail although a reading means an instant to come. Beyond the limit
of candidates it is not examined; after Monday the other Mondays are missing, and Friday is not
found. At the start the reading 01:40 is left behind before it is shown again, and so is 02:30,
which is skipped and shifted. By a clock behind the one that met it, a reading passed is yet to
come. -/
theorem not_exhausted_of_error :
    ((eachMorning 1 rfl).Succeeds {.utc} (some june) (afterJune (eachMorning 1 rfl)) ∧
        (eachMorning 1 rfl).FailsEarly .utc (some june) (afterJune (eachMorning 1 rfl))
          (onTheHour 1106685 0 (by decide) (by decide))) ∧
      (oneWeek.Succeeds {.utc} (some june) (afterJune oneWeek) ∧
        oneWeek.FailsEarly .utc (some june) (afterJune oneWeek)
          (onTheHour 20605 10 (by decide) (by decide))) ∧
      ((dailyAt 4294967295 6000 (by decide) rfl).Succeeds {newYork} none {} ∧
        (dailyAt 4294967295 6000 (by decide) rfl).FailsEarly newYork none {}
          (fallBack 20700 (-14400) (by decide))) ∧
      ((dailyAt 4294967295 9000 (by decide) rfl).Succeeds {newYork} none {} ∧
        (dailyAt 4294967295 9000 (by decide) rfl).FailsEarly newYork none {}
          (springForward 26100 (-14400) (by decide))) ∧
      once.Succeeds {.utc, dateLineWest} (some june) (afterJune once) ∧
        once.FailsEarly dateLineWest (some june) (afterJune once)
          (onTheHour 20605 9 (by decide) (by decide)) := by
  have hjune : ∀ (r : Recurrence) (clocks : Set LocalClock), .utc ∈ clocks →
      (r.next .utc {} june).result.isOk = true → r.Succeeds clocks (some june) (afterJune r) := by
    intro r clocks hutc hok
    obtain ⟨s, hs⟩ := exists_of_isOk hok
    exact .next .fresh hutc hs
  have hfails : ∀ result : Except Fault Schedule, result.isOk = false →
      ∃ fault, result = .error fault := by
    intro result h
    cases result with
    | ok s => cases h
    | error fault => exact ⟨fault, rfl⟩
  have hseven : (some june).bind Moment.local? =
      some ⟨⟨20605, by decide⟩, ⟨25200, 0, by decide, by decide⟩⟩ := by
    decide +kernel
  refine ⟨⟨hjune _ _ rfl (by decide +kernel), failsEarly_eachMorning⟩,
    ⟨hjune _ _ rfl (by decide +kernel), hfails _ (by decide +kernel), _, hseven,
      ⟨⟨20609, by decide⟩, ⟨32400, 0, by decide, by decide⟩⟩, ?_,
      onTheHour 20609 9 (by decide) (by decide), by decide +kernel, by decide⟩,
    ⟨.fresh, hfails _ (by decide +kernel),
      ⟨⟨20758, by decide⟩, ⟨6300, 0, by decide, by decide⟩⟩, by decide +kernel,
      ⟨⟨20758, by decide⟩, ⟨6000, 0, by decide, by decide⟩⟩, ?_,
      fallBack 24000 (-18000) (by decide), by decide +kernel, by decide⟩,
    ⟨.fresh, hfails _ (by decide +kernel),
      ⟨⟨20520, by decide⟩, ⟨11700, 0, by decide, by decide⟩⟩, by decide +kernel,
      ⟨⟨20520, by decide⟩, ⟨9000, 0, by decide, by decide⟩⟩, ?_,
      springForward 27000 (-14400) (by decide), by decide +kernel, by decide⟩,
    hjune _ _ (Or.inl rfl) (by decide +kernel), hfails _ (by decide +kernel), _, hseven,
      ⟨⟨20605, by decide⟩, ⟨28800, 0, by decide, by decide⟩⟩, ?_,
      dateLineWest.ofUtc ⟨⟨20605, by decide⟩, ⟨72000, 0, by decide, by decide⟩⟩,
      by decide +kernel, by decide⟩
  · exact ⟨⟨by decide, by decide, ⟨20605, by decide⟩, by decide +kernel, rfl⟩,
      List.mem_singleton.mpr rfl⟩
  · exact ⟨⟨by decide, by decide⟩, List.mem_singleton.mpr rfl⟩
  · exact ⟨⟨by decide, by decide⟩, List.mem_singleton.mpr rfl⟩
  · exact ⟨⟨by decide, by decide⟩, List.mem_singleton.mpr rfl⟩

end Sample

end Recurrence

end Almanac
