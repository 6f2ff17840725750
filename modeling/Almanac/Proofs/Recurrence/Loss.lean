import Almanac.Proofs.Recurrence.Run
import Almanac.Proofs.Zone.Candidate
import Mathlib.Data.List.Chain

/-!
# Readings lost by a run

A run that goes through the readings of a recurrence keeps the records among their instants. An
instant between two occurrences is lost when a reading before it in the walk means a later
instant. In a spaced zone only skipped readings that are shifted forward can do that, so a run
loses nothing exactly when no skipped reading overtakes a reading after it, nor one that lies
before the start of the run.
-/

namespace Almanac

/-! ## Membership in the records -/

section Records

variable {clock : LocalClock} {behavior : Behavior} {now m : Moment} {visited : List Reading}

/-- The records of readings in order are the instants after the moment that exceed the instants
of all readings before theirs. -/
theorem mem_records_iff (hsorted : visited.Pairwise (· < ·)) :
    m ∈ records clock behavior now visited ↔
      ∃ r ∈ visited, clock.candidate? behavior r = some m ∧ now < m ∧
        ∀ r' ∈ visited, r' < r → ∀ x, clock.candidate? behavior r' = some x → x < m := by
  induction visited generalizing now with
  | nil => simp [records]
  | cons first rest ih =>
    obtain ⟨hfirst, hrest⟩ := List.pairwise_cons.mp hsorted
    have hleast : ∀ r' ∈ first :: rest, ¬r' < first := by
      intro r' hr' hlt
      rcases List.mem_cons.mp hr' with rfl | hr'
      · exact lt_irrefl _ hlt
      · exact lt_asymm hlt (hfirst r' hr')
    by_cases hkept : ∃ x, clock.candidate? behavior first = some x ∧ now < x
    · obtain ⟨x, hx, hlt⟩ := hkept
      rw [records_cons_of_lt hx hlt, List.mem_cons, ih hrest]
      constructor
      · intro hcase
        rcases hcase with rfl | ⟨r, hr, hm, hxm, hbefore⟩
        · exact ⟨first, List.mem_cons_self, hx, hlt, fun r' hr' h => (hleast r' hr' h).elim⟩
        · refine ⟨r, List.mem_cons_of_mem first hr, hm, hlt.trans hxm, ?_⟩
          intro r' hr' hr'r y hy
          rcases List.mem_cons.mp hr' with rfl | hr'
          · rw [hx, Option.some.injEq] at hy
            exact hy ▸ hxm
          · exact hbefore r' hr' hr'r y hy
      · intro hboth
        obtain ⟨r, hr, hm, hnow, hbefore⟩ := hboth
        rcases List.mem_cons.mp hr with rfl | hr
        · rw [hx, Option.some.injEq] at hm
          exact Or.inl hm.symm
        · refine Or.inr ⟨r, hr, hm, hbefore first List.mem_cons_self (hfirst r hr) x hx, ?_⟩
          exact fun r' hr' => hbefore r' (List.mem_cons_of_mem first hr')
    · have hnot : ∀ x, clock.candidate? behavior first = some x → ¬now < x :=
        fun x hx hlt => hkept ⟨x, hx, hlt⟩
      rw [records_cons_of_not_lt hnot, ih hrest]
      constructor
      · intro hboth
        obtain ⟨r, hr, hm, hnow, hbefore⟩ := hboth
        refine ⟨r, List.mem_cons_of_mem first hr, hm, hnow, ?_⟩
        intro r' hr' hr'r y hy
        rcases List.mem_cons.mp hr' with rfl | hr'
        · exact (Moment.le_of_not_lt (hnot y hy)).trans_lt hnow
        · exact hbefore r' hr' hr'r y hy
      · intro hboth
        obtain ⟨r, hr, hm, hnow, hbefore⟩ := hboth
        rcases List.mem_cons.mp hr with rfl | hr
        · exact (hnot m hm hnow).elim
        · exact ⟨r, hr, hm, hnow, fun r' hr' => hbefore r' (List.mem_cons_of_mem first hr')⟩

/-- Every record lies after the moment, and they come in order. -/
theorem sorted_records (clock : LocalClock) (behavior : Behavior) (visited : List Reading)
    (now : Moment) :
    (now :: records clock behavior now visited).Pairwise (· < ·) := by
  induction visited generalizing now with
  | nil => exact List.pairwise_singleton _ _
  | cons r rest ih =>
    by_cases hkept : ∃ x, clock.candidate? behavior r = some x ∧ now < x
    · obtain ⟨x, hx, hlt⟩ := hkept
      rw [records_cons_of_lt hx hlt]
      refine List.pairwise_cons.mpr ⟨?_, ih x⟩
      intro y hy
      rcases List.mem_cons.mp hy with rfl | hy
      · exact hlt
      · exact hlt.trans ((List.pairwise_cons.mp (ih x)).1 y hy)
    · rw [records_cons_of_not_lt fun x hx hlt => hkept ⟨x, hx, hlt⟩]
      exact ih now

end Records

/-! ## Between neighbouring occurrences -/

/-- Some of the moments lie before an instant and some after it. -/
def Encloses (ms : List Moment) (x : Moment) : Prop :=
  (∃ a ∈ ms, a < x) ∧ ∃ b ∈ ms, x < b

/-- Among moments in order, none of a set lies between two neighbours exactly when every one that
they enclose is the instant of one of them. -/
theorem isChain_iff_of_encloses {ms : List Moment} (hsorted : ms.Pairwise (· < ·))
    (instants : Set Moment) :
    (ms.IsChain fun a b => ∀ x ∈ instants, ¬(a < x ∧ x < b)) ↔
      ∀ x ∈ instants, Encloses ms x → ∃ y ∈ ms, y.utc = x.utc := by
  induction ms with
  | nil =>
    refine iff_of_true .nil ?_
    rintro x - ⟨⟨a, ha, -⟩, -⟩
    cases ha
  | cons first rest ih =>
    obtain ⟨hfirst, hrest⟩ := List.pairwise_cons.mp hsorted
    cases rest with
    | nil =>
      refine iff_of_true (.singleton first) ?_
      rintro x - ⟨⟨a, ha, hax⟩, ⟨b, hb, hxb⟩⟩
      rw [List.mem_singleton.mp ha] at hax
      rw [List.mem_singleton.mp hb] at hxb
      exact (lt_asymm hax hxb).elim
    | cons second rest =>
      have hsecond := (List.pairwise_cons.mp hrest).1
      have hfirstSecond := hfirst second List.mem_cons_self
      rw [List.isChain_cons_cons, ih hrest]
      constructor
      · rintro ⟨hclear, htail⟩ x hx ⟨⟨a, ha, hax⟩, ⟨b, hb, hxb⟩⟩
        have hfirstLt : first < x := by
          rcases List.mem_cons.mp ha with rfl | ha
          · exact hax
          · exact (hfirst a ha).trans hax
        by_cases hsecondLt : second < x
        · have hbMem : b ∈ second :: rest := by
            rcases List.mem_cons.mp hb with rfl | hb
            · exact (lt_asymm hxb hfirstLt).elim
            · exact hb
          obtain ⟨y, hy, heq⟩ := htail x hx
            ⟨⟨second, List.mem_cons_self, hsecondLt⟩, ⟨b, hbMem, hxb⟩⟩
          exact ⟨y, List.mem_cons_of_mem first hy, heq⟩
        · have hnot : ¬x < second := fun hlt => hclear x hx ⟨hfirstLt, hlt⟩
          exact ⟨second, List.mem_cons_of_mem first List.mem_cons_self,
            le_antisymm (Moment.le_of_not_lt hnot) (Moment.le_of_not_lt hsecondLt)⟩
      · intro h
        refine ⟨?_, ?_⟩
        · intro x hx hmem
          obtain ⟨hfirstLt, hltSecond⟩ := hmem
          obtain ⟨y, hy, heq⟩ := h x hx ⟨⟨first, List.mem_cons_self, hfirstLt⟩,
            ⟨second, List.mem_cons_of_mem first List.mem_cons_self, hltSecond⟩⟩
          rw [Moment.lt_iff_utc, ← heq] at hfirstLt hltSecond
          rcases List.mem_cons.mp hy with rfl | hy
          · exact lt_irrefl _ hfirstLt
          · rcases List.mem_cons.mp hy with rfl | hy
            · exact lt_irrefl _ hltSecond
            · exact lt_asymm hltSecond (hsecond y hy)
        · intro x hx hmem
          obtain ⟨⟨a, ha, hax⟩, ⟨b, hb, hxb⟩⟩ := hmem
          obtain ⟨y, hy, heq⟩ := h x hx ⟨⟨a, List.mem_cons_of_mem first ha, hax⟩,
            ⟨b, List.mem_cons_of_mem first hb, hxb⟩⟩
          rcases List.mem_cons.mp hy with rfl | hy
          · have hya := hfirst a ha
            rw [Moment.lt_iff_utc, heq] at hya
            exact (lt_asymm hya hax).elim
          · exact ⟨y, hy, heq⟩

/-! ## What a run loses -/

namespace Recurrence

variable {r : Recurrence} {clock : LocalClock} {start : Moment} {anchor : Date}

/-- The occurrences found by a number of calls from a fresh state on. -/
def run (r : Recurrence) (clock : LocalClock) (start : Moment) (k : Nat) : List Moment :=
  occurrences (r.schedules clock {} .unbounded start k).result

/-- The readings of a run, counted from the local date of its start. -/
def readingsFrom (r : Recurrence) (clock : LocalClock) (start : Moment) : Set Reading :=
  {x | ∃ s, (clock.showing start).local? = some s ∧ x ∈ r.kind.readings s.date}

/-- The instants that the readings of a run mean. -/
def instantsFrom (r : Recurrence) (clock : LocalClock) (start : Moment) : Set Moment :=
  {x | ∃ reading ∈ r.readingsFrom clock start, clock.candidate? r.behavior reading = some x}

/-- No instant of a reading lies between two occurrences that follow each other. -/
def LosesNothing (r : Recurrence) (clock : LocalClock) (start : Moment) (k : Nat) : Prop :=
  (r.run clock start k).IsChain fun a b =>
    ∀ x ∈ r.instantsFrom clock start, ¬(a < x ∧ x < b)

/-- An instant is meant by a reading after the start, and no skipped reading between the two is
shifted to that instant or beyond. -/
def MetInOrder (r : Recurrence) (clock : LocalClock) (start x : Moment) : Prop :=
  ∃ s reading x', (clock.showing start).local? = some s ∧
    reading ∈ r.readingsFrom clock start ∧ s < reading ∧
    clock.candidate? r.behavior reading = some x' ∧ x'.utc = x.utc ∧
    ∀ skipped ∈ r.readingsFrom clock start, s < skipped → skipped < reading →
      clock.isSkipped skipped = true → ∀ y, clock.candidate? r.behavior skipped = some y → y < x

/-- A run that starts at a reading finds the records of a stretch of its readings. -/
theorem exists_traverses_run {s : Reading} {rule : DateRule} {times : TimesOfDay}
    {dates : Set Date} (hcalendar : r.kind.calendar? = some (rule, times))
    (hwalk : rule.WalksThrough s.date dates) (hs : (clock.showing start).local? = some s)
    (k : Nat) :
    ∃ visited q, Traverses (Almanac.readings dates times) s visited q ∧
      r.run clock start k = records clock r.behavior start visited := by
  have hstarted : ({} : Cursor).started rule times (clock.showing start) =
      ({} : Cursor).start rule times s := by
    unfold Cursor.started
    rw [hs]
    rfl
  change ∃ visited q, _ ∧ occurrences (r.schedulesFrom clock k {} start).result = _
  cases hstart : ({} : Cursor).start rule times s with
  | ok c =>
    exact exists_traverses_schedulesFrom hcalendar hwalk k rfl (hstarted.trans hstart)
      (Cursor.passed_of_start hwalk hstart)
  | error fault =>
    refine ⟨[], s, .nil, ?_⟩
    cases k with
    | zero => rfl
    | succ k =>
      have hoccurrence : r.occurrence clock (resumed clock {} start).cursor
          (clock.showing start) = (.error fault, {}) := by
        rw [resumed_of_continuous rfl, occurrence_of_calendar? hcalendar, Cursor.nextOccurrence,
          hstarted, hstart]
      rw [result_schedulesFrom_of_error (next_of_error hoccurrence).1]
      rfl

section Spaced

variable (hspaced : clock.zone.Spaced) (hday : clock.zone.HasDayOffsets)

include hspaced hday

/-- An enclosed instant is found exactly when it is met in order. -/
theorem exists_mem_records_iff {s q : Reading} {visited : List Reading} {x : Moment}
    (hs : (clock.showing start).local? = some s)
    (htraverses : Traverses (r.readingsFrom clock start) s visited q)
    (hencloses : Encloses (records clock r.behavior start visited) x) :
    (∃ y ∈ records clock r.behavior start visited, y.utc = x.utc) ↔
      r.MetInOrder clock start x := by
  obtain ⟨⟨a, ha, hax⟩, ⟨b, hb, hxb⟩⟩ := hencloses
  have hstart : start < x := by
    have hstartA :=
      (List.pairwise_cons.mp (sorted_records clock r.behavior visited start)).1 a ha
    exact hstartA.trans hax
  constructor
  · intro hboth
    obtain ⟨y, hy, heq⟩ := hboth
    obtain ⟨reading, hreading, hcandidate, -, hbefore⟩ :=
      (mem_records_iff htraverses.sorted).mp hy
    obtain ⟨hmem, hafter, hle⟩ := htraverses.mem_iff.mp hreading
    refine ⟨s, reading, y, hs, hmem, hafter, hcandidate, heq, ?_⟩
    intro skipped hskipped hsSkipped hlt _ z hz
    have hvisited : skipped ∈ visited :=
      htraverses.mem_iff.mpr ⟨hskipped, hsSkipped, hlt.le.trans hle⟩
    have hzy := hbefore skipped hvisited hlt z hz
    rwa [Moment.lt_iff_utc, heq] at hzy
  · intro hboth
    obtain ⟨s', reading, x', hs', hmem, hafter, hcandidate, heq, hskipped⟩ := hboth
    rw [hs, Option.some.injEq] at hs'
    subst hs'
    -- Every reading between the start and this one means an earlier instant.
    have hbefore : ∀ r' ∈ visited, r' < reading → ∀ y,
        clock.candidate? r.behavior r' = some y → y < x := by
      intro r' hr' hlt y hy
      obtain ⟨hr'Mem, hsr', -⟩ := htraverses.mem_iff.mp hr'
      cases hshown : clock.isSkipped r' with
      | true => exact hskipped r' hr'Mem hsr' hlt hshown y hy
      | false =>
        have hyx' := LocalClock.lt_of_candidate? hspaced hday hy hcandidate hshown hlt
        rwa [Moment.lt_iff_utc, heq] at hyx'
    -- The stretch goes on beyond it, to the reading of an occurrence after the instant.
    have hvisited : reading ∈ visited := by
      obtain ⟨last, hlast, hcandidateB, -, -⟩ := (mem_records_iff htraverses.sorted).mp hb
      have hlastLe := (htraverses.mem_iff.mp hlast).2.2
      by_contra hnot
      have hqlt : ¬reading ≤ q := fun hle => hnot (htraverses.mem_iff.mpr ⟨hmem, hafter, hle⟩)
      have hlastLt : last < reading := hlastLe.trans_lt (not_le.mp hqlt)
      have hbx := hbefore last hlast hlastLt b hcandidateB
      exact lt_asymm hbx hxb
    refine ⟨x', (mem_records_iff htraverses.sorted).mpr
      ⟨reading, hvisited, hcandidate, ?_, ?_⟩, heq⟩
    · rw [Moment.lt_iff_utc, heq]
      exact hstart
    · intro r' hr' hlt y hy
      have hyx := hbefore r' hr' hlt y hy
      rw [Moment.lt_iff_utc, heq]
      exact hyx

/-- When skipped readings are dropped, every enclosed instant is met in order. -/
theorem metInOrder_of_skip {s q : Reading} {visited : List Reading} {x : Moment}
    (hs : (clock.showing start).local? = some s)
    (htraverses : Traverses (r.readingsFrom clock start) s visited q)
    (hskip : r.behavior.skipped = .skip) (hx : x ∈ r.instantsFrom clock start)
    (hencloses : Encloses (records clock r.behavior start visited) x) :
    r.MetInOrder clock start x := by
  obtain ⟨⟨a, ha, hax⟩, -⟩ := hencloses
  obtain ⟨reading, hmem, hcandidate⟩ := hx
  have hshown : ∀ r' y, clock.candidate? r.behavior r' = some y → clock.isSkipped r' = false := by
    intro r' y hy
    by_contra hskipped
    rw [Bool.not_eq_false] at hskipped
    rw [LocalClock.candidate?_of_skipped hskipped, hskip] at hy
    cases hy
  refine ⟨s, reading, x, hs, hmem, ?_, hcandidate, rfl, ?_⟩
  · -- A reading up to the start means an instant before all occurrences.
    by_contra hle
    obtain ⟨ra, hra, hcandidateA, -, -⟩ := (mem_records_iff htraverses.sorted).mp ha
    have hsra := (htraverses.mem_iff.mp hra).2.1
    have hlt : reading < ra := (not_lt.mp hle).trans_lt hsra
    have hxa := LocalClock.lt_of_candidate? hspaced hday hcandidate hcandidateA
      (hshown reading x hcandidate) hlt
    exact lt_asymm hxa hax
  · intro skipped _ _ _ hskipped y hy
    rw [hshown skipped y hy] at hskipped
    cases hskipped

omit hspaced hday in
/-- A run without readings loses nothing. -/
theorem losesNothing_of_forall_not_mem (h : ∀ x, x ∉ r.readingsFrom clock start) (k : Nat) :
    r.LosesNothing clock start k ∧ ∀ x, x ∉ r.instantsFrom clock start := by
  have hinstants : ∀ x, x ∉ r.instantsFrom clock start := by
    intro x hmem
    obtain ⟨reading, hmem, -⟩ := hmem
    exact h reading hmem
  exact ⟨(List.pairwise_of_forall fun a b x hx => (hinstants x hx).elim).isChain, hinstants⟩

omit hspaced hday in
/-- A run without readings, or one that finds the records of a stretch of its readings. -/
theorem run_cases (r : Recurrence) (clock : LocalClock) (start : Moment) (k : Nat) :
    (∀ x, x ∉ r.readingsFrom clock start) ∨
      ∃ s visited q, (clock.showing start).local? = some s ∧
        Traverses (r.readingsFrom clock start) s visited q ∧
        r.run clock start k = records clock r.behavior start visited := by
  cases hs : (clock.showing start).local? with
  | none =>
    refine Or.inl ?_
    intro x hmem
    obtain ⟨s, hs', -⟩ := hmem
    rw [hs] at hs'
    cases hs'
  | some s =>
    cases hcalendar : r.kind.calendar? with
    | none =>
      refine Or.inl ?_
      intro x hmem
      obtain ⟨s', -, hx⟩ := hmem
      rw [RecurrenceKind.readings_of_calendar?_eq_none hcalendar] at hx
      exact hx
    | some calendar =>
      obtain ⟨rule, times⟩ := calendar
      obtain ⟨dates, hdates⟩ := RecurrenceKind.exists_dates hcalendar
      obtain ⟨hwalk, hreadings⟩ := hdates s.date
      obtain ⟨visited, q, htraverses, hrun⟩ := exists_traverses_run hcalendar hwalk hs k
      have hfrom : r.readingsFrom clock start = Almanac.readings (dates s.date) times := by
        ext x
        rw [← hreadings]
        constructor
        · intro hboth
          obtain ⟨s', hs', hx⟩ := hboth
          rw [hs, Option.some.injEq] at hs'
          rw [hs']
          exact hx
        · exact fun hx => ⟨s, hs, hx⟩
      rw [← hfrom] at htraverses
      exact Or.inr ⟨s, visited, q, rfl, htraverses, hrun⟩

/-- In a spaced zone, a run loses nothing exactly when every instant that its occurrences enclose
is met in order; when skipped readings are dropped, it never loses anything. -/
theorem losesNothing_iff_metInOrder (r : Recurrence) (start : Moment) (k : Nat) :
    (r.LosesNothing clock start k ↔
      ∀ x ∈ r.instantsFrom clock start, Encloses (r.run clock start k) x →
        r.MetInOrder clock start x) ∧
      (r.behavior.skipped = .skip → r.LosesNothing clock start k) := by
  rcases r.run_cases clock start k with hnone | ⟨s, visited, q, hs, htraverses, hrun⟩
  · obtain ⟨hloses, hinstants⟩ := losesNothing_of_forall_not_mem hnone k
    exact ⟨iff_of_true hloses fun x hx => (hinstants x hx).elim, fun _ => hloses⟩
  · have hsorted := (List.pairwise_cons.mp (sorted_records clock r.behavior visited start)).2
    have hiff : r.LosesNothing clock start k ↔
        ∀ x ∈ r.instantsFrom clock start, Encloses (r.run clock start k) x →
          r.MetInOrder clock start x := by
      unfold LosesNothing
      rw [hrun, isChain_iff_of_encloses hsorted]
      refine forall₃_congr fun x hx hencloses => ?_
      exact exists_mem_records_iff hspaced hday hs htraverses hencloses
    refine ⟨hiff, fun hskip => hiff.mpr fun x hx hencloses => ?_⟩
    rw [hrun] at hencloses
    exact metInOrder_of_skip hspaced hday hs htraverses hskip hx hencloses

end Spaced

section Sample

/-- The clock of New York. -/
def newYork : LocalClock := { id := "America/New_York", zone := Zone.Table.newYork }

/-- Every day at 01:00, 02:30 and 03:10. -/
def nightly (behavior : Behavior) : Recurrence where
  behavior
  kind := .daily
    { times := ⟨[⟨3600, 0, by decide, TimeOfDay.midnight.nano_lt⟩,
        ⟨9000, 0, by decide, TimeOfDay.midnight.nano_lt⟩,
        ⟨11400, 0, by decide, TimeOfDay.midnight.nano_lt⟩], by decide, by decide⟩
      selection := .everyDays 1
      proper := rfl }

/-- An instant of 8 March 2026 in New York, by its second of the day in universal time. -/
def springForward (second : Nat) (offset : Int) (h : second < 86400) : Moment :=
  ⟨⟨⟨20520, by decide⟩, ⟨second, 0, h, TimeOfDay.midnight.nano_lt⟩⟩, offset⟩

/-- A reading by its day, its second of the day and its nanosecond. -/
def readingOn (day : Int) (second nano : Nat)
    (h : (firstDay ≤ day ∧ day ≤ lastDay) ∧ second < 86400 ∧ nano < 2000000000) : Reading :=
  ⟨⟨day, h.1⟩, ⟨second, nano, h.2.1, h.2.2⟩⟩

/-- An instant by its reading in universal time. -/
def instantOn (day : Int) (second nano : Nat) (offset : Int)
    (h : (firstDay ≤ day ∧ day ≤ lastDay) ∧ second < 86400 ∧ nano < 2000000000) : Moment :=
  ⟨readingOn day second nano h, offset⟩

/-- Midnight of the day on which clocks jump from 02:00 to 03:00. -/
def springMidnight : Moment := springForward 18000 (-18000) (by decide)

theorem spaced_newYork : newYork.zone.Spaced := by
  decide +kernel

theorem hasDayOffsets_newYork : newYork.zone.HasDayOffsets :=
  ⟨by decide, by decide +kernel⟩

theorem losesNothing_iff_metInOrder_newYork :
    newYork.zone.Spaced ∧ newYork.zone.HasDayOffsets ∧
      ((nightly {}).LosesNothing newYork springMidnight 3 ↔
        ∀ x ∈ (nightly {}).instantsFrom newYork springMidnight,
          Encloses ((nightly {}).run newYork springMidnight 3) x →
            (nightly {}).MetInOrder newYork springMidnight x) ∧
      (nightly { skipped := .skip }).LosesNothing newYork springMidnight 3 :=
  ⟨spaced_newYork, hasDayOffsets_newYork,
    (losesNothing_iff_metInOrder spaced_newYork hasDayOffsets_newYork _ _ 3).1,
    (losesNothing_iff_metInOrder spaced_newYork hasDayOffsets_newYork _ _ 3).2 rfl⟩

/-- The skipped reading 02:30 means the instant at which clocks show 03:30; the run goes on after
it and loses 03:10. -/
theorem not_losesNothing_newYork :
    newYork.zone.Spaced ∧ newYork.zone.HasDayOffsets ∧
      ¬(nightly {}).LosesNothing newYork springMidnight 2 := by
  refine ⟨spaced_newYork, hasDayOffsets_newYork, fun h => ?_⟩
  have hrun : (nightly {}).run newYork springMidnight 2 =
      [springForward 21600 (-18000) (by decide), springForward 27000 (-14400) (by decide)] := by
    decide +kernel
  have hlost : springForward 25800 (-14400) (by decide) ∈
      (nightly {}).instantsFrom newYork springMidnight := by
    refine ⟨⟨⟨20520, by decide⟩, ⟨11400, 0, by decide, by decide⟩⟩, ?_, by decide +kernel⟩
    exact ⟨⟨⟨20520, by decide⟩, ⟨0, 0, by decide, by decide⟩⟩, by decide +kernel,
      ⟨by decide, by decide⟩, by decide⟩
  unfold LosesNothing at h
  rw [hrun, List.isChain_cons_cons] at h
  exact h.1 _ hlost ⟨by decide, by decide⟩

end Sample

end Recurrence

end Almanac
