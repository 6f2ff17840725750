import Almanac.Proofs.Recurrence.Run

/-!
# Started cursors

Between calls the cursor of a recurrence is fresh, or it has been started: it has passed a reading
of the recurrence, or it got stuck after one because the rule has no next date. The call that
starts it fixes the date that all dates are counted from. Whatever calls follow, the cursor goes on
through the readings counted from this date, and what a call finds is the instant of one of them.
-/

namespace Almanac

namespace Cursor

/-- A cursor that cannot go on: the times of its date are over, and the rule has no next date. -/
inductive Stuck (rule : DateRule) (times : TimesOfDay) (fault : Fault) : Cursor → Prop
  | mk {date : Date} {last time : TimeOfDay} {slots : WeekSlots}
      (hnext : rule.next date slots = .error fault) (hover : ∀ v ∈ times.toList, v ≤ last) :
      Stuck rule times fault ⟨times.rotatedAfter time, some date, some last, slots⟩

/-- A cursor that has been started on a set of dates: it has passed a reading, or it is stuck. -/
inductive Started (rule : DateRule) (times : TimesOfDay) (dates : Set Date) : Cursor → Prop
  | passed {p : Reading} {c : Cursor} (h : Passed dates times p c) : Started rule times dates c
  | stuck {fault : Fault} {c : Cursor} (h : Stuck rule times fault c) : Started rule times dates c

/-- The date that a call counts from: the local date of the call if it starts the cursor, and the
earlier one otherwise. -/
def anchorAt (c : Cursor) (earlier : Option Date) (now : Moment) : Option Date :=
  if c.isFresh then now.local?.map (·.date) else earlier

/-- The cursor is fresh, or it has been started on the dates counted from an anchor. -/
def CountsFrom (rule : DateRule) (times : TimesOfDay) (dates : Date → Set Date)
    (anchor : Option Date) (c : Cursor) : Prop :=
  c = {} ∨ ∃ a, anchor = some a ∧ Started rule times (dates a) c

variable {rule : DateRule} {times : TimesOfDay} {dates : Set Date} {behavior : Behavior}
  {clock : LocalClock} {now m : Moment} {bound : Nat} {p : Reading} {visited : List Reading}
  {c c₁ c' : Cursor} {fault : Fault} {result : Except Fault Moment} {a : Date}

/-- A cursor is started once. -/
theorem started_of_isFresh_eq_false (h : c.isFresh = false) : c.started rule times now = .ok c := by
  unfold Cursor.started
  rw [h]
  rfl

/-! ## Stuck cursors -/

/-- A stuck cursor fails at every step and stays stuck. -/
theorem Stuck.advance (h : Stuck rule times fault c) :
    ∃ c', c.advance rule = (.error fault, c') ∧ Stuck rule times fault c' := by
  obtain @⟨date, last, time, slots, hnext, hover⟩ := h
  obtain ⟨u, rest, hu, hqueue⟩ := times.exists_rotatedAfter time
  refine ⟨⟨times.rotatedAfter u, some date, some last, slots⟩, ?_, .mk hnext hover⟩
  rw [hqueue, advance_of_over (any_le_eq_true (hover u hu)), hnext,
    TimesOfDay.rotatedAfter_tail hqueue]

theorem Stuck.isFresh (h : Stuck rule times fault c) : c.isFresh = false := by
  cases h
  rfl

/-- A search with a stuck cursor fails at once. -/
theorem Stuck.search (h : Stuck rule times fault c) (behavior : Behavior) (clock : LocalClock)
    (now : Moment) (bound : Nat) :
    ∃ c', search rule behavior clock now (bound + 1) c = (.error fault, c') := by
  obtain ⟨c', hstep, -⟩ := h.advance
  exact ⟨c', search_of_fault hstep⟩

/-- A step from a reading fails only when the times of its date are over and the rule has no next
date. -/
theorem Passed.exists_of_advance_error (h : Passed dates times p c)
    (hstep : c.advance rule = (.error fault, c')) :
    ∃ u slots, DateRule.Reached dates p.date slots ∧ rule.next p.date slots = .error fault ∧
      (∀ v ∈ times.toList, v ≤ p.time) ∧
      c' = ⟨times.rotatedAfter u, some p.date, some p.time, slots⟩ := by
  cases h with
  | @on date time slots hreached =>
    have hcases := stepFrom_advance rule times date time slots
    rw [hstep] at hcases
    cases hcases with
    | @ends u _ hover hnext => exact ⟨u, slots, hreached, hnext, hover, rfl⟩
  | @within start slots hreached hafter =>
    obtain ⟨u, rest, -, hqueue⟩ := times.exists_rotatedAfter p.time
    rw [hqueue, advance_of_stay rfl] at hstep
    cases hstep
  | before hreached hlt hleast =>
    obtain ⟨u, rest, -, hqueue⟩ := times.exists_toList
    rw [hqueue, advance_of_stay rfl] at hstep
    cases hstep

/-- A cursor that has passed a reading is stuck once a step fails. -/
theorem Passed.stuck (h : Passed dates times p c) (hstep : c.advance rule = (.error fault, c')) :
    Stuck rule times fault c' := by
  obtain ⟨u, slots, -, hnext, hover, rfl⟩ := h.exists_of_advance_error hstep
  exact .mk hnext hover

/-! ## Started cursors -/

theorem Started.isFresh (h : Started rule times dates c) : c.isFresh = false := by
  cases h with
  | passed h => cases h <;> rfl
  | stuck h => exact h.isFresh

theorem Started.started (h : Started rule times dates c) : c.started rule times now = .ok c :=
  started_of_isFresh_eq_false h.isFresh

theorem Started.stuck_of_advance (h : Started rule times dates c)
    (hstep : c.advance rule = (.error fault, c')) : Stuck rule times fault c' := by
  cases h with
  | passed h => exact h.stuck hstep
  | stuck h =>
    obtain ⟨c₁, hfault, hstuck⟩ := h.advance
    rw [hfault] at hstep
    cases hstep
    exact hstuck

/-- A step that succeeds goes to a reading. -/
theorem Started.advance (hwalk : rule.WalksThrough a dates) (h : Started rule times dates c)
    {r : Reading} (hstep : c.advance rule = (.ok r, c')) :
    r ∈ readings dates times ∧ Started rule times dates c' := by
  cases h with
  | passed h =>
    obtain ⟨hleast, hpassed⟩ := h.advance hwalk hstep
    exact ⟨hleast.1.1, .passed hpassed⟩
  | stuck h =>
    obtain ⟨c₁, hfault, -⟩ := h.advance
    rw [hfault] at hstep
    cases hstep

theorem Started.steps (hwalk : rule.WalksThrough a dates) (h : Started rule times dates c)
    (hsteps : Steps rule c visited c') : Started rule times dates c' := by
  induction hsteps with
  | nil => exact h
  | cons hstep _ ih => exact ih (h.advance hwalk hstep).2

/-- A search leaves a started cursor started, and what it finds is the instant of a reading. -/
theorem Started.search (hwalk : rule.WalksThrough a dates) (h : Started rule times dates c)
    (hsearch : Cursor.search rule behavior clock now bound c = (result, c')) :
    Started rule times dates c' ∧
      ∀ m, result = .ok m → now < m ∧
        ∃ r ∈ readings dates times, clock.candidate? behavior r = some m := by
  obtain ⟨c₁, left, hsteps, -, -, hend⟩ := exists_steps_of_search hsearch
  have hstarted := h.steps hwalk hsteps
  cases hend with
  | limit =>
    refine ⟨hstarted, fun m hm => ?_⟩
    cases hm
  | fault hstep =>
    refine ⟨.stuck (hstarted.stuck_of_advance hstep), fun m hm => ?_⟩
    cases hm
  | @found left r m _ hstep hm hlt =>
    obtain ⟨hr, hstarted'⟩ := hstarted.advance hwalk hstep
    refine ⟨hstarted', fun m' hm' => ?_⟩
    cases hm'
    exact ⟨hlt, r, hr, hm⟩

/-! ## Starting a cursor -/

/-- A fresh cursor is started at the local reading of the moment. -/
theorem exists_start_of_started (h : ({} : Cursor).started rule times now = .ok c) :
    ∃ s, now.local? = some s ∧ ({} : Cursor).start rule times s = .ok c := by
  have hfresh : ({} : Cursor).isFresh = true := rfl
  unfold Cursor.started at h
  rw [if_pos hfresh] at h
  cases hlocal : now.local? with
  | none =>
    rw [hlocal] at h
    cases h
  | some s =>
    rw [hlocal] at h
    exact ⟨s, rfl, h⟩

/-- A fresh cursor does not get started if the moment has no local reading, or if the start from
this reading fails. -/
theorem started_eq_error_cases {fault : Fault}
    (h : ({} : Cursor).started rule times now = .error fault) :
    fault = .panic .localReading ∧ now.local? = none ∨
      ∃ s, now.local? = some s ∧ ({} : Cursor).start rule times s = .error fault := by
  have hfresh : ({} : Cursor).isFresh = true := rfl
  unfold Cursor.started at h
  rw [if_pos hfresh] at h
  cases hlocal : now.local? with
  | none =>
    rw [hlocal] at h
    cases h
    exact Or.inl ⟨rfl, rfl⟩
  | some s =>
    rw [hlocal] at h
    exact Or.inr ⟨s, rfl, h⟩

theorem exists_advance_of_start {start : Reading}
    (h : ({} : Cursor).start rule times start = .ok c) :
    ∃ r c', c.advance rule = (.ok r, c') := by
  have hcases := startFrom_start rule times start
  rw [h] at hcases
  cases hcases with
  | today =>
    obtain ⟨u, rest, -, hqueue⟩ := times.exists_rotatedAfter start.time
    rw [hqueue, advance_of_stay rfl]
    exact ⟨_, _, rfl⟩
  | later =>
    obtain ⟨u, rest, -, hqueue⟩ := times.exists_toList
    rw [hqueue, advance_of_stay rfl]
    exact ⟨_, _, rfl⟩
  | @goOn date =>
    obtain ⟨u, rest, hqueue⟩ : ∃ u rest, (if date = start.date then times.rotatedAfter start.time
        else times.toList) = u :: rest := by
      split
      · obtain ⟨u, rest, -, hqueue⟩ := times.exists_rotatedAfter start.time
        exact ⟨u, rest, hqueue⟩
      · obtain ⟨u, rest, -, hqueue⟩ := times.exists_toList
        exact ⟨u, rest, hqueue⟩
    rw [hqueue, advance_of_stay rfl]
    exact ⟨_, _, rfl⟩

/-- A cursor that has just been started does not fail at its first step. -/
theorem exists_advance_of_started (h : ({} : Cursor).started rule times now = .ok c) :
    ∃ r c', c.advance rule = (.ok r, c') := by
  obtain ⟨s, -, hstart⟩ := exists_start_of_started h
  exact exists_advance_of_start hstart

/-! ## Calls and their anchors -/

section Anchor

variable {dates : Date → Set Date} {anchor : Option Date}
  (hwalk : ∀ a, rule.WalksThrough a (dates a))

include hwalk

/-- A call goes on from a cursor that has been started on the dates counted from its anchor. -/
theorem CountsFrom.started (h : CountsFrom rule times dates anchor c)
    (hstarted : c.started rule times now = .ok c₁) :
    ∃ a, c.anchorAt anchor now = some a ∧ Started rule times (dates a) c₁ := by
  rcases h with rfl | ⟨a, rfl, h⟩
  · obtain ⟨s, hs, hstart⟩ := exists_start_of_started hstarted
    refine ⟨s.date, ?_, .passed (passed_of_start (hwalk s.date) hstart)⟩
    unfold anchorAt
    rw [hs]
    rfl
  · rw [h.started] at hstarted
    cases hstarted
    refine ⟨a, ?_, h⟩
    unfold anchorAt
    rw [h.isFresh]
    rfl

/-- A call keeps counting from its anchor, and finds the instant of a reading on one of the dates
counted from there. -/
theorem CountsFrom.nextOccurrence (h : CountsFrom rule times dates anchor c)
    (hnext : c.nextOccurrence rule times behavior clock now = (result, c')) :
    CountsFrom rule times dates (c.anchorAt anchor now) c' ∧
      ∀ m, result = .ok m → now < m ∧ ∃ a, c.anchorAt anchor now = some a ∧
        ∃ r ∈ readings (dates a) times, clock.candidate? behavior r = some m := by
  unfold Cursor.nextOccurrence at hnext
  cases hstarted : c.started rule times now with
  | error fault =>
    rw [hstarted] at hnext
    cases hnext
    refine ⟨?_, fun m hm => ?_⟩
    · rcases h with rfl | ⟨a, rfl, h⟩
      · exact Or.inl rfl
      · rw [h.started] at hstarted
        cases hstarted
    · cases hm
  | ok c₁ =>
    rw [hstarted] at hnext
    obtain ⟨a, ha, hc₁⟩ := h.started hwalk hstarted
    obtain ⟨hafter, hfound⟩ := hc₁.search (hwalk a) hnext
    exact ⟨Or.inr ⟨a, ha, hafter⟩, fun m hm => ⟨(hfound m hm).1, a, ha, (hfound m hm).2⟩⟩

end Anchor

end Cursor

namespace Recurrence

variable {r : Recurrence} {clock : LocalClock} {rule : DateRule} {times : TimesOfDay}
  {dates : Date → Set Date} {anchor : Option Date} {state : RecurrenceState} {now : Moment}

theorem countsFrom_resumed (h : Cursor.CountsFrom rule times dates anchor state.cursor) :
    Cursor.CountsFrom rule times dates anchor (resumed clock state now).cursor := by
  rcases resumed_eq_or clock state now with heq | heq
  · rw [heq]
    exact Or.inl rfl
  · rwa [heq]

variable (hcalendar : r.kind.calendar? = some (rule, times))
  (hwalk : ∀ a, rule.WalksThrough a (dates a))

include hcalendar hwalk

/-- What one call of a recurrence preserves and finds. -/
theorem countsFrom_next (h : Cursor.CountsFrom rule times dates anchor state.cursor)
    (clock : LocalClock) (now : Moment) :
    Cursor.CountsFrom rule times dates
        ((resumed clock state now).cursor.anchorAt anchor (clock.showing now))
        (r.next clock state now).state.cursor ∧
      ∀ s, (r.next clock state now).result = .ok s → clock.showing now < s.occursOn ∧
        ∃ a, (resumed clock state now).cursor.anchorAt anchor (clock.showing now) = some a ∧
          ∃ reading ∈ readings (dates a) times,
            clock.candidate? r.behavior reading = some s.occursOn := by
  obtain ⟨result, c', hnext⟩ : ∃ result c', (resumed clock state now).cursor.nextOccurrence rule
      times r.behavior clock (clock.showing now) = (result, c') := ⟨_, _, rfl⟩
  obtain ⟨hcounts, hfound⟩ := (countsFrom_resumed h).nextOccurrence hwalk hnext
  have hoccurrence := (occurrence_of_calendar? hcalendar).trans hnext
  refine ⟨?_, fun s hs => ?_⟩
  · rw [cursor_next, hoccurrence]
    exact hcounts
  · obtain ⟨m, c, hm, rfl, -⟩ := occurrence_of_next_ok hs
    rw [hoccurrence, Prod.mk.injEq] at hm
    exact hfound m hm.1

/-- Between calls, the cursor counts from some anchor. -/
theorem Reachable.exists_countsFrom (h : r.Reachable state) :
    ∃ anchor, Cursor.CountsFrom rule times dates anchor state.cursor := by
  induction h with
  | fresh => exact ⟨none, Or.inl rfl⟩
  | next clock now _ ih =>
    obtain ⟨anchor, hanchor⟩ := ih
    exact ⟨_, (countsFrom_next hcalendar hwalk hanchor clock now).1⟩

end Recurrence

end Almanac
