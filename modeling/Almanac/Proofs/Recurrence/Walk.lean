import Almanac.Proofs.Clock.Shift
import Almanac.Proofs.Recurrence.Dates
import Almanac.Proofs.Recurrence.Rotation

/-!
# The walk of the cursor

The readings of a recurrence are its times of day on its dates. A cursor that has passed a
reading advances to the first of them after it, and has then passed that one. Advancing again
and again therefore goes through all readings in order and leaves none of them out; what a call
examines is a stretch of this sequence.
-/

namespace Almanac

/-- The readings at some times of day on some dates. -/
def readings (dates : Set Date) (times : TimesOfDay) : Set Reading :=
  {r | r.date ∈ dates ∧ r.time ∈ times.toList}

/-- What comes after a reading is not on an earlier date. -/
theorem Reading.date_le_of_lt {a b : Reading} (h : a < b) : a.date ≤ b.date := by
  rcases h with hlater | ⟨hsame, -⟩
  · exact hlater.le
  · exact hsame.le

section Next

variable {dates : Set Date} {times : TimesOfDay} {p : Reading} {date : Date} {t u : TimeOfDay}

/-- The next reading on the same date. -/
theorem isLeast_same_date (hdate : date ∈ dates) (hu : u ∈ times.toList) (htu : t < u)
    (hleast : ∀ v ∈ times.toList, t < v → u ≤ v) :
    IsLeast {x ∈ readings dates times | ⟨date, t⟩ < x} ⟨date, u⟩ := by
  refine ⟨⟨⟨hdate, hu⟩, Or.inr ⟨rfl, htu⟩⟩, ?_⟩
  rintro x ⟨⟨-, hx⟩, hlater | ⟨hsame, hlt⟩⟩
  · exact Or.inl hlater
  · exact Or.inr ⟨hsame, hleast x.time hx hlt⟩

/-- While a time of the day is left, the next reading has the first time of the rotation. -/
theorem isLeast_of_hasAfter {rest : List TimeOfDay} (hdate : p.date ∈ dates)
    (hafter : times.hasAfter p.time = true) (hu : u ∈ times.toList)
    (hqueue : times.rotatedAfter p.time = u :: rest) :
    IsLeast {x ∈ readings dates times | p < x} ⟨p.date, u⟩ := by
  obtain ⟨v, hv, hlt⟩ := TimesOfDay.hasAfter_iff.mp hafter
  exact isLeast_same_date hdate hu (TimesOfDay.head_le_of_lt hqueue hv hlt).1
    fun w hw hlt => (TimesOfDay.head_le_of_lt hqueue hw hlt).2

/-- The next reading on a later date. -/
theorem isLeast_later_date (hdate : date ∈ dates) (hu : u ∈ times.toList) (hlt : p.date < date)
    (hfirst : ∀ v ∈ times.toList, u ≤ v)
    (hleast : ∀ x ∈ readings dates times, p < x → date ≤ x.date) :
    IsLeast {x ∈ readings dates times | p < x} ⟨date, u⟩ := by
  refine ⟨⟨⟨hdate, hu⟩, Or.inl hlt⟩, ?_⟩
  intro x hmem
  obtain ⟨hx, hpx⟩ := hmem
  have hle := hleast x hx hpx
  by_cases hsame : date = x.date
  · exact Or.inr ⟨hsame, hfirst x.time hx.2⟩
  · have hne : date.day ≠ x.date.day := fun heq => hsame (Date.ext_day heq)
    rw [Date.le_iff] at hle
    have hlater : date < x.date := by
      rw [Date.lt_iff]
      omega
    exact Or.inl hlater

/-- When no time of the day is left, only readings on later dates follow. -/
theorem date_lt_of_over {x : Reading} (hover : ∀ v ∈ times.toList, v ≤ p.time)
    (hx : x ∈ readings dates times) (hlt : p < x) : p.date < x.date := by
  rcases hlt with hlater | ⟨-, hlt⟩
  · exact hlater
  · exact (Nat.not_lt_of_le (hover x.time hx.2) hlt).elim

/-- The next reading after the last time of a day is the first one of the next date. -/
theorem isLeast_over {e : Date} (hu : u ∈ times.toList) (hfirst : ∀ v ∈ times.toList, u ≤ v)
    (hover : ∀ v ∈ times.toList, v ≤ p.time) (he : IsLeast {x ∈ dates | p.date < x} e) :
    IsLeast {x ∈ readings dates times | p < x} ⟨e, u⟩ := by
  obtain ⟨⟨hmem, hlt⟩, hleast⟩ := he
  exact isLeast_later_date hmem hu hlt hfirst
    fun x hx hpx => hleast ⟨hx.1, date_lt_of_over hover hx hpx⟩

end Next

namespace Cursor

/-- A cursor that has passed a reading: it stands on that reading, on the date of a start that has
times left, or on the first date after a start. -/
inductive Passed (dates : Set Date) (times : TimesOfDay) : Reading → Cursor → Prop
  | on {date : Date} {time : TimeOfDay} {slots : WeekSlots}
      (hreached : DateRule.Reached dates date slots) :
      Passed dates times ⟨date, time⟩ ⟨times.rotatedAfter time, some date, some time, slots⟩
  | within {start : Reading} {slots : WeekSlots}
      (hreached : DateRule.Reached dates start.date slots)
      (hafter : times.hasAfter start.time = true) :
      Passed dates times start ⟨times.rotatedAfter start.time, some start.date, none, slots⟩
  | before {start : Reading} {date : Date} {slots : WeekSlots}
      (hreached : DateRule.Reached dates date slots) (hlt : start.date < date)
      (hleast : ∀ x ∈ readings dates times, start < x → date ≤ x.date) :
      Passed dates times start ⟨times.toList, some date, none, slots⟩

/-- A cursor stands on a reading. -/
structure StandsOn (c : Cursor) (r : Reading) : Prop where
  date_eq : c.date = some r.date
  lastTime_eq : c.lastTime = some r.time

variable {rule : DateRule} {anchor : Date} {dates : Set Date} {times : TimesOfDay} {p r : Reading}
  {c c' : Cursor} {date : Date} {u : TimeOfDay} {rest : List TimeOfDay} {last : Option TimeOfDay}
  {slots : WeekSlots}

/-! ## One step -/

/-- A step that succeeds leaves the cursor on its reading. -/
theorem standsOn_of_advance (h : c.advance rule = (.ok r, c')) : c'.StandsOn r := by
  unfold Cursor.advance at h
  split at h
  · dsimp only at h
    split at h
    · cases h
    · cases h
      exact ⟨rfl, rfl⟩
  · cases h

theorem any_le_eq_true {time : TimeOfDay} (h : u ≤ time) :
    (some time).any (u ≤ ·) = true := by
  rw [Option.any_some]
  exact decide_eq_true h

theorem any_le_eq_false {time : TimeOfDay} (h : ¬u ≤ time) :
    (some time).any (u ≤ ·) = false := by
  rw [Option.any_some]
  exact decide_eq_false h

/-- While the times of the day go on, a step stays on the date. -/
theorem advance_of_stay (h : last.any (u ≤ ·) = false) :
    Cursor.advance rule ⟨u :: rest, some date, last, slots⟩ =
      (.ok ⟨date, u⟩, ⟨rest ++ [u], some date, some u, slots.record date⟩) := by
  unfold Cursor.advance
  simp only [h, Bool.false_eq_true, if_false]

/-- When the times start over, a step asks the rule for the next date. -/
theorem advance_of_over (h : last.any (u ≤ ·) = true) :
    Cursor.advance rule ⟨u :: rest, some date, last, slots⟩ =
      match rule.next date slots with
      | .error fault => (.error fault, ⟨rest ++ [u], some date, last, slots⟩)
      | .ok e => (.ok ⟨e, u⟩, ⟨rest ++ [u], some e, some u, slots.record e⟩) := by
  unfold Cursor.advance
  cases hnext : rule.next date slots with
  | error fault => simp only [h, if_true, hnext]
  | ok e => simp only [h, if_true, hnext]

/-- A step from a reading that the cursor stands on. While times of the day are left it stays on the
date; when they start over it goes on to the date that the rule gives, or fails with the rule. -/
inductive StepFrom (rule : DateRule) (times : TimesOfDay) (date : Date) (time : TimeOfDay)
    (slots : WeekSlots) : Except Fault Reading × Cursor → Prop
  | stay {u : TimeOfDay} (hu : u ∈ times.toList) (hlt : time < u)
      (hleast : ∀ v ∈ times.toList, time < v → u ≤ v) :
      StepFrom rule times date time slots
        (.ok ⟨date, u⟩, ⟨times.rotatedAfter u, some date, some u, slots.record date⟩)
  | goOn {u : TimeOfDay} {e : Date} (hu : u ∈ times.toList) (hfirst : ∀ v ∈ times.toList, u ≤ v)
      (hover : ∀ v ∈ times.toList, v ≤ time) (hnext : rule.next date slots = .ok e) :
      StepFrom rule times date time slots
        (.ok ⟨e, u⟩, ⟨times.rotatedAfter u, some e, some u, slots.record e⟩)
  | ends {u : TimeOfDay} {fault : Fault} (hover : ∀ v ∈ times.toList, v ≤ time)
      (hnext : rule.next date slots = .error fault) :
      StepFrom rule times date time slots
        (.error fault, ⟨times.rotatedAfter u, some date, some time, slots⟩)

theorem stepFrom_advance (rule : DateRule) (times : TimesOfDay) (date : Date) (time : TimeOfDay)
    (slots : WeekSlots) : StepFrom rule times date time slots
      (Cursor.advance rule ⟨times.rotatedAfter time, some date, some time, slots⟩) := by
  obtain ⟨u, rest, hu, hqueue⟩ := times.exists_rotatedAfter time
  have htail := TimesOfDay.rotatedAfter_tail hqueue
  by_cases hover : u ≤ time
  · have hends : ∀ v ∈ times.toList, v ≤ time := fun v hv =>
      (TimesOfDay.head_le_of_ge hqueue hover hv).2
    rw [hqueue, advance_of_over (any_le_eq_true hover), htail]
    cases hnext : rule.next date slots with
    | error fault => exact .ends hends hnext
    | ok e =>
      exact .goOn hu (fun v hv => (TimesOfDay.head_le_of_ge hqueue hover hv).1) hends hnext
  · rw [hqueue, advance_of_stay (any_le_eq_false hover), htail]
    exact .stay hu (Nat.lt_of_not_le hover)
      fun v hv hlt => (TimesOfDay.head_le_of_lt hqueue hv hlt).2

/-- A step goes to the first reading after the one that was passed. -/
theorem Passed.advance (hwalk : rule.WalksThrough anchor dates) (h : Passed dates times p c)
    (hstep : c.advance rule = (.ok r, c')) :
    IsLeast {x ∈ readings dates times | p < x} r ∧ Passed dates times r c' := by
  obtain ⟨pdate, ptime⟩ := p
  cases h with
  | @on _ _ slots hreached =>
    have hcases := stepFrom_advance rule times pdate ptime slots
    rw [hstep] at hcases
    cases hcases with
    | stay hu hlt hleast =>
      exact ⟨isLeast_same_date hreached.mem hu hlt hleast, .on hreached.record⟩
    | goOn hu hfirst hover hnext =>
      have hleast := hwalk.isLeast_next pdate _ _ hreached hnext
      exact ⟨isLeast_over hu hfirst hover hleast,
        .on (hreached.advance hleast.1.1 hleast.1.2).record⟩
  | within hreached hafter =>
    obtain ⟨u, rest, hu, hqueue⟩ := times.exists_rotatedAfter ptime
    rw [hqueue, advance_of_stay rfl, TimesOfDay.rotatedAfter_tail hqueue] at hstep
    rw [Prod.mk.injEq, Except.ok.injEq] at hstep
    obtain ⟨rfl, rfl⟩ := hstep
    exact ⟨isLeast_of_hasAfter hreached.mem hafter hu hqueue, .on hreached.record⟩
  | before hreached hlt hleast =>
    obtain ⟨u, rest, hu, hqueue⟩ := times.exists_toList
    rw [hqueue, advance_of_stay rfl, TimesOfDay.rotatedAfter_of_toList_cons hqueue] at hstep
    rw [Prod.mk.injEq, Except.ok.injEq] at hstep
    obtain ⟨rfl, rfl⟩ := hstep
    exact ⟨isLeast_later_date hreached.mem hu hlt
      (fun v hv => TimesOfDay.le_of_toList_cons hqueue hv) hleast, .on hreached.record⟩

/-! ## The start -/

/-- The start of a fresh cursor. It stands on the first date of the rule; if this is the date of the
start and no time is left, it goes on to the next one. -/
inductive StartFrom (rule : DateRule) (times : TimesOfDay) (start : Reading) :
    Except Fault Cursor → Prop
  | today (hfirst : rule.first start.date = .ok start.date)
      (hafter : times.hasAfter start.time = true) :
      StartFrom rule times start
        (.ok ⟨times.rotatedAfter start.time, some start.date, none, .empty⟩)
  | later {first : Date} (hfirst : rule.first start.date = .ok first)
      (hne : first ≠ start.date) :
      StartFrom rule times start (.ok ⟨times.toList, some first, none, .empty⟩)
  | goOn {date : Date} (hfirst : rule.first start.date = .ok start.date)
      (hover : ∀ v ∈ times.toList, v ≤ start.time)
      (hnext : rule.next start.date .empty = .ok date) :
      StartFrom rule times start (.ok
        ⟨if date = start.date then times.rotatedAfter start.time else times.toList, some date, none,
          .empty⟩)
  | noFirst {fault : Fault} (hfirst : rule.first start.date = .error fault) :
      StartFrom rule times start (.error fault)
  | noNext {fault : Fault} (hfirst : rule.first start.date = .ok start.date)
      (hover : ∀ v ∈ times.toList, v ≤ start.time)
      (hnext : rule.next start.date .empty = .error fault) :
      StartFrom rule times start (.error fault)

/-- A start asks the rule for a first date, and for another one if this date is over. -/
theorem start_eq {start : Reading} {first : Date} (hfirst : rule.first start.date = .ok first) :
    ({} : Cursor).start rule times start =
      (if first = start.date ∧ !times.hasAfter start.time then rule.next first .empty
        else .ok first).map fun date =>
          ⟨if date = start.date then times.rotatedAfter start.time else times.toList, some date, none,
            .empty⟩ := by
  unfold Cursor.start
  rw [hfirst]
  change (if first = start.date ∧ !times.hasAfter start.time then _ else _) = _
  by_cases hover : first = start.date ∧ !times.hasAfter start.time
  · rw [if_pos hover, if_pos hover]
    cases rule.next first .empty <;> rfl
  · rw [if_neg hover, if_neg hover]
    rfl

theorem startFrom_start (rule : DateRule) (times : TimesOfDay) (start : Reading) :
    StartFrom rule times start (({} : Cursor).start rule times start) := by
  cases hfirst : rule.first start.date with
  | error fault =>
    unfold Cursor.start
    rw [hfirst]
    exact .noFirst hfirst
  | ok first =>
    rw [start_eq hfirst]
    by_cases hsame : first = start.date
    · subst hsame
      cases hafter : times.hasAfter start.time with
      | true =>
        rw [if_neg (by simp), Except.map, if_pos rfl]
        exact .today hfirst hafter
      | false =>
        have hover := TimesOfDay.hasAfter_eq_false_iff.mp hafter
        rw [if_pos ⟨rfl, rfl⟩]
        cases hnext : rule.next start.date .empty with
        | error fault => exact .noNext hfirst hover hnext
        | ok date => exact .goOn hfirst hover hnext
    · rw [if_neg fun hboth => hsame hboth.1, Except.map, if_neg hsame]
      exact .later hfirst hsame

/-- A cursor that is started has passed the reading of the start. -/
theorem passed_of_start {start : Reading} (hwalk : rule.WalksThrough start.date dates)
    (h : ({} : Cursor).start rule times start = .ok c) : Passed dates times start c := by
  have hcases := startFrom_start rule times start
  rw [h] at hcases
  cases hcases with
  | today hfirst hafter => exact .within (.empty (hwalk.isLeast_first _ hfirst).1) hafter
  | @later first hfirst hne =>
    obtain ⟨hmem, hleast⟩ := hwalk.isLeast_first _ hfirst
    refine .before (.empty hmem) (lt_of_le_of_ne (hwalk.anchor_le _ hmem) (Ne.symm hne)) ?_
    rintro x ⟨hxdate, -⟩ -
    exact hleast hxdate
  | goOn hfirst hover hnext =>
    have hmem := (hwalk.isLeast_first _ hfirst).1
    obtain ⟨⟨hnextMem, hlt⟩, hleast⟩ := hwalk.isLeast_next _ _ _ (.empty hmem) hnext
    rw [if_neg (ne_of_gt hlt)]
    exact .before (.empty hnextMem) hlt
      fun x hx hpx => hleast ⟨hx.1, date_lt_of_over hover hx hpx⟩

end Cursor

end Almanac
