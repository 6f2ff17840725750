import Almanac.Proofs.Recurrence.Enumeration
import Mathlib.Data.List.Dedup

/-!
# The phase of a weekly recurrence

A weekly recurrence keeps no date to count its weeks from. It has a slot for each day of the week,
and what a slot holds, or that it holds nothing yet, is enough: the dates of its occurrences are the
selected days in every so many weeks, counted from the week of the first of them.
-/

namespace Almanac

open Calendar

variable {dates : Set Date} {times : TimesOfDay} {start : Reading} {d : Date}

/-- The dates of readings, each once. -/
def distinctDates (list : List Reading) : List Date := (list.map (·.date)).dedup

theorem mem_distinctDates {list : List Reading} :
    d ∈ distinctDates list ↔ ∃ x ∈ list, x.date = d := by
  rw [distinctDates, List.mem_dedup, List.mem_map]

/-- The dates of readings that begin a set begin the dates of the set. -/
theorem Begins.distinctDates {set : Set Reading} {list : List Reading} (h : Begins set list) :
    Begins {d | ∃ x ∈ set, x.date = d} (distinctDates list) := by
  refine ⟨?_, fun d hd => ?_, fun d hd e he hle => ?_⟩
  · have hle : (list.map (·.date)).Pairwise (· ≤ ·) :=
      List.pairwise_map.mpr (h.sorted.imp Reading.date_le_of_lt)
    have hnodup : (list.map (·.date)).dedup.Pairwise (· ≠ ·) := List.nodup_dedup _
    have hboth := (hle.sublist (List.dedup_sublist _)).and hnodup
    exact hboth.imp fun hdates => lt_of_le_of_ne hdates.1 hdates.2
  · obtain ⟨x, hx, rfl⟩ := mem_distinctDates.mp hd
    exact ⟨x, h.mem_set x hx, rfl⟩
  · obtain ⟨x, hx, rfl⟩ := mem_distinctDates.mp hd
    rcases lt_or_eq_of_le hle with hlt | rfl
    · -- All readings of an earlier date come before the reading that is listed.
      obtain ⟨y, hy, rfl⟩ := he
      have hearlier : y < x := Or.inl hlt
      exact mem_distinctDates.mpr ⟨y, h.mem_of_le x hx y hy hearlier.le, rfl⟩
    · exact hd

/-- A date has readings after the start if it is later, or if it is the date of the start and has a
time left. -/
theorem exists_reading_after_iff : (∃ x ∈ {x ∈ readings dates times | start < x}, x.date = d) ↔
    d ∈ dates ∧ (start.date < d ∨ start.date = d ∧ times.hasAfter start.time = true) := by
  constructor
  · rintro ⟨x, ⟨⟨hdate, htime⟩, hlater | ⟨hsame, hlt⟩⟩, rfl⟩
    · exact ⟨hdate, Or.inl hlater⟩
    · exact ⟨hdate, Or.inr ⟨hsame, TimesOfDay.hasAfter_iff.mpr ⟨x.time, htime, hlt⟩⟩⟩
  · rintro ⟨hdate, hlater | ⟨hsame, hafter⟩⟩
    · obtain ⟨u, -, hu, -⟩ := times.exists_toList
      exact ⟨⟨d, u⟩, ⟨⟨hdate, hu⟩, Or.inl hlater⟩, rfl⟩
    · obtain ⟨u, hu, hlt⟩ := TimesOfDay.hasAfter_iff.mp hafter
      exact ⟨⟨d, u⟩, ⟨⟨hdate, hu⟩, Or.inr ⟨hsame, hlt⟩⟩, rfl⟩

namespace Weekly

variable {w : Weekly} {anchor first : Date}

/-- The dates after a start that a weekly recurrence should have: its days of the week, in the weeks
that start on Sunday and lie a multiple of its weeks after the week of the first date. The first
date itself is left out if the start is on it and no time is left. -/
def phaseDates (w : Weekly) (start : Reading) (first : Date) : Set Date :=
  {d | w.weekDays.contains d.weekday = true ∧
    (∃ k : Nat, week d.day = week first.day + k * w.weeks.toNat) ∧ first ≤ d ∧
    (start.date = first → w.times.hasAfter start.time = false → first < d)}

/-- A date counts when its week is a multiple of the weeks after the first one. -/
theorem counts_iff_exists (hle : first ≤ d) :
    w.Counts first d ↔ ∃ k : Nat, week d.day = week first.day + k * w.weeks.toNat := by
  have hweek : week first.day ≤ week d.day := by
    rw [Date.le_iff] at hle
    unfold week
    omega
  unfold Counts
  constructor
  · intro hmod
    obtain ⟨q, hq⟩ := Int.dvd_of_emod_eq_zero hmod
    have hnonneg : 0 ≤ q := by
      by_contra hneg
      have hmul := Int.mul_neg_of_pos_of_neg (Int.natCast_pos.mpr w.weeks_pos) (not_le.mp hneg)
      omega
    obtain ⟨k, rfl⟩ := Int.eq_ofNat_of_zero_le hnonneg
    rw [Int.mul_comm] at hq
    exact ⟨k, by omega⟩
  · rintro ⟨k, hk⟩
    rw [hk, add_sub_cancel_left]
    exact Int.mul_emod_left _ _

/-- The dates counted from an anchor, by the first of them. -/
theorem mem_dates_iff (hfirst : w.rule.first anchor = .ok first) :
    d ∈ w.dates anchor ↔ first ≤ d ∧ w.weekDays.contains d.weekday = true ∧ w.Counts first d := by
  have hleast := (w.walksThrough anchor).isLeast_first first hfirst
  constructor
  · intro hd
    have hle := hleast.2 hd
    obtain ⟨-, hcontains, first', hfirst', hcounts⟩ := hd
    obtain rfl : first = first' := Except.ok.inj (hfirst.symm.trans hfirst')
    exact ⟨hle, hcontains, hcounts⟩
  · rintro ⟨hle, hcontains, hcounts⟩
    exact ⟨hleast.1.1.trans hle, hcontains, first, hfirst, hcounts⟩

/-- The dates with readings after the start are the ones that the recurrence should have. -/
theorem dates_after_eq (hfirst : w.rule.first start.date = .ok first) :
    {d | ∃ x ∈ {x ∈ readings (w.dates start.date) w.times | start < x}, x.date = d} =
      w.phaseDates start first := by
  have hanchor := ((w.walksThrough start.date).isLeast_first first hfirst).1.1
  refine Set.ext fun d => exists_reading_after_iff.trans ?_
  rw [mem_dates_iff hfirst]
  constructor
  · rintro ⟨⟨hle, hcontains, hcounts⟩, hlater⟩
    refine ⟨hcontains, (counts_iff_exists hle).mp hcounts, hle, fun hsame hover => ?_⟩
    rcases hlater with hlt | ⟨-, hafter⟩
    · rwa [hsame] at hlt
    · rw [hover] at hafter
      cases hafter
  · rintro ⟨hcontains, hphase, hle, hleft⟩
    refine ⟨⟨hle, hcontains, (counts_iff_exists hle).mpr hphase⟩, ?_⟩
    -- On the date of the start, the date is the first one, and it is kept only if a time is left.
    rcases lt_or_eq_of_le (hanchor.trans hle) with hlt | hsame
    · exact Or.inl hlt
    · have hfirstSame : start.date = first := le_antisymm hanchor (hsame ▸ hle)
      cases hafter : w.times.hasAfter start.time with
      | true => exact Or.inr ⟨hsame, rfl⟩
      | false =>
        have hlt := hleft hfirstSame hafter
        rw [← hfirstSame] at hlt
        exact Or.inl hlt

/-- The dates on which a weekly recurrence lands, from a fresh start, are exactly its days of the
week in every so many weeks from the week of the first date. The cursor goes on for as long as it is
advanced, unless one of the days of the week has no further date in the calendar, or the start lies
before the first Sunday of the calendar and the rule panics. -/
theorem distinctDates_listed (hfirst : w.rule.first start.date = .ok first) (count : Nat) :
    Begins (w.phaseDates start first) (distinctDates (w.rule.listed w.times start count)) ∧
      ((w.rule.listed w.times start count).length = count ∨
        (∃ day, w.weekDays.contains day = true ∧
          ∀ d ∈ w.phaseDates start first, d.weekday = day →
            d ∈ distinctDates (w.rule.listed w.times start count)) ∨
        start.date ∈ Date.beforeSundays ∧
          w.rule.PanicsWhenAsked w.times start (w.dates start.date)) := by
  have hwalk := w.walksThrough start.date
  have hlists : w.rule.Lists w.times start (w.dates start.date) w.strands :=
    hwalk.lists (w.endsWith start.date)
  obtain ⟨hbegins, hend⟩ := hlists.listed_spec count
  rw [← dates_after_eq hfirst]
  refine ⟨hbegins.distinctDates, hend.imp_right (Or.imp ?_ fun hpanics => ?_)⟩
  · rintro ⟨strand, ⟨day, hday, rfl⟩, hall⟩
    refine ⟨day, hday, ?_⟩
    rintro d ⟨x, ⟨hx, hlt⟩, rfl⟩ hweekday
    exact mem_distinctDates.mpr ⟨x, hall x hx hlt hweekday, rfl⟩
  · obtain ⟨d, hearly, hle⟩ := hwalk.exists_early w.failsByRange_rule hpanics
    exact ⟨Date.mem_beforeSundays_of_le hle hearly, hpanics⟩

section Sample

open Recurrence

/-- Saturdays, Sundays and Mondays of every other week, at 06:45 and at 20:15. -/
def longWeekends : Weekly where
  times := DateRule.everyOtherDay.times
  weeks := 2
  weekDays := ⟨67⟩
  weeks_ne_zero := by decide
  proper := rfl

/-- From ten in the evening of a Saturday, when its times are over: the Sunday and the Monday of the
next week do not count, and the Saturday comes last in the week that does. -/
theorem distinctDates_listed_longWeekends :
    longWeekends.rule.first (readingOn 20610 79200 0 (by decide)).date = .ok ⟨20610, by decide⟩ ∧
      distinctDates (longWeekends.rule.listed longWeekends.times
          (readingOn 20610 79200 0 (by decide)) 7) =
        [⟨20618, by decide⟩, ⟨20619, by decide⟩, ⟨20624, by decide⟩, ⟨20632, by decide⟩] ∧
      Begins (longWeekends.phaseDates (readingOn 20610 79200 0 (by decide)) ⟨20610, by decide⟩)
        [⟨20618, by decide⟩, ⟨20619, by decide⟩, ⟨20624, by decide⟩, ⟨20632, by decide⟩] := by
  have hfirst : longWeekends.rule.first (readingOn 20610 79200 0 (by decide)).date =
      .ok ⟨20610, by decide⟩ := by
    decide +kernel
  have hlisted : distinctDates (longWeekends.rule.listed longWeekends.times
      (readingOn 20610 79200 0 (by decide)) 7) =
        [⟨20618, by decide⟩, ⟨20619, by decide⟩, ⟨20624, by decide⟩, ⟨20632, by decide⟩] := by
    decide +kernel
  obtain ⟨hbegins, -⟩ := distinctDates_listed hfirst 7
  rw [hlisted] at hbegins
  exact ⟨hfirst, hlisted, hbegins⟩

end Sample

end Weekly

end Almanac
