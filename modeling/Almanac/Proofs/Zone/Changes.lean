import Almanac.Proofs.Clock.Years
import Almanac.Proofs.Zone.Conversion
import Almanac.Proofs.Zone.Sampling
import Mathlib.Data.List.Forall2
import Mathlib.Data.List.Nodup

/-!
# Listing the changes of a zone

In a sparse zone the search from one reading to another reports the changes between them, each of
them once and in order, with the offsets that hold during the day before the change and during the
day after it. The transitions of a year are found by a search that goes a few days beyond it on both
sides: offsets are less than a day, so that no change whose local reading falls in the year is
missed. As a change has one local reading under the old offset, it is reported for one year only.
-/

namespace Almanac

open Calendar

namespace Reading

theorem day_eq_seconds_div (r : Reading) : r.date.day = r.seconds / 86400 := by
  have hsecond := r.time.second_lt
  unfold seconds
  omega

theorem nanos_of_nano_eq_zero {r : Reading} (h : r.time.nano = 0) :
    r.nanos = r.seconds * 1000000000 := by
  unfold nanos
  rw [h]
  exact Int.add_zero _

end Reading

/-! ## Changes and what reports them -/

namespace Zone

/-- The year of the local reading at a change, under the offset before it. -/
def yearBefore (z : Zone) (instant : Int) : Int :=
  yearOf ((instant + z.offsetAt (instant - 1)) / 86400)

/-- The changes after one reading and up to another. -/
def changesBetween (z : Zone) (start stop : Reading) : Set Int :=
  {instant | z.ChangesAt instant ∧
    start.nanos < instant * 1000000000 ∧ instant * 1000000000 ≤ stop.nanos}

end Zone

namespace LocalClock

variable {c : LocalClock} {start stop : Reading} {t : Transition} {ts : List Transition}
  {instant year : Int}

/-- A transition lies in the second that a change opens, and comes with the offsets that clocks
have for a day before the change and for a day after it. -/
structure Reports (c : LocalClock) (t : Transition) (instant : Int) : Prop where
  le_nanos : instant * 1000000000 ≤ t.utc.nanos
  nanos_lt : t.utc.nanos < instant * 1000000000 + 1000000000
  offsetAt_of_lt : ∀ w, instant - 86400 ≤ w → w < instant → c.zone.offsetAt w = t.before
  offsetAt_of_le : ∀ w, instant ≤ w → w ≤ instant + 86400 → c.zone.offsetAt w = t.after

theorem Makes.reports (h : c.Makes t) (hsparse : c.zone.Sparse) : c.Reports t t.utc.seconds := by
  have hnano := Reading.isOrdinary_iff.mp h.isOrdinary
  have hnanos : t.utc.nanos = t.utc.seconds * 1000000000 + t.utc.time.nano := rfl
  refine ⟨by omega, by omega, ?_, ?_⟩
  · intro w hlower hupper
    have hquiet := hsparse.offsetAt_of_changesAt h.changesAt
      (show t.utc.seconds - 86400 < t.utc.seconds by omega) le_rfl (by omega)
    rw [h.before_eq]
    exact hquiet.1 w hlower hupper
  · intro w hlower hupper
    rw [h.after_eq]
    symm
    refine Zone.offsetAt_eq_of_forall_not hlower fun s hs hsw hchanges => ?_
    have hfar := hsparse _ s h.changesAt hchanges hs
    omega

/-- Of two ordinary readings, a number of seconds lies after the first and not after the second
exactly when it does so in nanoseconds. -/
theorem mem_changesBetween_iff (hstart : start.IsOrdinary) (hstop : stop.IsOrdinary) :
    instant ∈ c.zone.changesBetween start stop ↔
      c.zone.ChangesAt instant ∧ start.seconds < instant ∧ instant ≤ stop.seconds := by
  have hfirst := hstart.nanos_div
  have hlast := hstop.nanos_div
  have hlower : start.nanos < instant * 1000000000 ↔ start.seconds < instant := by omega
  have hupper : instant * 1000000000 ≤ stop.nanos ↔ instant ≤ stop.seconds := by omega
  exact and_congr_right fun _ => and_congr hlower hupper

/-- The search from one reading to another reports exactly the changes between them, in ascending
order and each of them once, with the offsets before and after. A report lies in the second that
the change opens, and at the change itself if the search is made in whole seconds. -/
theorem transitionsBetween_reports (hsparse : c.zone.Sparse) (hstart : start.IsOrdinary)
    (hstop : stop.IsOrdinary) (hroom : InCalendar (stop.seconds + 86400)) :
    ∃ instants : List Int, instants.Pairwise (· < ·) ∧
      (∀ instant, instant ∈ instants ↔ instant ∈ c.zone.changesBetween start stop) ∧
      List.Forall₂ (fun t instant => c.Reports t instant ∧
          (start.time.nano = 0 → stop.time.nano = 0 → t.utc.nanos = instant * 1000000000))
        (c.transitionsBetween start stop) instants := by
  have hall := enumerates_transitionsBetween hsparse hstart hstop hroom
  refine ⟨(c.transitionsBetween start stop).map (·.utc.seconds),
    List.pairwise_map.mpr hall.ascending, fun instant => ?_, ?_⟩
  · rw [mem_changesBetween_iff hstart hstop, List.mem_map]
    constructor
    · rintro ⟨t, ht, rfl⟩
      exact ⟨(hall.makes t ht).changesAt, hall.after_start t ht, hall.by_stop t ht⟩
    · rintro ⟨hchanges, hlower, hupper⟩
      exact hall.exists_mem instant hlower hupper hchanges
  · rw [List.forall₂_map_right_iff, List.forall₂_same]
    intro t ht
    refine ⟨(hall.makes t ht).reports hsparse, fun hfirst hlast => ?_⟩
    have hnano := hall.nano_mem t ht
    rw [hfirst, hlast, or_self] at hnano
    exact Reading.nanos_of_nano_eq_zero hnano

section Sample

/-- Half a second past the noon, universal time, before clocks of Kwajalein jumped over a day. -/
def pastNoonBefore : Reading := pastNoon ⟨8632, by decide⟩

/-- The noon at which they jumped. -/
def noonOfJump : Reading :=
  ⟨(Date.ofYearMonthDay? 1993 8 21).get (by decide),
    ⟨43200, 0, pastNoonBefore.time.second_lt, TimeOfDay.midnight.nano_lt⟩⟩

/-- A search that ends right at the change, out of step with its start, reports this change and no
other. -/
theorem transitionsBetween_reports_kwajalein :
    kwajalein.zone.Sparse ∧ pastNoonBefore.IsOrdinary ∧ noonOfJump.IsOrdinary ∧
      InCalendar (noonOfJump.seconds + 86400) ∧
      kwajalein.transitionsBetween pastNoonBefore noonOfJump = [⟨noonOfJump, -43200, 43200⟩] ∧
      kwajalein.zone.changesBetween pastNoonBefore noonOfJump = {745934400} := by
  have hroom : InCalendar (noonOfJump.seconds + 86400) := ⟨by decide, by decide⟩
  have hlisted : kwajalein.transitionsBetween pastNoonBefore noonOfJump =
      [⟨noonOfJump, -43200, 43200⟩] := by
    decide +kernel
  obtain ⟨instants, -, hmem, hreports⟩ := transitionsBetween_reports spaced_kwajalein.sparse
    (show pastNoonBefore.IsOrdinary by decide) (show noonOfJump.IsOrdinary by decide) hroom
  rw [hlisted, List.forall₂_cons_left_iff] at hreports
  obtain ⟨instant, rest, ⟨hreport, -⟩, hrest, rfl⟩ := hreports
  obtain rfl : rest = [] := List.forall₂_nil_left_iff.mp hrest
  have hinstant : instant = 745934400 := by
    have hnanos : noonOfJump.nanos = 745934400 * 1000000000 := by decide
    have hlower := hreport.le_nanos
    have hupper := hreport.nanos_lt
    rw [hnanos] at hlower hupper
    omega
  refine ⟨spaced_kwajalein.sparse, by decide, by decide, hroom, hlisted, Set.ext fun other => ?_⟩
  rw [← hmem, List.mem_singleton, hinstant, Set.mem_singleton_iff]

end Sample

/-! ## The changes of a year -/

/-- Transitions are the changes of a year by the local reading under the old offset, in order and
at whole seconds. -/
structure EnumeratesYear (c : LocalClock) (year : Int) (ts : List Transition) : Prop where
  makes : ∀ t ∈ ts, c.Makes t
  nano_eq : ∀ t ∈ ts, t.utc.time.nano = 0
  yearBefore_eq : ∀ t ∈ ts, c.zone.yearBefore t.utc.seconds = year
  exists_mem : firstYear < year → year < lastYear → ∀ instant, c.zone.ChangesAt instant →
    c.zone.yearBefore instant = year → ∃ t ∈ ts, t.utc.seconds = instant
  ascending : ts.Pairwise fun a b => a.utc.seconds < b.utc.seconds

/-- The local reading under the old offset, where the calendar reaches it, lies in the year of the
change. -/
theorem Makes.year_localBefore (h : c.Makes t) (hreach : InCalendar (t.utc.seconds + t.before)) :
    t.localBefore.date.year = c.zone.yearBefore t.utc.seconds := by
  have hday : t.localBefore.date.day = (t.utc.seconds + t.before) / 86400 := by
    have hseconds := Reading.seconds_add_of_key (Reading.key_shift hreach).symm
    rw [hseconds]
    exact t.localBefore.day_eq_seconds_div
  rw [Zone.yearBefore, ← h.before_eq, ← hday]
  rfl

/-- The search for the transitions of a year goes from two days before the year to two days after
its end. -/
theorem exists_transitionsOf_eq (hfirst : firstYear < year) (hlast : year < lastYear) :
    ∃ start stop : Reading, (start.time.nano = 0 ∧ stop.time.nano = 0) ∧
      start.seconds = (yearStart year - 2) * 86400 ∧
      stop.seconds = (yearStart (year + 1) + 2) * 86400 ∧
      c.transitionsOf year = (c.transitionsBetween start stop).filter fun t =>
        t.localBefore.date.year == year := by
  obtain ⟨start, hstart⟩ := Date.exists_ofYearMonthDay?_iff.mpr
    ⟨(⟨by omega, by omega⟩ : firstYear ≤ year - 1 ∧ year - 1 ≤ lastYear),
      (⟨by decide, le_rfl⟩ : 1 ≤ 12 ∧ 12 ≤ 12), (⟨by decide, by decide⟩ : 1 ≤ 30 ∧ 30 ≤ 31)⟩
  obtain ⟨stop, hstop⟩ := Date.exists_ofYearMonthDay?_iff.mpr
    ⟨(⟨by omega, by omega⟩ : firstYear ≤ year + 1 ∧ year + 1 ≤ lastYear),
      (⟨le_rfl, by decide⟩ : 1 ≤ 1 ∧ 1 ≤ 12), (⟨by decide, by decide⟩ : 1 ≤ 3 ∧ 3 ≤ 31)⟩
  have hstartDay := (Date.inMonth_of_ofYearMonthDay? hstart).2
  have hstopDay := (Date.inMonth_of_ofYearMonthDay? hstop).2
  rw [monthStart_december, sub_add_cancel] at hstartDay
  rw [monthStart_january] at hstopDay
  refine ⟨.ofDate start, .ofDate stop, ⟨rfl, rfl⟩, ?_, ?_, ?_⟩
  · change start.day * 86400 + (0 : Nat) = _
    omega
  · change stop.day * 86400 + (0 : Nat) = _
    omega
  · unfold transitionsOf
    rw [hstart, hstop]

/-- Where the search would leave the calendar, no transitions are found. -/
theorem transitionsOf_eq_nil (h : ¬(firstYear < year ∧ year < lastYear)) :
    c.transitionsOf year = [] := by
  unfold transitionsOf
  split
  · next start stop hstart hstop =>
    obtain ⟨⟨hfirst, -⟩, -⟩ := Date.exists_ofYearMonthDay?_iff.mp ⟨start, hstart⟩
    obtain ⟨⟨-, hlast⟩, -⟩ := Date.exists_ofYearMonthDay?_iff.mp ⟨stop, hstop⟩
    exact (h ⟨by omega, by omega⟩).elim
  · rfl

/-- In a sparse zone with offsets of less than a day, the transitions of a year are the changes of
the year. -/
theorem enumeratesYear_transitionsOf (hsparse : c.zone.Sparse) (hday : c.zone.HasDayOffsets)
    (year : Int) : c.EnumeratesYear year (c.transitionsOf year) := by
  by_cases hyear : firstYear < year ∧ year < lastYear
  · obtain ⟨hfirst, hlast⟩ := hyear
    obtain ⟨start, stop, ⟨hstartNano, hstopNano⟩, hstart, hstop, hsearch⟩ :=
      exists_transitionsOf_eq (c := c) hfirst hlast
    -- The calendar goes on for a year before the search and for a year after it.
    have hlower : firstDay + 365 ≤ yearStart year := by
      have hmono := yearStart_mono (show firstYear + 1 ≤ year from hfirst)
      have hnext : yearStart (firstYear + 1) = firstDay + 365 := by decide
      omega
    have hupper : yearStart (year + 1) + 364 ≤ lastDay := by
      have hmono := yearStart_mono (show year + 1 ≤ lastYear from hlast)
      have hnext : yearStart lastYear = lastDay - 364 := by decide
      omega
    have hroom : InCalendar (stop.seconds + 86400) := by
      have hmono := yearStart_mono (show year ≤ year + 1 by omega)
      unfold InCalendar
      omega
    have hall := enumerates_transitionsBetween hsparse
      (Reading.isOrdinary_iff.mpr (show start.time.nano < 1000000000 by omega))
      (Reading.isOrdinary_iff.mpr (show stop.time.nano < 1000000000 by omega)) hroom
    have hyears : ∀ t ∈ c.transitionsBetween start stop,
        t.localBefore.date.year = c.zone.yearBefore t.utc.seconds := by
      intro t ht
      have hoffset := hday.offsetAt_mem (t.utc.seconds - 1)
      have hafter := hall.after_start t ht
      have hby := hall.by_stop t ht
      rw [← (hall.makes t ht).before_eq] at hoffset
      apply (hall.makes t ht).year_localBefore
      unfold InCalendar
      omega
    rw [hsearch]
    refine ⟨fun t ht => ?_, fun t ht => ?_, fun t ht => ?_, fun _ _ instant hchanges heq => ?_, ?_⟩
    · exact hall.makes t (List.mem_filter.mp ht).1
    · have hnano := hall.nano_mem t (List.mem_filter.mp ht).1
      omega
    · obtain ⟨hmem, hlocal⟩ := List.mem_filter.mp ht
      rw [← hyears t hmem]
      exact beq_iff_eq.mp hlocal
    · have hoffset := hday.offsetAt_mem (instant - 1)
      obtain ⟨hbegun, hended⟩ := yearOf_eq_iff.mp heq
      obtain ⟨t, ht, rfl⟩ := hall.exists_mem instant (by omega) (by omega) hchanges
      exact ⟨t, List.mem_filter.mpr ⟨ht, beq_iff_eq.mpr ((hyears t ht).trans heq)⟩, rfl⟩
    · exact hall.ascending.filter _
  · rw [transitionsOf_eq_nil hyear]
    exact ⟨List.forall_mem_nil _, List.forall_mem_nil _, List.forall_mem_nil _,
      fun hfirst hlast => (hyear ⟨hfirst, hlast⟩).elim, List.Pairwise.nil⟩

/-- A change two years away from the ends of the calendar has its local reading in a year that can
be searched. -/
theorem yearBefore_mem (hday : c.zone.HasDayOffsets)
    (hlow : firstYear + 2 ≤ yearOf (instant / 86400))
    (hhigh : yearOf (instant / 86400) ≤ lastYear - 2) :
    firstYear < c.zone.yearBefore instant ∧ c.zone.yearBefore instant < lastYear := by
  have hoffset := hday.offsetAt_mem (instant - 1)
  obtain ⟨hstart, hend⟩ := yearStart_yearOf (instant / 86400)
  obtain ⟨hstart', hend'⟩ := yearOf_eq_iff.mp (rfl : _ = c.zone.yearBefore instant)
  -- Universal time and the local clock are less than a day apart, and a year is longer.
  have hlength : ∀ year, yearStart year + 365 ≤ yearStart (year + 1) := by
    intro year
    rw [yearStart_succ]
    unfold yearLength
    split <;> omega
  constructor
  · by_contra hle
    have hmono := yearStart_mono (show c.zone.yearBefore instant + 1 ≤ firstYear + 1 by omega)
    have hmono' := yearStart_mono hlow
    have hyear := hlength (firstYear + 1)
    rw [show firstYear + 1 + 1 = firstYear + 2 by omega] at hyear
    omega
  · by_contra hle
    have hmono := yearStart_mono (show yearOf (instant / 86400) + 1 ≤ lastYear - 1 by omega)
    have hmono' := yearStart_mono (show lastYear ≤ c.zone.yearBefore instant by omega)
    have hyear := hlength (lastYear - 1)
    rw [sub_add_cancel] at hyear
    omega

/-- Every change two years away from the ends of the calendar is reported for exactly one year, the
year of its local reading under the old offset, and once for this year. What is reported for a year
are changes of this year, in ascending order, each at its own reading and with the offsets before
and after. -/
theorem transitionsOf_reports (hsparse : c.zone.Sparse) (hday : c.zone.HasDayOffsets) :
    (∀ instant, c.zone.ChangesAt instant → firstYear + 2 ≤ yearOf (instant / 86400) →
      yearOf (instant / 86400) ≤ lastYear - 2 →
      ∀ year, (c.transitionsOf year).countP (fun t => t.utc.nanos = instant * 1000000000) =
        if year = c.zone.yearBefore instant then 1 else 0) ∧
    ∀ year, ∃ instants : List Int, instants.Pairwise (· < ·) ∧
      (∀ instant ∈ instants, c.zone.ChangesAt instant ∧ c.zone.yearBefore instant = year) ∧
      List.Forall₂ (fun t instant => c.Reports t instant ∧ t.utc.nanos = instant * 1000000000)
        (c.transitionsOf year) instants := by
  have hnanos : ∀ year, ∀ t ∈ c.transitionsOf year,
      t.utc.nanos = t.utc.seconds * 1000000000 := fun year t ht =>
    Reading.nanos_of_nano_eq_zero ((enumeratesYear_transitionsOf hsparse hday year).nano_eq t ht)
  constructor
  · intro instant hchanges hlow hhigh year
    have hall := enumeratesYear_transitionsOf hsparse hday year
    obtain ⟨hfirst, hlast⟩ := yearBefore_mem hday hlow hhigh
    have hcount : (c.transitionsOf year).countP (fun t => t.utc.nanos = instant * 1000000000) =
        ((c.transitionsOf year).map (·.utc.seconds)).count instant := by
      rw [List.count, List.countP_map]
      refine List.countP_congr fun t ht => ?_
      have heq := hnanos year t ht
      simp only [decide_eq_true_eq, Function.comp_apply, beq_iff_eq]
      omega
    have hnodup : ((c.transitionsOf year).map (·.utc.seconds)).Nodup :=
      (List.pairwise_map.mpr hall.ascending).imp ne_of_lt
    rw [hcount]
    by_cases hyear : year = c.zone.yearBefore instant
    · subst hyear
      rw [if_pos rfl]
      exact List.nodup_iff_count_eq_one.mp hnodup _
        (List.mem_map.mpr (hall.exists_mem hfirst hlast instant hchanges rfl))
    · rw [if_neg hyear, List.count_eq_zero, List.mem_map]
      rintro ⟨t, ht, rfl⟩
      exact hyear (hall.yearBefore_eq t ht).symm
  · intro year
    have hall := enumeratesYear_transitionsOf hsparse hday year
    refine ⟨(c.transitionsOf year).map (·.utc.seconds), List.pairwise_map.mpr hall.ascending,
      List.forall_mem_map.mpr fun t ht => ?_, ?_⟩
    · exact ⟨(hall.makes t ht).changesAt, hall.yearBefore_eq t ht⟩
    · rw [List.forall₂_map_right_iff, List.forall₂_same]
      intro t ht
      exact ⟨(hall.makes t ht).reports hsparse, hnanos year t ht⟩

section Sample

/-- The clock of Dhaka, which left daylight time at the midnight that began the year 2010. -/
def dhaka : LocalClock := { id := "Asia/Dhaka", zone := Zone.Table.dhaka }

/-- The change still belongs to 2009 in universal time, and is reported for 2010 alone. -/
theorem transitionsOf_reports_dhaka :
    dhaka.zone.Sparse ∧ dhaka.zone.HasDayOffsets ∧ dhaka.zone.ChangesAt 1262278800 ∧
      yearOf (1262278800 / 86400) = 2009 ∧ dhaka.zone.yearBefore 1262278800 = 2010 ∧
      ∀ year, (dhaka.transitionsOf year).countP
        (fun t => t.utc.nanos = 1262278800 * 1000000000) = if year = 2010 then 1 else 0 := by
  have hsparse : dhaka.zone.Sparse := Zone.Spaced.sparse (by decide +kernel)
  have hday : dhaka.zone.HasDayOffsets := ⟨by decide, by decide +kernel⟩
  have hchanges : dhaka.zone.ChangesAt 1262278800 := by
    unfold Zone.ChangesAt
    decide +kernel
  have hbefore : dhaka.zone.yearBefore 1262278800 = 2010 := by decide +kernel
  have hcount := (transitionsOf_reports hsparse hday).1 1262278800 hchanges (by decide) (by decide)
  rw [hbefore] at hcount
  exact ⟨hsparse, hday, hchanges, by decide, hbefore, hcount⟩

end Sample

end LocalClock

end Almanac
