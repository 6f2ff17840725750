import Almanac.Proofs.Except
import Almanac.Recurrence.Daily
import Almanac.Recurrence.Weekly
import Mathlib.Data.Int.Order.Basic
import Mathlib.Order.Bounds.Defs
import Mathlib.Order.MinMax

/-!
# The dates of daily and weekly recurrences

The dates of a recurrence are counted from the date of its start: every so many days from it,
the days of the week of a set, or such days in every so many weeks from the week of the first of
them. A rule walks through these dates in order: what it gives for a date is always the next date
of the set, provided that the dates recorded for the days of the week belong to the set too.
-/

namespace Almanac

open Calendar

namespace WeekSlots

theorem at?_empty (w : Weekday) : empty.at? w = none := by
  simp [at?, empty]

/-- Recording a date changes what is kept for its own day of the week. -/
theorem at?_record (slots : WeekSlots) (d : Date) (w : Weekday) :
    (slots.record d).at? w = if w = d.weekday then some d else slots.at? w := by
  unfold record at?
  split
  · next hw =>
    subst hw
    simp
  · next hw =>
    refine Vector.getElem_set_ne _ _ fun hindex => hw ?_
    rw [← Weekday.ofIndex_index w, ← Weekday.ofIndex_index d.weekday, Fin.ext hindex]

end WeekSlots

namespace DateRule

/-- A walk has reached a date of a set; what is recorded are dates of the set up to it. -/
structure Reached (dates : Set Date) (d : Date) (slots : WeekSlots) : Prop where
  mem : d ∈ dates
  slots_mem : ∀ w last, slots.at? w = some last → last ∈ dates ∧ last.weekday = w ∧ last ≤ d

/-- The rule starts with the first date of a set of dates from an anchor on, and goes from each
of them to the next one. -/
structure WalksThrough (rule : DateRule) (anchor : Date) (dates : Set Date) : Prop where
  anchor_le : ∀ d ∈ dates, anchor ≤ d
  isLeast_first : ∀ d, rule.first anchor = .ok d → IsLeast dates d
  isLeast_next : ∀ d slots e, Reached dates d slots → rule.next d slots = .ok e →
    IsLeast {x ∈ dates | d < x} e

namespace Reached

variable {dates : Set Date} {d e : Date} {slots : WeekSlots}

theorem empty (h : d ∈ dates) : Reached dates d .empty := by
  refine ⟨h, fun w last hlast => ?_⟩
  rw [WeekSlots.at?_empty] at hlast
  cases hlast

/-- Recording the date that the walk stands on. -/
theorem record (h : Reached dates d slots) : Reached dates d (slots.record d) := by
  refine ⟨h.mem, fun w last hlast => ?_⟩
  rw [WeekSlots.at?_record] at hlast
  split at hlast
  · next hw =>
    cases hlast
    exact ⟨h.mem, hw.symm, Int.le_refl _⟩
  · exact h.slots_mem w last hlast

/-- Going on to a later date of the set. -/
theorem advance (h : Reached dates d slots) (he : e ∈ dates) (hlt : d < e) :
    Reached dates e slots := by
  refine ⟨he, fun w last hlast => ?_⟩
  obtain ⟨hmem, hweekday, hle⟩ := h.slots_mem w last hlast
  refine ⟨hmem, hweekday, ?_⟩
  rw [Date.le_iff] at hle ⊢
  rw [Date.lt_iff] at hlt
  omega

end Reached

end DateRule

/-! ## Searching the days of a week -/

namespace Weekday

theorem mem_all (w : Weekday) : w ∈ all := by
  cases w <;> decide

end Weekday

namespace WeekDays

theorem contains_ofWeekday {day w : Weekday} : (ofWeekday day).contains w = true ↔ w = day := by
  cases day <;> cases w <;> decide

theorem mem_toList {s : WeekDays} {w : Weekday} : w ∈ s.toList ↔ s.contains w = true := by
  rw [toList, List.mem_filter]
  exact ⟨And.right, fun h => ⟨w.mem_all, h⟩⟩

end WeekDays

namespace Date

instance : LinearOrder Date where
  le_refl d := Int.le_refl d.day
  le_trans _ _ _ hab hbc := Int.le_trans hab hbc
  lt_iff_le_not_ge a b := by rw [lt_iff, le_iff, le_iff, lt_iff_le_not_ge]
  le_antisymm _ _ hab hba := ext_day (Int.le_antisymm hab hba)
  le_total a b := Int.le_total a.day b.day
  toDecidableLE := inferInstance
  toDecidableEq := inferInstance
  compare_eq_compareOfLessAndEq a b := by
    have hday : a.day = b.day ↔ a = b := ⟨ext_day, congrArg day⟩
    change compare a.day b.day = _
    rw [LinearOrder.compare_eq_compareOfLessAndEq]
    unfold compareOfLessAndEq
    simp only [lt_iff, hday]

theorem earlier_eq_min (a b : Date) : a.earlier b = min a b := by
  unfold earlier
  split
  · next hlt => exact (min_eq_right (le_of_lt hlt)).symm
  · next hge => exact (min_eq_left (not_lt.mp hge)).symm

theorem weekday_eq_iff_index {d : Date} {w : Weekday} :
    d.weekday = w ↔ (d.day + 4) % 7 = w.index.val := by
  have hindex : d.weekday = w ↔ d.weekday.index = w.index := by
    constructor
    · exact congrArg Weekday.index
    · intro h
      rw [← Weekday.ofIndex_index d.weekday, h, Weekday.ofIndex_index]
  rw [hindex, weekday, Calendar.weekday, Weekday.index_ofIndex, Fin.ext_iff]
  dsimp only
  omega

/-- The days of the week come round every seven days. -/
theorem weekday_eq_iff {d e : Date} : d.weekday = e.weekday ↔ (d.day - e.day) % 7 = 0 := by
  have hindex := weekday_eq_iff_index.mp (Eq.refl e.weekday)
  rw [weekday_eq_iff_index]
  omega

theorem day_of_addDays? {d e : Date} {n : Int} (h : d.addDays? n = some e) :
    e.day = d.day + n :=
  ofDay?_eq_some.mp h

theorem day_of_plusDays {d e : Date} {n : Int} (h : d.plusDays n = .ok e) :
    e.day = d.day + n := by
  unfold plusDays at h
  split at h
  · next found hfound =>
    cases h
    exact day_of_addDays? hfound
  · cases h

/-- A date some days later is found from the earlier one. -/
theorem addDays?_sub (d e : Date) : d.addDays? (e.day - d.day) = some e := by
  apply ofDay?_eq_some.mpr
  omega

/-- The first success in a range of numbers comes after failures only. -/
theorem findSome?_range'_spec {β : Type} {f : Nat → Option β} {start length : Nat} {b : β}
    (h : (List.range' start length).findSome? f = some b) :
    ∃ n, start ≤ n ∧ n < start + length ∧ f n = some b ∧ ∀ k, start ≤ k → k < n → f k = none := by
  induction length generalizing start with
  | zero => cases h
  | succ length ih =>
    rw [List.range'_succ, List.findSome?_cons] at h
    cases hfirst : f start with
    | some found =>
      rw [hfirst] at h
      refine ⟨start, Nat.le_refl _, by omega, ?_, fun k hk hlt => by omega⟩
      rw [hfirst]
      exact h
    | none =>
      rw [hfirst] at h
      obtain ⟨n, hstart, hlength, hn, hbefore⟩ := ih h
      refine ⟨n, by omega, by omega, hn, fun k hk hlt => ?_⟩
      by_cases heq : k = start
      · rw [heq, hfirst]
      · exact hbefore k (by omega) hlt

/-- What `nextWeekday` finds is the first date of the set from a day on, less than a week
later. -/
theorem nextWeekday_spec {d e : Date} {days : WeekDays} {inclusive : Bool}
    (h : d.nextWeekday days inclusive = .ok e) :
    days.contains e.weekday = true ∧
      d.day + (if inclusive then 0 else 1) ≤ e.day ∧
      e.day < d.day + (if inclusive then 0 else 1) + 7 ∧
      ∀ x : Date, days.contains x.weekday = true → d.day + (if inclusive then 0 else 1) ≤ x.day →
        e ≤ x := by
  unfold nextWeekday at h
  dsimp only at h
  split at h
  · next found hfound =>
    cases h
    obtain ⟨n, hstart, hlength, hn, hbefore⟩ := findSome?_range'_spec hfound
    obtain ⟨hadd, hcontains⟩ := Option.filter_eq_some_iff.mp hn
    have hday := day_of_addDays? hadd
    have hbounds : (if inclusive then (0 : Int) else 1) =
        ((if inclusive then 0 else 1 : Nat) : Int) := by
      cases inclusive <;> rfl
    rw [hbounds]
    refine ⟨hcontains, by omega, by omega, fun x hx hle => ?_⟩
    by_contra hgt
    rw [le_iff] at hgt
    have hnone := hbefore (x.day - d.day).toNat (by omega) (by omega)
    have hcast : (((x.day - d.day).toNat : Nat) : Int) = x.day - d.day := by omega
    rw [hcast, addDays?_sub, Option.filter_some] at hnone
    simp [hx] at hnone
  · cases h

theorem day_of_weekStart {d sunday : Date} (h : d.weekStart = .ok sunday) :
    sunday.day = 7 * week d.day - 4 := by
  have hindex := weekday_eq_iff_index.mp (Eq.refl d.weekday)
  unfold weekStart at h
  split at h
  · next found hfound =>
    cases h
    have hday := day_of_addDays? hfound
    unfold week
    omega
  · cases h

/-- The weeks of two dates are one when they start on the same Sunday. -/
theorem weekStart_eq_iff {d e sunday sunday' : Date} (hd : d.weekStart = .ok sunday)
    (he : e.weekStart = .ok sunday') : sunday = sunday' ↔ week d.day = week e.day := by
  have hday := day_of_weekStart hd
  have hday' := day_of_weekStart he
  constructor
  · rintro rfl
    omega
  · intro hweek
    exact ext_day (by omega)

/-- The week of a date starts in the calendar, or finding its start panics. -/
theorem weekStart_cases (d : Date) :
    (∃ sunday, d.weekStart = .ok sunday) ∨
      d.weekStart = .error (.panic .weekStart) ∧ 7 * week d.day - 4 < firstDay := by
  have hindex := weekday_eq_iff_index.mp (Eq.refl d.weekday)
  have hd := d.mem
  by_cases hlow : firstDay ≤ d.day - d.weekday.index.val
  · have hsunday : d.addDays? (-d.weekday.index.val) =
        some ⟨d.day - d.weekday.index.val, by omega⟩ := ofDay?_eq_some.mpr rfl
    exact Or.inl ⟨_, by rw [weekStart, hsunday]⟩
  · refine Or.inr ⟨?_, by
      unfold week
      omega⟩
    unfold weekStart
    split
    · next found hfound =>
      have hday := day_of_addDays? hfound
      have hfound := found.mem
      omega
    · rfl

/-- Later weeks start in the calendar if an earlier one does. -/
theorem exists_weekStart_of_le {d e sunday : Date} (hd : d.weekStart = .ok sunday) (hle : d ≤ e) :
    ∃ sunday', e.weekStart = .ok sunday' := by
  rcases e.weekStart_cases with hok | ⟨-, hearly⟩
  · exact hok
  · have hday := day_of_weekStart hd
    have hsunday := sunday.mem
    rw [le_iff] at hle
    unfold week at hday hearly
    omega

end Date

/-! ## Daily recurrences -/

namespace DailySelection

/-- The dates of a selection, counted from the date of the start. -/
def dates (s : DailySelection) (anchor : Date) : Set Date :=
  match s with
  | everyDays n => {d | anchor ≤ d ∧ (d.day - anchor.day) % n.toNat = 0}
  | weekDays days => {d | anchor ≤ d ∧ days.contains d.weekday = true}

/-- Of two dates a whole number of counts from the anchor, the later one lies a whole count
later. -/
theorem add_le_of_lt {n : UInt32} {anchor d x : Date} (hd : (d.day - anchor.day) % n.toNat = 0)
    (hx : (x.day - anchor.day) % n.toNat = 0) (hlt : d < x) : d.day + n.toNat ≤ x.day := by
  rw [Date.lt_iff] at hlt
  have hdvd : (n.toNat : Int) ∣ x.day - d.day := by
    have hsub := Int.dvd_sub (Int.dvd_of_emod_eq_zero hx) (Int.dvd_of_emod_eq_zero hd)
    have heq : x.day - anchor.day - (d.day - anchor.day) = x.day - d.day := by omega
    rwa [heq] at hsub
  have hle := Int.le_of_dvd (by omega) hdvd
  omega

end DailySelection

namespace Daily

/-- A daily recurrence walks through its dates. -/
theorem walksThrough (d : Daily) (anchor : Date) :
    d.rule.WalksThrough anchor (d.selection.dates anchor) := by
  obtain ⟨times, selection, hproper⟩ := d
  cases selection with
  | everyDays n =>
    have hn : 0 < n.toNat := by
      have hne : n ≠ 0 := by
        intro hzero
        simp [DailySelection.fault?, hzero] at hproper
      exact Nat.pos_of_ne_zero fun h => hne (UInt32.toNat_inj.mp h)
    refine ⟨fun e he => he.1, fun e he => ?_, fun e slots e' hreached he' => ?_⟩
    · cases he
      refine ⟨⟨Int.le_refl _, by simp⟩, fun x hx => hx.1⟩
    · obtain ⟨hle, hmod⟩ := hreached.mem
      have hday : e'.day = e.day + n.toNat := Date.day_of_plusDays he'
      rw [Date.le_iff] at hle
      refine ⟨⟨⟨Date.le_iff.mpr (by omega), ?_⟩, Date.lt_iff.mpr (by omega)⟩, ?_⟩
      · have hsplit : e'.day - anchor.day = e.day - anchor.day + n.toNat := by omega
        rw [hsplit, Int.add_emod_right]
        exact hmod
      · intro x hmem
        obtain ⟨⟨-, hx⟩, hlt⟩ := hmem
        have hle' := DailySelection.add_le_of_lt hmod hx hlt
        exact Date.le_iff.mpr (by omega)
  | weekDays days =>
    refine ⟨fun e he => he.1, fun e he => ?_, fun e slots e' hreached he' => ?_⟩
    · obtain ⟨hcontains, hle, -, hleast⟩ := Date.nextWeekday_spec he
      simp only [if_true, Int.add_zero] at hle hleast
      exact ⟨⟨Date.le_iff.mpr hle, hcontains⟩, fun x hx => hleast x hx.2 hx.1⟩
    · obtain ⟨hcontains, hle, -, hleast⟩ := Date.nextWeekday_spec he'
      simp only [Bool.false_eq_true, if_false] at hle hleast
      have hanchor := Date.le_iff.mp hreached.mem.1
      refine ⟨⟨⟨Date.le_iff.mpr (by omega), hcontains⟩, Date.lt_iff.mpr (by omega)⟩, ?_⟩
      intro x hmem
      obtain ⟨hx, hlt⟩ := hmem
      rw [Date.lt_iff] at hlt
      exact hleast x hx.2 (by omega)

end Daily

/-! ## Weekly recurrences -/

namespace Weekly

variable {w : Weekly} {anchor date first : Date} {day : Weekday}

/-- The weeks from one date to another are a multiple of those between two weeks that count. -/
def Counts (w : Weekly) (first d : Date) : Prop :=
  (week d.day - week first.day) % w.weeks.toNat = 0

/-- The dates of a weekly recurrence: its days of the week from the start on, in the weeks that
count from the week of the first of them. -/
def dates (w : Weekly) (anchor : Date) : Set Date :=
  {d | anchor ≤ d ∧ w.weekDays.contains d.weekday = true ∧
    ∃ first, anchor.nextWeekday w.weekDays true = .ok first ∧ w.Counts first d}

theorem weeks_pos (w : Weekly) : 0 < w.weeks.toNat :=
  Nat.pos_of_ne_zero fun h => w.weeks_ne_zero (UInt32.toNat_inj.mp h)

/-- A day of the week that has not been reached stays in the week of the date if it can. -/
theorem candidate_none {next : Date}
    (hnext : date.nextWeekday (.ofWeekday day) false = .ok next) :
    w.candidate date day none = date.weekStart.bind fun _ =>
      if week next.day = week date.day then .ok next else next.plusDays (w.stride - 7) := by
  have hlater : date ≤ next := by
    obtain ⟨-, hlow, -⟩ := Date.nextWeekday_spec hnext
    rw [Date.le_iff]
    omega
  unfold candidate
  dsimp only
  rw [hnext]
  change (next.weekStart.bind fun firstWeek => date.weekStart.bind fun week => _) = _
  rcases date.weekStart_cases with ⟨sunday, hsunday⟩ | ⟨hpanic, -⟩
  · obtain ⟨sunday', hsunday'⟩ := Date.exists_weekStart_of_le hsunday hlater
    rw [hsunday, hsunday']
    change (if sunday' = sunday then _ else _) = if week next.day = week date.day then _ else _
    simp only [Date.weekStart_eq_iff hsunday' hsunday]
    rfl
  · rw [hpanic]
    rcases next.weekStart_cases with ⟨sunday', hsunday'⟩ | ⟨hpanic', -⟩
    · rw [hsunday']
      rfl
    · rw [hpanic']
      rfl

/-- Of two dates of which one counts, the other counts when the weeks between them do. -/
theorem counts_iff_dvd_week {d e : Date} (hd : w.Counts first d) :
    w.Counts first e ↔ (w.weeks.toNat : Int) ∣ week e.day - week d.day := by
  have hsplit : week e.day - week first.day =
      week e.day - week d.day + (week d.day - week first.day) := by omega
  unfold Counts at hd ⊢
  rw [hsplit, Int.add_emod, hd, Int.add_zero, Int.emod_emod]
  exact ⟨Int.dvd_of_emod_eq_zero, Int.emod_eq_zero_of_dvd⟩

/-- Of two dates with one day of the week, of which one counts, the other counts when they lie a
whole number of strides apart. -/
theorem counts_iff_of_weekday_eq {d e : Date} (hd : w.Counts first d)
    (hweekday : e.weekday = d.weekday) : w.Counts first e ↔ w.stride ∣ e.day - d.day := by
  rw [Date.weekday_eq_iff] at hweekday
  have hweeks : e.day - d.day = 7 * (week e.day - week d.day) := by
    unfold week
    omega
  unfold stride
  rw [counts_iff_dvd_week hd, hweeks, Int.mul_dvd_mul_iff_left (by decide)]

/-- A date a whole number of strides after one that counts has the same day of the week and
counts too. -/
theorem counts_of_stride_dvd {d e : Date} (hd : w.Counts first d) (h : w.stride ∣ e.day - d.day) :
    e.weekday = d.weekday ∧ w.Counts first e := by
  have hweekday : e.weekday = d.weekday := by
    rw [Date.weekday_eq_iff]
    exact Int.emod_eq_zero_of_dvd (Int.dvd_trans (Int.dvd_mul_right 7 w.weeks.toNat) h)
  exact ⟨hweekday, (counts_iff_of_weekday_eq hd hweekday).mpr h⟩

/-- Among the dates a whole number of strides apart from one that counts, the one that lies
after a date by a stride at most is the first. -/
theorem isLeast_of_stride {last c : Date} (hlast : w.Counts first last)
    (hweekday : last.weekday = day) (hdvd : w.stride ∣ c.day - last.day) (hafter : date < c)
    (hwithin : c.day - w.stride ≤ date.day) :
    IsLeast {x | x.weekday = day ∧ w.Counts first x ∧ date < x} c := by
  have hweeks := w.weeks_pos
  have hstride : 0 < w.stride := by
    unfold stride
    omega
  obtain ⟨hc, hcounts⟩ := counts_of_stride_dvd hlast hdvd
  refine ⟨⟨hc.trans hweekday, hcounts, hafter⟩, ?_⟩
  intro x hmem
  obtain ⟨hx, hxcounts, hlt⟩ := hmem
  rw [Date.lt_iff] at hlt
  have hxdvd : w.stride ∣ x.day - c.day :=
    (counts_iff_of_weekday_eq hcounts (hx.trans (hc.trans hweekday).symm)).mp hxcounts
  by_contra hgt
  rw [Date.le_iff] at hgt
  have hdvd' : w.stride ∣ c.day - x.day := by
    have hneg := Int.dvd_neg.mpr hxdvd
    have heq : -(x.day - c.day) = c.day - x.day := by omega
    rwa [heq] at hneg
  have hle := Int.le_of_dvd (by omega) hdvd'
  omega

/-- A day of the week that has been reached comes back a whole number of strides later. -/
theorem isLeast_dateAfter_some {last c : Date} (hlast : w.Counts first last)
    (hweekday : last.weekday = day) (hle : last ≤ date)
    (h : w.dateAfter date day (some last) = .ok c) :
    IsLeast {x | x.weekday = day ∧ w.Counts first x ∧ date < x} c := by
  have hweeks := w.weeks_pos
  have hstride : 0 < w.stride := by
    unfold stride
    omega
  unfold dateAfter at h
  obtain ⟨c₀, hc₀, h⟩ := exists_of_bind_eq_ok h
  have hday₀ : c₀.day = last.day + w.stride := Date.day_of_plusDays hc₀
  rw [Date.le_iff] at hle
  split at h
  · next hearly =>
    -- The date has moved past it, and it is moved after the date by whole strides.
    rw [Date.le_iff] at hearly
    have hday := Date.day_of_plusDays h
    have hquotient := Int.emod_add_mul_ediv (date.day - c₀.day) w.stride
    have hnonneg := Int.emod_nonneg (date.day - c₀.day) (show w.stride ≠ 0 by omega)
    have hlt := Int.emod_lt_of_pos (date.day - c₀.day) hstride
    have hmul : ((date.day - c₀.day) / w.stride + 1) * w.stride =
        w.stride * ((date.day - c₀.day) / w.stride) + w.stride := by
      rw [Int.add_mul, Int.one_mul, Int.mul_comm]
    apply isLeast_of_stride hlast hweekday
    · refine ⟨(date.day - c₀.day) / w.stride + 2, ?_⟩
      have hmul' : w.stride * ((date.day - c₀.day) / w.stride + 2) =
          w.stride * ((date.day - c₀.day) / w.stride) + w.stride * 2 := Int.mul_add ..
      omega
    · rw [Date.lt_iff]
      omega
    · omega
  · next hlate =>
    cases h
    rw [Date.le_iff] at hlate
    apply isLeast_of_stride hlast hweekday
    · refine ⟨1, ?_⟩
      omega
    · rw [Date.lt_iff]
      omega
    · omega

/-- If the next date with a day of the week lies in the week after a date that counts, the dates
with this day that count lie so many strides later, less a week. -/
theorem add_le_of_week_ne {date next x : Date} (hdate : w.Counts first date) (hlt : date < next)
    (hnear : next.day ≤ date.day + 7) (hother : week next.day ≠ week date.day)
    (hweekday : x.weekday = next.weekday) (hx : w.Counts first x) (hle : next.day ≤ x.day) :
    next.day + (w.stride - 7) ≤ x.day := by
  have hstride : w.stride = 7 * w.weeks.toNat := rfl
  rw [Date.lt_iff] at hlt
  rw [Date.weekday_eq_iff] at hweekday
  have hweek : week next.day = week date.day + 1 := by
    unfold week at hother ⊢
    omega
  have hdvd := (counts_iff_dvd_week hdate).mp hx
  have hlater : 0 < week x.day - week date.day := by
    unfold week at hweek ⊢
    omega
  have hweeks := Int.le_of_dvd hlater hdvd
  unfold week at hweek hweeks
  omega

/-- A day of the week that has not been reached is put off to the next week that counts, unless
the week of the date still holds it. -/
theorem isLeast_dateAfter_none {c : Date} (hdate : w.Counts first date)
    (h : w.dateAfter date day none = .ok c) :
    IsLeast {x | x.weekday = day ∧ w.Counts first x ∧ date < x} c := by
  have hweeks := w.weeks_pos
  have hstride : w.stride = 7 * w.weeks.toNat := rfl
  unfold dateAfter at h
  obtain ⟨c₀, hc₀, h⟩ := exists_of_bind_eq_ok h
  obtain ⟨next, hnext, -⟩ := exists_of_bind_eq_ok hc₀
  rw [candidate_none hnext] at hc₀
  obtain ⟨-, -, hc₀⟩ := exists_of_bind_eq_ok hc₀
  obtain ⟨hcontains, hlow, hhigh, hleast⟩ := Date.nextWeekday_spec hnext
  simp only [Bool.false_eq_true, if_false] at hlow hhigh hleast
  have hnextDay : next.weekday = day := WeekDays.contains_ofWeekday.mp hcontains
  have hafter : ∀ x : Date, x.weekday = day → date < x → next.day ≤ x.day := by
    intro x hx hlt
    rw [Date.lt_iff] at hlt
    exact Date.le_iff.mp (hleast x (WeekDays.contains_ofWeekday.mpr hx) (by omega))
  -- The next date lies after the given one, so it stays as it is.
  have hkept : next.day ≤ c₀.day → c = c₀ := by
    intro hle
    split at h
    · next hearly =>
      rw [Date.le_iff] at hearly
      omega
    · cases h
      rfl
  split at hc₀
  · next hsame =>
    cases hc₀
    obtain rfl := hkept (Int.le_refl _)
    refine ⟨⟨hnextDay, ?_, Date.lt_iff.mpr (by omega)⟩, ?_⟩
    · rw [counts_iff_dvd_week hdate, hsame, Int.sub_self]
      exact Int.dvd_zero _
    · intro x hmem
      obtain ⟨hx, -, hlt⟩ := hmem
      exact Date.le_iff.mpr (hafter x hx hlt)
  · next hother =>
    have hday₀ := Date.day_of_plusDays hc₀
    obtain rfl := hkept (by omega)
    have hweek : week next.day = week date.day + 1 := by
      unfold week at hother ⊢
      omega
    have hweekc : week c.day = week date.day + w.weeks.toNat := by
      unfold week at hweek ⊢
      omega
    refine ⟨⟨?_, ?_, Date.lt_iff.mpr (by omega)⟩, ?_⟩
    · rw [← hnextDay, Date.weekday_eq_iff]
      omega
    · rw [counts_iff_dvd_week hdate]
      exact ⟨1, by omega⟩
    · intro x hmem
      obtain ⟨hx, hxcounts, hlt⟩ := hmem
      have hle := add_le_of_week_ne hdate (Date.lt_iff.mpr (by omega)) (by omega) hother
        (hx.trans hnextDay.symm) hxcounts (hafter x hx hlt)
      rw [Date.le_iff]
      omega

/-- The earliest of the next dates of some days of the week, if all of them are in the calendar,
is one of them or the best so far, and no later than any of them. -/
theorem earliestAfter_spec {slots : WeekSlots} {best : Option Date} {days : List Weekday}
    {e : Date} (h : w.earliestAfter date slots best days = .ok e) :
    (best = some e ∨ ∃ day ∈ days, w.dateAfter date day (slots.at? day) = .ok e) ∧
      (∀ b, best = some b → e ≤ b) ∧
      ∀ day ∈ days, ∃ c, w.dateAfter date day (slots.at? day) = .ok c ∧ e ≤ c := by
  induction days generalizing best with
  | nil =>
    cases best with
    | none => cases h
    | some b =>
      cases h
      refine ⟨Or.inl rfl, ?_, by simp⟩
      rintro b ⟨⟩
      exact Int.le_refl _
  | cons day rest ih =>
    rw [earliestAfter] at h
    obtain ⟨c, hc, h⟩ := exists_of_bind_eq_ok h
    cases best with
    | none =>
      have hlater : w.earliestAfter date slots (some c) rest = .ok e := h
      obtain ⟨hfrom, hbest, hrest⟩ := ih hlater
      have hec : e ≤ c := hbest c rfl
      refine ⟨Or.inr ?_, by simp, ?_⟩
      · rcases hfrom with heq | ⟨d, hd, hde⟩
        · rw [Option.some.injEq] at heq
          subst heq
          exact ⟨day, List.mem_cons_self, hc⟩
        · exact ⟨d, List.mem_cons_of_mem day hd, hde⟩
      · intro d hd
        rcases List.mem_cons.mp hd with rfl | hd
        · exact ⟨c, hc, hec⟩
        · exact hrest d hd
    | some b =>
      have hlater : w.earliestAfter date slots (some (b.earlier c)) rest = .ok e := h
      obtain ⟨hfrom, hbest, hrest⟩ := ih hlater
      have hboth : e ≤ b ∧ e ≤ c := by
        rw [← le_min_iff, ← Date.earlier_eq_min]
        exact hbest _ rfl
      refine ⟨?_, ?_, ?_⟩
      · rcases hfrom with heq | ⟨d, hd, hde⟩
        · rw [Option.some.injEq] at heq
          rw [Date.earlier_eq_min] at heq
          rcases min_choice b c with hmin | hmin
          · exact Or.inl (congrArg some (hmin.symm.trans heq))
          · exact Or.inr ⟨day, List.mem_cons_self, by rw [hc, ← heq, hmin]⟩
        · exact Or.inr ⟨d, List.mem_cons_of_mem day hd, hde⟩
      · rintro b ⟨⟩
        exact hboth.1
      · intro d hd
        rcases List.mem_cons.mp hd with rfl | hd
        · exact ⟨c, hc, hboth.2⟩
        · exact hrest d hd

/-- Where a walk has come to, the next date of a selected day of the week is its first one among the
later dates of the recurrence. -/
theorem isLeast_dateAfter {slots : WeekSlots} {c : Date}
    (hreached : DateRule.Reached (w.dates anchor) date slots)
    (hday : w.weekDays.contains day = true)
    (h : w.dateAfter date day (slots.at? day) = .ok c) :
    IsLeast {x ∈ w.dates anchor | date < x ∧ x.weekday = day} c := by
  obtain ⟨hanchor, -, first, hfirst, hcounts⟩ := hreached.mem
  have hleast : IsLeast {x | x.weekday = day ∧ w.Counts first x ∧ date < x} c := by
    cases hslot : slots.at? day with
    | none =>
      rw [hslot] at h
      exact isLeast_dateAfter_none hcounts h
    | some last =>
      rw [hslot] at h
      obtain ⟨⟨-, -, first', hfirst', hlast⟩, hweekday, hle⟩ := hreached.slots_mem day last hslot
      obtain rfl : first = first' := Except.ok.inj (hfirst.symm.trans hfirst')
      exact isLeast_dateAfter_some hlast hweekday hle h
  obtain ⟨⟨hweekday, hc, hlt⟩, hmin⟩ := hleast
  refine ⟨⟨⟨hanchor.trans hlt.le, hweekday ▸ hday, first, hfirst, hc⟩, hlt, hweekday⟩, ?_⟩
  rintro x ⟨⟨-, -, first', hfirst', hx⟩, hlater, hsame⟩
  obtain rfl : first = first' := Except.ok.inj (hfirst.symm.trans hfirst')
  exact hmin ⟨hsame, hx, hlater⟩

/-- A weekly recurrence walks through its dates. -/
theorem walksThrough (w : Weekly) (anchor : Date) :
    w.rule.WalksThrough anchor (w.dates anchor) := by
  refine ⟨fun e he => he.1, fun e he => ?_, fun d slots e hreached he => ?_⟩
  · obtain ⟨hcontains, hle, -, hleast⟩ := Date.nextWeekday_spec he
    simp only [if_true, Int.add_zero] at hle hleast
    refine ⟨⟨Date.le_iff.mpr hle, hcontains, e, he, ?_⟩, fun x hx => hleast x hx.2.1 hx.1⟩
    simp [Counts]
  · obtain ⟨hfrom, -, hall⟩ := w.earliestAfter_spec he
    refine ⟨?_, ?_⟩
    · rcases hfrom with hnone | ⟨day, hday, hde⟩
      · cases hnone
      · obtain ⟨⟨hmem, hlt, -⟩, -⟩ := isLeast_dateAfter hreached (WeekDays.mem_toList.mp hday) hde
        exact ⟨hmem, hlt⟩
    · rintro x ⟨hx, hlt⟩
      obtain ⟨c, hc, hec⟩ := hall x.weekday (WeekDays.mem_toList.mpr hx.2.1)
      exact hec.trans ((isLeast_dateAfter hreached hx.2.1 hc).2 ⟨hx, hlt, rfl⟩)

end Weekly

end Almanac
