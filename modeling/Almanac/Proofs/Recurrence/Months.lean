import Almanac.Proofs.Clock.Calendar
import Almanac.Proofs.Recurrence.Dates
import Almanac.Recurrence.Monthly
import Mathlib.Data.List.Sort

/-!
# The dates of monthly recurrences

The selected dates of a month lie in it and come in ascending order. A scan from one month on
therefore finds the first wanted date of all: a date of an earlier month is not wanted, one of a
month that the scan has passed would have been found there, and later months start after the date
that was found.
-/

namespace Almanac

open Calendar

namespace Date

theorem day_eq_of_addDays?_neg_one {d e : Date} (h : d.addDays? (-1) = some e) :
    e.day = d.day - 1 := by
  rw [day_of_addDays? h]
  omega

end Date

theorem Months.mem_of_contains {s : Months} {month : Nat} (h : s.contains month = true) :
    1 ≤ month ∧ month ≤ 12 := by
  simp only [contains, Bool.and_eq_true, decide_eq_true_eq] at h
  exact h.1

namespace Calendar

variable {year : Int} {month : Nat} {d : Date}

theorem monthLength_ge (year : Int) {month : Nat} (h1 : 1 ≤ month) (h12 : month ≤ 12) :
    28 ≤ monthLength year month := by
  interval_cases month <;> cases hleap : isLeap year <;> simp [monthLength, hleap]

theorem inMonth_of_nthWeekday? {w : Weekday} {n : Nat}
    (h : nthWeekday? year month w n = some d) : InMonth year month d.day := by
  obtain ⟨start, -, hd⟩ := Option.bind_eq_some_iff.mp h
  exact (Date.inMonth_of_ofYearMonthDay? hd).1

/-- The last date of a month with a day of the week lies in its last seven days. -/
theorem inMonth_of_lastWeekday? {w : Weekday} (h1 : 1 ≤ month) (h12 : month ≤ 12)
    (h : lastWeekday? year month w = some d) : InMonth year month d.day := by
  obtain ⟨stop, hstop, hd⟩ := Option.bind_eq_some_iff.mp h
  obtain ⟨start, hstart, hprevious⟩ := Option.bind_eq_some_iff.mp hstop
  have hnext := (Date.inMonth_of_ofYearMonthDay? hstart).2
  rw [monthStart_nextMonth year h1 h12] at hnext
  have hday := Date.day_of_addDays? hd
  have hstopDay := Date.day_eq_of_addDays?_neg_one hprevious
  have hlength := monthLength_ge year h1 h12
  unfold InMonth
  omega

theorem inMonth_of_weekdayAt? {w : Weekday} {p : WeekPosition} (h1 : 1 ≤ month)
    (h12 : month ≤ 12) (h : weekdayAt? year month w p = some d) : InMonth year month d.day := by
  unfold weekdayAt? at h
  split at h
  · exact inMonth_of_nthWeekday? h
  · exact inMonth_of_lastWeekday? h1 h12 h

end Calendar

namespace WeekDaysOfMonth

variable {year : Int} {month : Nat} {d : Date}

theorem earliest_eq_min? (ds : List Date) : earliest ds = ds.min?.toList := by
  cases ds with
  | nil => rfl
  | cons first rest =>
    have hfold : Date.earlier = min := funext₂ Date.earlier_eq_min
    rw [earliest, hfold]
    rfl

theorem mem_of_mem_earliest {ds : List Date} (h : d ∈ earliest ds) : d ∈ ds := by
  rw [earliest_eq_min?, Option.mem_toList] at h
  exact List.min?_mem h

theorem inMonth_of_mem_datesAt {days : WeekDays} {p : WeekPosition} (h1 : 1 ≤ month)
    (h12 : month ≤ 12) (h : d ∈ datesAt year month days p) : InMonth year month d.day := by
  obtain ⟨w, -, hw⟩ := List.mem_filterMap.mp h
  exact inMonth_of_weekdayAt? h1 h12 hw

theorem inMonth_of_mem_dates {w : WeekDaysOfMonth} (h1 : 1 ≤ month) (h12 : month ≤ 12)
    (h : d ∈ w.dates year month) : InMonth year month d.day := by
  unfold dates at h
  split at h
  · exact inMonth_of_mem_datesAt h1 h12 (List.mem_mergeSort.mp h)
  · split at h
    · split at h
      · exact inMonth_of_lastWeekday? h1 h12 (Option.mem_toList.mp h)
      · exact inMonth_of_mem_datesAt h1 h12 (mem_of_mem_earliest h)
    · exact inMonth_of_mem_datesAt h1 h12 (mem_of_mem_earliest h)

theorem sorted_toList (o : Option Date) : o.toList.Pairwise (· ≤ ·) := by
  cases o with
  | none => exact List.Pairwise.nil
  | some d => exact List.pairwise_singleton _ _

theorem sorted_earliest (ds : List Date) : (earliest ds).Pairwise (· ≤ ·) := by
  rw [earliest_eq_min?]
  exact sorted_toList _

theorem sorted_dates (w : WeekDaysOfMonth) (year : Int) (month : Nat) :
    (w.dates year month).Pairwise (· ≤ ·) := by
  unfold dates
  split
  · exact List.pairwise_mergeSort' _ _
  · split
    · split
      · exact sorted_toList _
      · exact sorted_earliest _
    · exact sorted_earliest _

end WeekDaysOfMonth

namespace Monthly

variable {m : Monthly} {year : Int} {month : Nat} {d : Date}

/-- The selected dates of a month lie in it. -/
theorem inMonth_of_mem_datesIn (h : d ∈ m.datesIn year month) :
    (1 ≤ month ∧ month ≤ 12) ∧ InMonth year month d.day := by
  unfold datesIn at h
  split at h
  · next hmonth =>
    obtain ⟨h1, h12⟩ := Months.mem_of_contains hmonth
    refine ⟨⟨h1, h12⟩, ?_⟩
    split at h
    · exact (Date.inMonth_of_ofYearMonthDay? (Option.mem_toList.mp h)).1
    · exact WeekDaysOfMonth.inMonth_of_mem_dates h1 h12 h
  · cases h

/-- The selected dates of a month come in ascending order. -/
theorem sorted_datesIn (m : Monthly) (year : Int) (month : Nat) :
    (m.datesIn year month).Pairwise (· ≤ ·) := by
  unfold datesIn
  split
  · split
    · exact WeekDaysOfMonth.sorted_toList _
    · exact WeekDaysOfMonth.sorted_dates ..
  · exact List.Pairwise.nil

/-- A selected date of any month is a selected date of its own. -/
theorem mem_datesIn_self (h : d ∈ m.datesIn year month) : d ∈ m.datesIn d.year d.month := by
  obtain ⟨⟨h1, h12⟩, hin⟩ := inMonth_of_mem_datesIn h
  obtain ⟨hyear, hmonth⟩ := hin.unique h1 h12 d.month_mem.1 d.month_mem.2 d.inMonth
  rwa [hyear, hmonth] at h

/-- The first element of an ascending list with a property is its least one. -/
theorem le_of_find?_eq_some {ds : List Date} {wanted : Date → Bool} {e x : Date}
    (hsorted : ds.Pairwise (· ≤ ·)) (h : ds.find? wanted = some e) (hx : x ∈ ds)
    (hwanted : wanted x = true) : e ≤ x := by
  obtain ⟨-, before, after, rfl, hbefore⟩ := List.find?_eq_some_iff_append.mp h
  rcases List.mem_append.mp hx with hin | hin
  · have hunwanted := hbefore x hin
    rw [hwanted] at hunwanted
    cases hunwanted
  · rcases List.mem_cons.mp hin with rfl | hin
    · exact Int.le_refl _
    · exact (List.pairwise_cons.mp (List.pairwise_append.mp hsorted).2.1).1 x hin

/-- A scan finds the first wanted date from its first month on. -/
theorem scanFrom_spec {wanted : Date → Bool} {bound : Nat} {e : Date} (h1 : 1 ≤ month)
    (h12 : month ≤ 12) (h : m.scanFrom wanted bound year month = some e) :
    e ∈ m.datesIn e.year e.month ∧ wanted e = true ∧
      ∀ x, x ∈ m.datesIn x.year x.month → wanted x = true → monthStart year month ≤ x.day →
        e ≤ x := by
  induction bound generalizing year month with
  | zero => cases h
  | succ bound ih =>
    have hnextStart := monthStart_nextMonth year h1 h12
    -- A date from this month on lies in this month, or in a later one.
    have hsplit : ∀ x : Date, x ∈ m.datesIn x.year x.month → monthStart year month ≤ x.day →
        x ∈ m.datesIn year month ∨
          monthStart (nextMonth year month).1 (nextMonth year month).2 ≤ x.day := by
      intro x hx hstart
      by_cases hlater : monthStart (nextMonth year month).1 (nextMonth year month).2 ≤ x.day
      · exact Or.inr hlater
      · have hin : InMonth year month x.day := ⟨hstart, by omega⟩
        obtain ⟨hyear, hmonth⟩ := x.inMonth.unique x.month_mem.1 x.month_mem.2 h1 h12 hin
        rw [hyear, hmonth] at hx
        exact Or.inl hx
    unfold scanFrom at h
    split at h
    · next found hfound =>
      cases h
      have hmem := List.mem_of_find?_eq_some hfound
      refine ⟨mem_datesIn_self hmem, List.find?_some hfound, fun x hx hwanted hstart => ?_⟩
      rcases hsplit x hx hstart with hin | hlater
      · exact le_of_find?_eq_some (m.sorted_datesIn year month) hfound hin hwanted
      · have hend := (inMonth_of_mem_datesIn hmem).2.2
        exact Date.le_iff.mpr (by omega)
    · next hnone =>
      obtain ⟨hnext1, hnext12⟩ := nextMonth_mem year h1 h12
      obtain ⟨hmem, hwanted, hleast⟩ := ih hnext1 hnext12 h
      refine ⟨hmem, hwanted, fun x hx hxwanted hstart => ?_⟩
      rcases hsplit x hx hstart with hin | hlater
      · exact absurd hxwanted (List.find?_eq_none.mp hnone x hin)
      · exact hleast x hx hxwanted hlater

/-- The dates that a scan wants are the ones from a date on, or after it. -/
theorem wanted_iff {date x : Date} {inclusive : Bool} :
    (if inclusive then decide (date ≤ x) else decide (date < x)) = true ↔
      date.day + (if inclusive then 0 else 1) ≤ x.day := by
  cases inclusive with
  | true => simp [Date.le_iff]
  | false =>
    simp only [Bool.false_eq_true, if_false, decide_eq_true_eq, Date.lt_iff]
    omega

/-- The dates of a monthly recurrence from the date of its start on. -/
def dates (m : Monthly) (anchor : Date) : Set Date :=
  {d | anchor ≤ d ∧ d ∈ m.datesIn d.year d.month}

/-- What a scan finds is the first selected date on or after a date, or after it. -/
theorem scan_spec {date e : Date} {inclusive : Bool} (h : m.scan date inclusive = .ok e) :
    e ∈ m.datesIn e.year e.month ∧ date.day + (if inclusive then 0 else 1) ≤ e.day ∧
      ∀ x, x ∈ m.datesIn x.year x.month → date.day + (if inclusive then 0 else 1) ≤ x.day →
        e ≤ x := by
  unfold scan at h
  dsimp only at h
  split at h
  · next found hfound =>
    cases h
    obtain ⟨hmem, hwanted, hleast⟩ := scanFrom_spec date.month_mem.1 date.month_mem.2 hfound
    refine ⟨hmem, wanted_iff.mp hwanted, fun x hx hle => ?_⟩
    have hstart := date.inMonth.1
    refine hleast x hx (wanted_iff.mpr hle) ?_
    split at hle <;> omega
  · cases h

/-- A monthly recurrence walks through its dates. -/
theorem walksThrough (m : Monthly) (anchor : Date) :
    m.rule.WalksThrough anchor (m.dates anchor) := by
  refine ⟨fun e he => he.1, fun e he => ?_, fun d slots e hreached he => ?_⟩
  · obtain ⟨hmem, hle, hleast⟩ := scan_spec he
    simp only [if_true, Int.add_zero] at hle hleast
    exact ⟨⟨Date.le_iff.mpr hle, hmem⟩, fun x hx => hleast x hx.2 hx.1⟩
  · obtain ⟨hmem, hle, hleast⟩ := scan_spec he
    simp only [Bool.false_eq_true, if_false] at hle hleast
    have hanchor := Date.le_iff.mp hreached.mem.1
    refine ⟨⟨⟨Date.le_iff.mpr (by omega), hmem⟩, Date.lt_iff.mpr (by omega)⟩, ?_⟩
    intro x hmem
    obtain ⟨hx, hlt⟩ := hmem
    rw [Date.lt_iff] at hlt
    exact hleast x hx.2 (by omega)

end Monthly

end Almanac
