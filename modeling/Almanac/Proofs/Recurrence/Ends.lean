import Almanac.Proofs.Clock.Years
import Almanac.Proofs.Recurrence.Accepted
import Almanac.Proofs.Recurrence.History

/-!
# Where the dates end

A rule returns an error only where dates come to an end. A daily or a monthly rule that fails has
none left: a scan of a whole cycle of the calendar misses none, since a date of a month comes back
within eight years. A weekly rule asks for the next date of each of its days of the week and fails
with the first of them that has none left, while others may go on. The dates of a rule therefore
fall into strands, one for each day of a weekly rule, and a rule that fails has come to the end of
one of them.
-/

namespace Almanac

open Calendar

/-- A rule that fails has come to the end of a strand of its dates, or it panics. -/
structure DateRule.EndsWith (rule : DateRule) (anchor : Date) (dates : Set Date)
    (strands : Set (Set Date)) : Prop where
  of_first : ∀ fault, rule.first anchor = .error fault → fault.isPanic = false →
    ∃ strand ∈ strands, ∀ x ∈ dates, x ∉ strand
  of_next : ∀ d slots fault, DateRule.Reached dates d slots → rule.next d slots = .error fault →
    fault.isPanic = false → ∃ strand ∈ strands, ∀ x ∈ dates, d < x → x ∉ strand

namespace Date

variable {d e x : Date} {n : Int} {days : WeekDays} {inclusive : Bool} {fault : Fault}

/-- The calendar holds a date some days later if it holds a date beyond. -/
theorem exists_plusDays (hn : 0 ≤ n) (hle : d.day + n ≤ e.day) : ∃ f, d.plusDays n = .ok f := by
  have hd := d.mem
  have he := e.mem
  have hsum : d.addDays? n = some ⟨d.day + n, by omega⟩ := ofDay?_eq_some.mpr rfl
  exact ⟨_, by rw [plusDays, hsum]⟩

theorem add_ite_le_iff_le : d.day + (if true then 0 else 1) ≤ x.day ↔ d ≤ x := by
  rw [if_pos rfl, Int.add_zero, le_iff]

theorem add_ite_le_iff_lt : d.day + (if false then 0 else 1) ≤ x.day ↔ d < x := by
  rw [if_neg Bool.false_ne_true, lt_iff]
  exact Int.add_one_le_iff

theorem add_ite_le_iff : d.day + (if inclusive then 0 else 1) ≤ x.day ↔
    if inclusive then d ≤ x else d < x := by
  cases inclusive with
  | true => exact add_ite_le_iff_le
  | false => exact add_ite_le_iff_lt

/-- A search for a day of the week fails only at the end of the calendar. -/
theorem not_contains_of_nextWeekday_error (h : d.nextWeekday days inclusive = .error fault)
    (hle : d.day + (if inclusive then 0 else 1) ≤ x.day) : ¬days.contains x.weekday = true := by
  intro hx
  obtain ⟨first, hfirst⟩ := exists_nextWeekday hx hle
  rw [h] at hfirst
  cases hfirst

end Date

/-! ## Daily recurrences -/

theorem Daily.endsWith (d : Daily) (anchor : Date) :
    d.rule.EndsWith anchor (d.selection.dates anchor) {Set.univ} := by
  obtain ⟨times, selection, hproper⟩ := d
  cases selection with
  | everyDays n =>
    refine ⟨fun fault hfirst => ?_, fun e slots fault hreached hnext _ => ?_⟩
    · cases hfirst
    · refine ⟨_, rfl, fun x hx hlt => ?_⟩
      have hle := DailySelection.add_le_of_lt hreached.mem.2 hx.2 hlt
      obtain ⟨f, hf⟩ := Date.exists_plusDays (Int.natCast_nonneg _) hle
      have hnext' : e.plusDays n.toNat = .error fault := hnext
      rw [hf] at hnext'
      cases hnext'
  | weekDays days =>
    refine ⟨fun fault hfirst _ => ⟨_, rfl, fun x hx => ?_⟩,
      fun e slots fault _ hnext _ => ⟨_, rfl, fun x hx hlt => ?_⟩⟩
    · exact (Date.not_contains_of_nextWeekday_error hfirst (Date.add_ite_le_iff_le.mpr hx.1)
        hx.2).elim
    · exact (Date.not_contains_of_nextWeekday_error hnext (Date.add_ite_le_iff_lt.mpr hlt)
        hx.2).elim

/-! ## Weekly recurrences -/

namespace Weekly

variable {w : Weekly} {anchor date first last x : Date} {day : Weekday} {fault : Fault}

/-- The dates of a weekly recurrence, divided by the day of the week. -/
def strands (w : Weekly) : Set (Set Date) :=
  {strand | ∃ day, w.weekDays.contains day = true ∧ strand = {x | x.weekday = day}}

/-- A day of the week that has been reached has a next date if it has any later one. -/
theorem exists_dateAfter_some (hlast : w.Counts first last) (hweekday : last.weekday = day)
    (hle : last ≤ date) (hx : x.weekday = day) (hcounts : w.Counts first x) (hlt : date < x) :
    ∃ c, w.dateAfter date day (some last) = .ok c := by
  have hweeks := w.weeks_pos
  have hstride : 0 < w.stride := by
    unfold stride
    omega
  obtain ⟨q, hq⟩ := (counts_iff_of_weekday_eq hlast (hx.trans hweekday.symm)).mp hcounts
  rw [Date.le_iff] at hle
  rw [Date.lt_iff] at hlt
  have hpos : 0 < q := by
    by_contra hnot
    have hmul := Int.mul_nonpos_of_nonneg_of_nonpos hstride.le (not_lt.mp hnot)
    omega
  have hwhole := Int.le_of_dvd (by omega) (Int.dvd_mul_right w.stride q)
  obtain ⟨c₀, hc₀⟩ := Date.exists_plusDays hstride.le (show last.day + w.stride ≤ x.day by omega)
  have hday₀ : c₀.day = last.day + w.stride := Date.day_of_plusDays hc₀
  unfold dateAfter candidate
  dsimp only
  rw [hc₀]
  change ∃ c, (if c₀ ≤ date then
    c₀.plusDays (((date.day - c₀.day) / w.stride + 1) * w.stride) else .ok c₀) = .ok c
  split
  · next hearly =>
    rw [Date.le_iff] at hearly
    -- The later date lies more whole strides after the first of them than the given one.
    have hless : (date.day - c₀.day) / w.stride < q - 1 := by
      apply Int.ediv_lt_of_lt_mul hstride
      rw [Int.sub_mul, Int.mul_comm q]
      omega
    have hmul := Int.mul_le_mul_of_nonneg_right (show _ + 1 ≤ q - 1 from hless) hstride.le
    rw [Int.sub_mul, Int.mul_comm q] at hmul
    refine Date.exists_plusDays ?_ (show _ ≤ x.day by omega)
    exact Int.mul_nonneg (by
      have hnonneg := Int.ediv_nonneg (show 0 ≤ date.day - c₀.day by omega) hstride.le
      omega) hstride.le
  · exact ⟨c₀, rfl⟩

/-- A day of the week that has not been reached has a next date if it has any later one, unless its
week cannot be told. -/
theorem exists_dateAfter_none (hdate : w.Counts first date) (hx : x.weekday = day)
    (hcounts : w.Counts first x) (hlt : date < x) :
    (∃ c, w.dateAfter date day none = .ok c) ∨
      w.dateAfter date day none = .error (.panic .weekStart) := by
  have hweeks := w.weeks_pos
  have hstride : w.stride = 7 * w.weeks.toNat := rfl
  have hle := Date.add_ite_le_iff_lt.mpr hlt
  obtain ⟨next, hnext⟩ :=
    Date.exists_nextWeekday (WeekDays.contains_ofWeekday.mpr hx) hle
  obtain ⟨hcontains, hlow, hhigh, hleast⟩ := Date.nextWeekday_spec hnext
  simp only [Bool.false_eq_true, if_false] at hle hlow hhigh hleast
  have hnextDay : next.weekday = day := WeekDays.contains_ofWeekday.mp hcontains
  have hbefore : next.day ≤ x.day :=
    Date.le_iff.mp (hleast x (WeekDays.contains_ofWeekday.mpr hx) hle)
  rcases date.weekStart_cases with ⟨sunday, hsunday⟩ | ⟨hpanic, -⟩
  case inr =>
    refine Or.inr ?_
    unfold dateAfter
    rw [candidate_none hnext, hpanic]
    rfl
  have hcandidate : ∃ c, w.candidate date day none = .ok c ∧ next.day ≤ c.day := by
    rw [candidate_none hnext, hsunday]
    change ∃ c, (if week next.day = week date.day then .ok next
      else next.plusDays (w.stride - 7)) = .ok c ∧ next.day ≤ c.day
    split
    · exact ⟨next, rfl, Int.le_refl _⟩
    · next hother =>
      have hroom := add_le_of_week_ne hdate (Date.lt_iff.mpr (by omega)) (by omega) hother
        (hx.trans hnextDay.symm) hcounts hbefore
      obtain ⟨c, hc⟩ := Date.exists_plusDays (show 0 ≤ w.stride - 7 by omega) hroom
      have hday := Date.day_of_plusDays hc
      exact ⟨c, hc, by omega⟩
  obtain ⟨c, hc, hlater⟩ := hcandidate
  refine Or.inl ⟨c, ?_⟩
  unfold dateAfter
  rw [hc]
  exact if_neg (by
    rw [Date.le_iff]
    omega)

/-- The search for the earliest date fails with a day of the week that has none. -/
theorem exists_of_earliestAfter_error {slots : WeekSlots} {best : Option Date}
    {days : List Weekday} (h : w.earliestAfter date slots best days = .error fault) :
    best = none ∧ days = [] ∨
      ∃ day ∈ days, w.dateAfter date day (slots.at? day) = .error fault := by
  induction days generalizing best with
  | nil =>
    cases best with
    | none => exact Or.inl ⟨rfl, rfl⟩
    | some b => cases h
  | cons day rest ih =>
    rw [earliestAfter] at h
    rcases error_or_of_bind_eq_error h with hday | ⟨c, -, h⟩
    · exact Or.inr ⟨day, List.mem_cons_self, hday⟩
    · rcases ih h with ⟨hnone, -⟩ | ⟨other, hother, herror⟩
      · cases hnone
      · exact Or.inr ⟨other, List.mem_cons_of_mem day hother, herror⟩

theorem toList_weekDays_ne_nil (w : Weekly) : w.weekDays.toList ≠ [] := by
  obtain ⟨⟨day, hday⟩, -⟩ := WeekDays.isProper_iff.mp w.proper
  exact List.ne_nil_of_mem (WeekDays.mem_toList.mpr hday)

theorem endsWith (w : Weekly) (anchor : Date) :
    w.rule.EndsWith anchor (w.dates anchor) w.strands := by
  obtain ⟨⟨some, hsome⟩, -⟩ := WeekDays.isProper_iff.mp w.proper
  refine ⟨fun fault hfirst _ => ⟨_, ⟨some, hsome, rfl⟩, fun x hx => ?_⟩,
    fun d slots fault hreached hnext hreturns => ?_⟩
  · exact (Date.not_contains_of_nextWeekday_error hfirst (Date.add_ite_le_iff_le.mpr hx.1)
      hx.2.1).elim
  · rcases exists_of_earliestAfter_error hnext with ⟨-, hempty⟩ | ⟨day, hday, herror⟩
    · exact (w.toList_weekDays_ne_nil hempty).elim
    · refine ⟨_, ⟨day, WeekDays.mem_toList.mp hday, rfl⟩, fun x hx hlt hweekday => ?_⟩
      obtain ⟨-, -, first, hfirst, hcounts⟩ := hreached.mem
      obtain ⟨-, -, first', hfirst', hxcounts⟩ := hx
      rw [hfirst] at hfirst'
      cases hfirst'
      have hfound : (∃ c, w.dateAfter d day (slots.at? day) = .ok c) ∨
          w.dateAfter d day (slots.at? day) = .error (.panic .weekStart) := by
        cases hslot : slots.at? day with
        | none => exact exists_dateAfter_none hcounts hweekday hxcounts hlt
        | some last =>
          obtain ⟨⟨-, -, first', hfirst', hlast⟩, hlastDay, hle⟩ :=
            hreached.slots_mem day last hslot
          rw [hfirst] at hfirst'
          cases hfirst'
          exact Or.inl (exists_dateAfter_some hlast hlastDay hle hweekday hxcounts hlt)
      rw [herror] at hfound
      rcases hfound with ⟨c, hc⟩ | hpanic
      · cases hc
      · cases hpanic
        cases hreturns

end Weekly

/-! ## Monthly recurrences -/

namespace Calendar

variable {year : Int} {month : Nat} {d : Date}

/-- Within the next eight years a month is as long as in any given year, or longer. -/
theorem exists_le_monthLength_add (year year' : Int) (month : Nat) :
    ∃ k : Int, (1 ≤ k ∧ k ≤ 8) ∧ monthLength year' month ≤ monthLength (year + k) month := by
  by_cases hfebruary : month = 2
  · subst hfebruary
    -- Of the next two years that four divides, at most one is a century that is no leap year.
    obtain ⟨k, hk, hleap⟩ : ∃ k : Int, (1 ≤ k ∧ k ≤ 8) ∧ isLeap (year + k) = true := by
      by_cases hfour : isLeap (year + (4 - year % 4)) = true
      · exact ⟨4 - year % 4, by omega, hfour⟩
      · refine ⟨8 - year % 4, by omega, ?_⟩
        rw [isLeap_iff] at hfour ⊢
        omega
    have hlength : ∀ y, monthLength y 2 = if isLeap y then 29 else 28 := fun _ => rfl
    refine ⟨k, hk, ?_⟩
    rw [hlength, hlength, if_pos hleap]
    split <;> decide
  · refine ⟨1, by decide, le_of_eq ?_⟩
    unfold monthLength
    split <;> first | rfl | contradiction

/-- A month lies wholly within the calendar. -/
def MonthInCalendar (year : Int) (month : Nat) : Prop :=
  (1 ≤ month ∧ month ≤ 12) ∧ firstDay ≤ monthStart year month ∧
    monthStart year month + monthLength year month ≤ lastDay

/-- A month lies wholly within the calendar, unless it belongs to the last year or lies outside. -/
theorem monthInCalendar_of_year (hfirst : firstYear ≤ year) (hlast : year < lastYear)
    (h1 : 1 ≤ month) (h12 : month ≤ 12) : MonthInCalendar year month := by
  have hstart := yearStart_mono hfirst
  have hend := yearStart_mono (show year + 1 ≤ lastYear from hlast)
  have hlength := daysBeforeMonth_add_le_yearLength year h1 h12
  have hnext := yearStart_succ year
  have hfirstDay := yearStart_firstYear
  have hlastDay : yearStart lastYear ≤ lastDay := by decide
  refine ⟨⟨h1, h12⟩, ?_⟩
  rw [monthStart_eq]
  exact ⟨by omega, by omega⟩

/-- Such a month has all its dates. -/
theorem MonthInCalendar.exists_date (h : MonthInCalendar year month) {day : Nat} (hday : 1 ≤ day)
    (hlength : day ≤ monthLength year month) :
    ∃ d, Date.ofYearMonthDay? year month day = some d := by
  obtain ⟨hmonth, hfirst, hlast⟩ := h
  have hnumber : dayNumber year month day = monthStart year month + day - 1 := by
    rw [monthStart_eq, dayNumber]
  refine ⟨⟨dayNumber year month day, by omega⟩, ?_⟩
  unfold Date.ofYearMonthDay?
  rw [if_pos ⟨hmonth.1, hmonth.2, hday, hlength⟩]
  exact Date.ofDay?_eq_some.mpr rfl

/-- Such a month has every day of the week at every position. -/
theorem MonthInCalendar.exists_weekdayAt? (h : MonthInCalendar year month) (w : Weekday)
    (p : WeekPosition) : ∃ d, weekdayAt? year month w p = some d := by
  have hlong := monthLength_ge year h.1.1 h.1.2
  have hnth : ∀ n, 1 ≤ n → n ≤ 4 → ∃ d, nthWeekday? year month w n = some d := by
    intro n hn hn4
    obtain ⟨start, hstart⟩ := h.exists_date le_rfl (by omega)
    unfold nthWeekday?
    rw [hstart]
    exact h.exists_date (by omega) (by omega)
  have hlast : ∃ d, lastWeekday? year month w = some d := by
    obtain ⟨hnext1, hnext12⟩ := nextMonth_mem year h.1.1 h.1.2
    have hnextLength := monthLength_ge (nextMonth year month).1 hnext1 hnext12
    have hnextStart := monthStart_nextMonth year h.1.1 h.1.2
    obtain ⟨-, hfirst, hend⟩ := h
    have hnumber : dayNumber (nextMonth year month).1 (nextMonth year month).2 1 =
        monthStart (nextMonth year month).1 (nextMonth year month).2 := rfl
    have hnext : Date.ofYearMonthDay? (nextMonth year month).1 (nextMonth year month).2 1 =
        some ⟨monthStart year month + monthLength year month, by omega⟩ := by
      unfold Date.ofYearMonthDay?
      rw [if_pos ⟨hnext1, hnext12, le_rfl, by omega⟩, hnumber, hnextStart]
      exact Date.ofDay?_eq_some.mpr rfl
    have hstop : lastDate? year month =
        some ⟨monthStart year month + monthLength year month - 1, by omega⟩ := by
      unfold lastDate?
      dsimp only
      rw [hnext]
      exact Date.ofDay?_eq_some.mpr rfl
    unfold lastWeekday?
    rw [hstop]
    generalize hstopDate : (⟨monthStart year month + monthLength year month - 1, _⟩ : Date) = stop
    have hday : stop.day = monthStart year month + monthLength year month - 1 :=
      congrArg Date.day hstopDate.symm
    have hback : (7 + stop.weekday.index.val - w.index.val) % 7 < 7 := Nat.mod_lt _ (by decide)
    exact ⟨⟨stop.day - ((7 + stop.weekday.index.val - w.index.val) % 7 : Nat), by omega⟩,
      Date.ofDay?_eq_some.mpr rfl⟩
  unfold weekdayAt?
  cases p with
  | first => exact hnth 1 le_rfl (by decide)
  | second => exact hnth 2 (by decide) (by decide)
  | third => exact hnth 3 (by decide) (by decide)
  | fourth => exact hnth 4 (by decide) le_rfl
  | last => exact hlast

/-- Selected days of the week have dates in such a month. -/
theorem MonthInCalendar.exists_mem_dates (h : MonthInCalendar year month) {w : WeekDaysOfMonth}
    (hproper : w.weekDays.isProper = true) : ∃ d, d ∈ w.dates year month := by
  obtain ⟨⟨day, hday⟩, -⟩ := WeekDays.isProper_iff.mp hproper
  have hat : ∀ p, ∃ d, d ∈ WeekDaysOfMonth.datesAt year month w.weekDays p := by
    intro p
    obtain ⟨d, hd⟩ := h.exists_weekdayAt? day p
    exact ⟨d, List.mem_filterMap.mpr ⟨day, WeekDays.mem_toList.mpr hday, hd⟩⟩
  have hearliest : ∀ p, ∃ d, d ∈
      WeekDaysOfMonth.earliest (WeekDaysOfMonth.datesAt year month w.weekDays p) := by
    intro p
    obtain ⟨d, hd⟩ := hat p
    cases hdates : WeekDaysOfMonth.datesAt year month w.weekDays p with
    | nil =>
      rw [hdates] at hd
      cases hd
    | cons first rest => exact ⟨_, List.mem_singleton.mpr rfl⟩
  unfold WeekDaysOfMonth.dates
  split
  · obtain ⟨d, hd⟩ := hat w.position
    exact ⟨d, List.mem_mergeSort.mpr hd⟩
  · split
    · split
      · next day hrun =>
        obtain ⟨d, hd⟩ := h.exists_weekdayAt? day .last
        exact ⟨d, Option.mem_toList.mpr hd⟩
      · exact hearliest .fourth
    · exact hearliest w.position

end Calendar

namespace Date

/-- The months, counted on. -/
def monthIndex (d : Date) : Int := d.year * 12 + d.month

theorem day_lt_of_monthIndex_lt {d e : Date} (h : d.monthIndex < e.monthIndex) : d.day < e.day := by
  have hd := d.month_mem
  have he := e.month_mem
  unfold monthIndex at h
  have hle := monthEnd_le_monthStart hd.1 hd.2 he.2
    (show d.year < e.year ∨ (d.year = e.year ∧ d.month < e.month) by omega)
  have hdend := d.inMonth.2
  have hestart := e.inMonth.1
  omega

theorem lt_of_year_lt {d e : Date} (h : d.year < e.year) : d < e := by
  have hd := d.month_mem
  have he := e.month_mem
  refine lt_iff.mpr (day_lt_of_monthIndex_lt ?_)
  unfold monthIndex
  omega

end Date

namespace Monthly

variable {m : Monthly} {year : Int} {month bound : Nat} {date x : Date} {wanted : Date → Bool}
  {inclusive : Bool} {fault : Fault}

/-- A scan that finds nothing has passed over all its months. -/
theorem add_le_monthIndex_of_scanFrom (h1 : 1 ≤ month) (h12 : month ≤ 12)
    (h : m.scanFrom wanted bound year month = none) (hx : x ∈ m.datesIn x.year x.month)
    (hwanted : wanted x = true) (hle : year * 12 + month ≤ x.monthIndex) :
    year * 12 + month + bound ≤ x.monthIndex := by
  induction bound generalizing year month with
  | zero => simpa using hle
  | succ bound ih =>
    unfold scanFrom at h
    split at h
    · cases h
    · next hnone =>
      have hmonth := x.month_mem
      have hlater : year * 12 + month ≠ x.monthIndex := by
        intro heq
        unfold Date.monthIndex at heq
        obtain ⟨rfl, rfl⟩ : year = x.year ∧ month = x.month := by omega
        exact absurd hwanted (List.find?_eq_none.mp hnone x hx)
      have hindex : (nextMonth year month).1 * 12 + (nextMonth year month).2 =
          year * 12 + month + 1 := by
        unfold nextMonth
        split
        · dsimp only
          omega
        · dsimp only
          omega
      obtain ⟨hnext1, hnext12⟩ := nextMonth_mem year h1 h12
      have hrest := ih hnext1 hnext12 h (by omega)
      omega

/-- An accepted monthly recurrence has a date in one of the eight years after any year. -/
theorem exists_mem_datesIn_of_year (m : Monthly) (hfirst : firstYear ≤ year)
    (hlast : year + 8 < lastYear) :
    ∃ x : Date, x ∈ m.datesIn x.year x.month ∧ year < x.year ∧ x.year ≤ year + 8 := by
  obtain ⟨⟨⟨some, hsome⟩, -⟩, hselection⟩ := MonthlySelection.fault?_eq_none_iff.mp m.proper
  have hmonth : ∃ k : Int, (1 ≤ k ∧ k ≤ 8) ∧ ∃ month x, x ∈ m.datesIn (year + k) month := by
    cases hkind : m.selection with
    | dayOfMonth day =>
      rw [hkind] at hselection
      obtain ⟨hday, month, hmonth, year', hyear'⟩ := hselection
      obtain ⟨k, hk, hlength⟩ := exists_le_monthLength_add year year' month
      obtain ⟨h1, h12⟩ := Months.mem_of_contains hmonth
      have hin : MonthInCalendar (year + k) month :=
        monthInCalendar_of_year (by omega) (by omega) h1 h12
      obtain ⟨x, hx⟩ := hin.exists_date hday (hyear'.trans hlength)
      refine ⟨k, hk, month, x, ?_⟩
      rw [datesIn, if_pos hmonth, hkind]
      exact Option.mem_toList.mpr hx
    | weekDaysOfMonth w =>
      rw [hkind] at hselection
      obtain ⟨h1, h12⟩ := Months.mem_of_contains hsome
      have hin : MonthInCalendar (year + 1) some :=
        monthInCalendar_of_year (by omega) (by omega) h1 h12
      obtain ⟨x, hx⟩ := hin.exists_mem_dates (WeekDays.isProper_iff.mpr hselection)
      refine ⟨1, by decide, some, x, ?_⟩
      rw [datesIn, if_pos hsome, hkind]
      exact hx
  obtain ⟨k, hk, month, x, hx⟩ := hmonth
  obtain ⟨⟨h1, h12⟩, hin⟩ := inMonth_of_mem_datesIn hx
  have hyear : x.year = year + k := hin.yearOf_eq h1 h12
  exact ⟨x, mem_datesIn_self hx, by omega, by omega⟩

/-- A scan of a whole cycle that finds nothing has come to the end of the dates. -/
theorem lt_of_scan_error (h : m.scan date inclusive = .error fault)
    (hx : x ∈ m.datesIn x.year x.month) :
    x.day < date.day + (if inclusive then 0 else 1) := by
  have hnone : m.scanFrom (fun d => if inclusive then decide (date ≤ d) else decide (date < d))
      cycle date.year date.month = none := by
    unfold scan at h
    dsimp only at h
    split at h
    · cases h
    · assumption
  by_contra hwanted
  rw [Int.not_lt] at hwanted
  have hpassed : ∀ y : Date, y ∈ m.datesIn y.year y.month →
      date.day + (if inclusive then 0 else 1) ≤ y.day → date.monthIndex + cycle ≤ y.monthIndex := by
    intro y hy hle
    have hafter : date.monthIndex ≤ y.monthIndex := by
      by_contra hlt
      have hday := Date.day_lt_of_monthIndex_lt (not_le.mp hlt)
      split at hle <;> omega
    exact add_le_monthIndex_of_scanFrom date.month_mem.1 date.month_mem.2 hnone hy
      (wanted_iff.mpr hle) hafter
  have hfar := hpassed x hx hwanted
  have hcycle : (cycle : Int) = 4800 := rfl
  have hdate := date.month_mem
  have hxmonth := x.month_mem
  have hlast := x.year_mem.2
  unfold Date.monthIndex at hfar
  -- As the calendar goes on for a cycle, one of its dates comes in the next eight years.
  obtain ⟨y, hy, hlater, hwithin⟩ :=
    m.exists_mem_datesIn_of_year date.year_mem.1 (show date.year + 8 < lastYear by omega)
  have hday := Date.lt_iff.mp (Date.lt_of_year_lt hlater)
  have hnear := hpassed y hy (by split <;> omega)
  have hymonth := y.month_mem
  unfold Date.monthIndex at hnear
  omega

theorem endsWith (m : Monthly) (anchor : Date) :
    m.rule.EndsWith anchor (m.dates anchor) {Set.univ} := by
  refine ⟨fun fault hfirst _ => ⟨_, rfl, fun x hx => ?_⟩,
    fun d slots fault _ hnext _ => ⟨_, rfl, fun x hx hlt => ?_⟩⟩
  · have hless := lt_of_scan_error hfirst hx.2
    exact (not_le_of_gt hless (Date.add_ite_le_iff_le.mpr hx.1)).elim
  · have hless := lt_of_scan_error hnext hx.2
    exact (not_le_of_gt hless (Date.add_ite_le_iff_lt.mpr hlt)).elim

end Monthly

/-! ## Recurrences -/

namespace RecurrenceKind

/-- The strands of the dates of a recurrence: all of them, or those of one selected day of the
week. -/
def strands : RecurrenceKind → Set (Set Date)
  | period _ => ∅
  | daily _ => {Set.univ}
  | weekly w => w.strands
  | monthly _ => {Set.univ}

variable {kind : RecurrenceKind} {rule : DateRule} {times : TimesOfDay}

/-- The rule of a recurrence walks through its dates to the end of a strand. -/
theorem exists_dates_with_ends (h : kind.calendar? = some (rule, times)) :
    ∃ dates : Date → Set Date, ∀ anchor, rule.WalksThrough anchor (dates anchor) ∧
      rule.EndsWith anchor (dates anchor) kind.strands ∧
      kind.readings anchor = Almanac.readings (dates anchor) times := by
  cases kind with
  | period p => cases h
  | daily d =>
    cases h
    exact ⟨d.selection.dates, fun anchor => ⟨d.walksThrough anchor, d.endsWith anchor, rfl⟩⟩
  | weekly w =>
    cases h
    exact ⟨w.dates, fun anchor => ⟨w.walksThrough anchor, w.endsWith anchor, rfl⟩⟩
  | monthly m =>
    cases h
    exact ⟨m.dates, fun anchor => ⟨m.walksThrough anchor, m.endsWith anchor, rfl⟩⟩

end RecurrenceKind

end Almanac
