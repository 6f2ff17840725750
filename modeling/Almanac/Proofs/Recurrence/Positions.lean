import Almanac.Proofs.Flags.Run
import Almanac.Proofs.Recurrence.Ends
import Mathlib.Data.Nat.Bitwise

/-!
# Days of the week at a position in the month

A position names seven days of each month: the first seven, the seven after them and so on, or the
last seven. Every day of the week comes there once, so a position and a set of days select one date
for each day of the set. With `any` only one date is left, the earliest of these. At the last
position it is instead the last date of the day that opens the run of the set on the circle of the
week, and a set that is no run is taken at the fourth position.
-/

namespace Almanac

open Calendar

/-! ## Runs of days -/

theorem Weekday.exists_index_eq {i : Nat} (hi : i < 7) : ∃ w : Weekday, w.index.val = i :=
  ⟨.ofIndex ⟨i, hi⟩, by rw [index_ofIndex]⟩

namespace WeekDays

variable {s : WeekDays} {first : Weekday} {length : Nat}

/-- The days of the set follow each other on the circle of the week, from one day on. The whole
week is counted from Sunday. -/
def RunsFrom (s : WeekDays) (first : Weekday) : Prop :=
  ∃ length, (1 ≤ length ∧ length ≤ 7) ∧
    (∀ w, s.contains w = true ↔ (w.index - first.index).val < length) ∧
    (length = 7 → first = .sunday)

/-- The single flags are those of the days, in their order. -/
theorem map_mask_singles : kind.singles.map Flag.mask = Weekday.all.map (2 ^ ·.index.val) := by
  unfold FlagKind.singles
  rw [List.mergeSort_of_pairwise (by decide)]
  rfl

theorem length_singles : kind.singles.length = 7 := by
  simpa [Weekday.all] using congrArg List.length map_mask_singles

theorem exists_flag (w : Weekday) :
    ∃ f, kind.singles[w.index.val]? = some f ∧ f.mask = 2 ^ w.index.val := by
  refine Option.map_eq_some_iff.mp ?_
  rw [← List.getElem?_map, map_mask_singles]
  cases w <;> rfl

theorem index_lt_length_singles (w : Weekday) : w.index.val < kind.singles.length := by
  rw [length_singles]
  exact w.index.isLt

theorem and_ne_zero_iff_contains {w : Weekday} (hi : w.index.val < kind.singles.length) :
    s.mask.toNat &&& kind.singles[w.index.val].mask ≠ 0 ↔ s.contains w = true := by
  obtain ⟨f, hf, hmask⟩ := exists_flag w
  obtain ⟨_, rfl⟩ := List.getElem?_eq_some_iff.mp hf
  rw [hmask, contains, Nat.and_two_pow]
  cases s.mask.toNat.testBit w.index.val with
  | true => simp
  | false => simp

/-- The days within a number of places from one on, counted back to it or on from it. -/
theorem val_sub_lt_iff {w : Weekday} (hle : length ≤ 7) :
    (w.index - first.index).val < length ↔
      ∃ j < length, w.index.val = (first.index.val + j) % kind.singles.length := by
  rw [length_singles, Fin.val_sub]
  constructor
  · intro hlt
    exact ⟨_, hlt, by omega⟩
  · rintro ⟨j, hj, heq⟩
    omega

/-- A run of days is a run of their flags. -/
theorem occupies_iff : kind.Occupies s.mask.toNat first.index.val length ↔
    (1 ≤ length ∧ length ≤ 7) ∧
      ∀ w, s.contains w = true ↔ (w.index - first.index).val < length := by
  constructor
  · rintro ⟨-, hpos, hle, hiff⟩
    rw [length_singles] at hle
    refine ⟨⟨hpos, hle⟩, fun w => ?_⟩
    have hi := index_lt_length_singles w
    rw [← and_ne_zero_iff_contains hi, hiff _ hi, val_sub_lt_iff hle]
  · rintro ⟨⟨hpos, hle⟩, hiff⟩
    refine ⟨index_lt_length_singles first, hpos, by rwa [length_singles], fun i hi => ?_⟩
    obtain ⟨w, rfl⟩ := Weekday.exists_index_eq (length_singles ▸ hi)
    rw [and_ne_zero_iff_contains hi, hiff w, val_sub_lt_iff hle]

/-- The search for the start of a run finds the day that opens it, and finds nothing if the days
are no run. -/
theorem runStart?_eq_some_iff : s.runStart? = some first ↔ s.RunsFrom first := by
  have hdistinct : (kind.singles.map Flag.mask).Nodup := by
    rw [map_mask_singles]
    decide
  have hfind : ∀ w : Weekday,
      Weekday.all.find? (1 <<< ·.index.val == 2 ^ w.index.val) = some w := by
    intro w
    cases w <;> rfl
  have hsunday : first.index.val = 0 ↔ first = .sunday := by
    cases first <;> decide
  unfold runStart? RunsFrom
  simp only [Option.bind_eq_bind, Option.bind_eq_some_iff,
    FlagKind.runStart?_eq_some_iff_occupies hdistinct]
  constructor
  · rintro ⟨f, ⟨place, length, hoccupies, hplace, hlowest⟩, hfirst⟩
    obtain ⟨w, rfl⟩ := Weekday.exists_index_eq (length_singles ▸ hoccupies.place_lt)
    obtain ⟨g, hg, hmask⟩ := exists_flag w
    rw [hplace, Option.some.injEq] at hg
    rw [hg, hmask, hfind, Option.some.injEq] at hfirst
    subst hfirst
    obtain ⟨hlength, hiff⟩ := occupies_iff.mp hoccupies
    refine ⟨length, hlength, hiff, fun hfull => hsunday.mp (hlowest ?_)⟩
    rw [hfull, length_singles]
  · rintro ⟨length, hlength, hiff, hlowest⟩
    obtain ⟨f, hf, hmask⟩ := exists_flag first
    refine ⟨f, ⟨_, length, occupies_iff.mpr ⟨hlength, hiff⟩, hf, fun hfull => ?_⟩, ?_⟩
    · rw [length_singles] at hfull
      exact hsunday.mpr (hlowest hfull)
    · rw [hmask, hfind]

/-- A run has one day that opens it. -/
theorem RunsFrom.unique {other : Weekday} (h : s.RunsFrom first) (h' : s.RunsFrom other) :
    first = other := by
  rw [← runStart?_eq_some_iff] at h h'
  exact Option.some.inj (h.symm.trans h')

end WeekDays

/-! ## Positions -/

/-- The days of a month of some length that a position names: the n-th seven, or the last seven. -/
def WeekPosition.Covers (p : WeekPosition) (length day : Nat) : Prop :=
  match p.ordinal? with
  | some n => 7 * (n - 1) + 1 ≤ day ∧ day ≤ 7 * n
  | none => length < day + 7

instance (p : WeekPosition) (length day : Nat) : Decidable (p.Covers length day) :=
  match p with
  | .first | .second | .third | .fourth => inferInstanceAs (Decidable (_ ∧ _))
  | .last => inferInstanceAs (Decidable (length < day + 7))

namespace Date

variable {year : Int} {month : Nat} {d e : Date} {p : WeekPosition}

/-- The date lies in a month and at a position of it. -/
structure IsAt (d : Date) (year : Int) (month : Nat) (p : WeekPosition) : Prop where
  year_eq : d.year = year
  month_eq : d.month = month
  covers : p.Covers (monthLength year month) d.dayOfMonth

/-- No day of the week comes twice at a position of a month. -/
theorem IsAt.unique (hd : d.IsAt year month p) (he : e.IsAt year month p)
    (hweekday : d.weekday = e.weekday) : d = e := by
  obtain ⟨hyear, hmonth, hcovers⟩ := hd
  obtain ⟨hyear', hmonth', hcovers'⟩ := he
  have hday := day_eq_monthStart_add hyear hmonth
  have hday' := day_eq_monthStart_add hyear' hmonth'
  have hlength := dayOfMonth_mem hyear hmonth
  have hlength' := dayOfMonth_mem hyear' hmonth'
  -- Both dates lie in the same seven days, and whole weeks lie between them.
  have hwhole := weekday_eq_iff.mp hweekday
  apply ext_day
  unfold WeekPosition.Covers at hcovers hcovers'
  cases hordinal : p.ordinal? with
  | some n =>
    simp only [hordinal] at hcovers hcovers'
    omega
  | none =>
    simp only [hordinal] at hcovers hcovers'
    omega

end Date

namespace Calendar

variable {year : Int} {month n : Nat} {w : Weekday} {d : Date} {p : WeekPosition}

/-- Counted from the first of the month, the days of the week come one after the other. -/
theorem nthWeekday?_spec (hn : 1 ≤ n) (h : nthWeekday? year month w n = some d) :
    d.weekday = w ∧ 7 * (n - 1) + 1 ≤ d.dayOfMonth ∧ d.dayOfMonth ≤ 7 * n := by
  obtain ⟨start, hstart, hd⟩ := Option.bind_eq_some_iff.mp h
  have hfirst := (Date.inMonth_of_ofYearMonthDay? hstart).2
  have hday := (Date.inMonth_of_ofYearMonthDay? hd).2
  have hstartIndex := Date.weekday_eq_iff_index.mp (Eq.refl start.weekday)
  have hindex := w.index.isLt
  rw [Date.weekday_eq_iff_index, Date.dayOfMonth_of_ofYearMonthDay? hd]
  exact ⟨by omega, by omega, by omega⟩

/-- Counted back from the end of the month, they come so too. -/
theorem lastWeekday?_spec (h1 : 1 ≤ month) (h12 : month ≤ 12)
    (h : lastWeekday? year month w = some d) :
    d.weekday = w ∧ monthLength year month < d.dayOfMonth + 7 := by
  obtain ⟨hyear, hmonth⟩ := (Date.inMonth_iff h1 h12).mp (inMonth_of_lastWeekday? h1 h12 h)
  obtain ⟨stop, hstop, hd⟩ := Option.bind_eq_some_iff.mp h
  obtain ⟨start, hstart, hprevious⟩ := Option.bind_eq_some_iff.mp hstop
  have hnext := (Date.inMonth_of_ofYearMonthDay? hstart).2
  rw [monthStart_nextMonth year h1 h12] at hnext
  have hstopDay := Date.day_eq_of_addDays?_neg_one hprevious
  have hback := Date.day_of_addDays? hd
  have hday := Date.day_eq_monthStart_add hyear hmonth
  have hstopIndex := Date.weekday_eq_iff_index.mp (Eq.refl stop.weekday)
  have hindex := w.index.isLt
  rw [Date.weekday_eq_iff_index]
  exact ⟨by omega, by omega⟩

theorem isAt_of_weekdayAt? (h1 : 1 ≤ month) (h12 : month ≤ 12)
    (h : weekdayAt? year month w p = some d) : d.IsAt year month p ∧ d.weekday = w := by
  obtain ⟨hyear, hmonth⟩ := (Date.inMonth_iff h1 h12).mp (inMonth_of_weekdayAt? h1 h12 h)
  unfold weekdayAt? at h
  cases hordinal : p.ordinal? with
  | some n =>
    rw [hordinal] at h
    have hn : 1 ≤ n := by
      cases p <;> cases hordinal <;> decide
    obtain ⟨hweekday, hcovers⟩ := nthWeekday?_spec hn h
    exact ⟨⟨hyear, hmonth, by rwa [WeekPosition.Covers, hordinal]⟩, hweekday⟩
  | none =>
    rw [hordinal] at h
    obtain ⟨hweekday, hcovers⟩ := lastWeekday?_spec h1 h12 h
    exact ⟨⟨hyear, hmonth, by rwa [WeekPosition.Covers, hordinal]⟩, hweekday⟩

/-- Before the last year of the calendar, a day of the week has the date at a position. -/
theorem weekdayAt?_eq_some_iff (hlast : year < lastYear) (h1 : 1 ≤ month) (h12 : month ≤ 12) :
    weekdayAt? year month w p = some d ↔ d.IsAt year month p ∧ d.weekday = w := by
  refine ⟨isAt_of_weekdayAt? h1 h12, ?_⟩
  rintro ⟨hat, hweekday⟩
  have hfirst : firstYear ≤ year := hat.year_eq ▸ d.year_mem.1
  obtain ⟨e, he⟩ := (monthInCalendar_of_year hfirst hlast h1 h12).exists_weekdayAt? w p
  obtain ⟨heat, heweekday⟩ := isAt_of_weekdayAt? h1 h12 he
  rw [he, heat.unique hat (heweekday.trans hweekday.symm)]

/-- The date at the last position is the last date of the month with its day of the week. -/
theorem isGreatest_iff_isAt_last (hlast : year < lastYear) (h1 : 1 ≤ month) (h12 : month ≤ 12) :
    IsGreatest {x : Date | x.year = year ∧ x.month = month ∧ x.weekday = w} d ↔
      d.IsAt year month .last ∧ d.weekday = w := by
  have hgreatest : ∀ e : Date, e.IsAt year month .last → e.weekday = w →
      IsGreatest {x : Date | x.year = year ∧ x.month = month ∧ x.weekday = w} e := by
    rintro e ⟨hyear, hmonth, hcovers⟩ hweekday
    refine ⟨⟨hyear, hmonth, hweekday⟩, ?_⟩
    rintro x ⟨hxyear, hxmonth, hxweekday⟩
    have hday := Date.day_eq_monthStart_add hyear hmonth
    have hxday := Date.day_eq_monthStart_add hxyear hxmonth
    have hlength := (Date.dayOfMonth_mem hxyear hxmonth).2
    -- A later date on this day of the week would come seven days later, beyond the month.
    have hwhole := Date.weekday_eq_iff.mp (hxweekday.trans hweekday.symm)
    change monthLength year month < e.dayOfMonth + 7 at hcovers
    exact Date.le_iff.mpr (by omega)
  constructor
  · intro h
    have hfirst : firstYear ≤ year := h.1.1 ▸ d.year_mem.1
    obtain ⟨e, he⟩ := (monthInCalendar_of_year hfirst hlast h1 h12).exists_weekdayAt? w .last
    obtain ⟨hat, hweekday⟩ := isAt_of_weekdayAt? h1 h12 he
    obtain rfl := h.unique (hgreatest e hat hweekday)
    exact ⟨hat, hweekday⟩
  · rintro ⟨hat, hweekday⟩
    exact hgreatest d hat hweekday

end Calendar

/-! ## Selected dates -/

namespace WeekDaysOfMonth

variable {w : WeekDaysOfMonth} {year : Int} {month : Nat} {days : WeekDays} {p : WeekPosition}
  {d e : Date}

/-- The dates of a month at a position on the days of a set. -/
def positionDates (year : Int) (month : Nat) (days : WeekDays) (p : WeekPosition) : Set Date :=
  {d | d.IsAt year month p ∧ days.contains d.weekday = true}

theorem mem_datesAt_iff (hlast : year < lastYear) (h1 : 1 ≤ month) (h12 : month ≤ 12) :
    d ∈ datesAt year month days p ↔ d ∈ positionDates year month days p := by
  rw [datesAt, List.mem_filterMap]
  constructor
  · rintro ⟨w, hw, hd⟩
    obtain ⟨hat, rfl⟩ := (weekdayAt?_eq_some_iff hlast h1 h12).mp hd
    exact ⟨hat, WeekDays.mem_toList.mp hw⟩
  · rintro ⟨hat, hcontains⟩
    exact ⟨d.weekday, WeekDays.mem_toList.mpr hcontains,
      (weekdayAt?_eq_some_iff hlast h1 h12).mpr ⟨hat, rfl⟩⟩

theorem nodup_datesAt (h1 : 1 ≤ month) (h12 : month ≤ 12) :
    (datesAt year month days p).Nodup := by
  have hall : Weekday.all.Nodup := by decide
  refine List.Nodup.filterMap ?_ (hall.filter _)
  intro w w' d hd hd'
  exact (isAt_of_weekdayAt? h1 h12 hd).2.symm.trans (isAt_of_weekdayAt? h1 h12 hd').2

theorem earliest_eq_singleton_iff {ds : List Date} :
    earliest ds = [e] ↔ IsLeast {d | d ∈ ds} e := by
  rw [earliest_eq_min?, Option.toList_eq_singleton_iff, List.min?_eq_some_iff]
  rfl

/-- With `any`, at most one date is left. -/
theorem exists_dates_eq_toList (hany : w.any = true) (year : Int) (month : Nat) :
    ∃ o : Option Date, w.dates year month = o.toList := by
  unfold dates
  rw [hany]
  simp only [Bool.not_true, Bool.false_eq_true, if_false, earliest_eq_min?]
  split
  · split
    · exact ⟨_, rfl⟩
    · exact ⟨_, rfl⟩
  · exact ⟨_, rfl⟩

/-- The dates of a month come one after the other, each once. -/
theorem ascending_dates (h1 : 1 ≤ month) (h12 : month ≤ 12) :
    (w.dates year month).Pairwise (· < ·) := by
  have hnodup : (w.dates year month).Nodup := by
    cases hany : w.any with
    | false =>
      rw [dates, hany]
      exact (List.mergeSort_perm _ _).nodup_iff.mpr (nodup_datesAt h1 h12)
    | true =>
      obtain ⟨o, ho⟩ := exists_dates_eq_toList hany year month
      rw [ho]
      cases o with
      | none => exact List.nodup_nil
      | some d => exact List.nodup_singleton d
  exact (w.sorted_dates year month).imp₂ (fun _ _ => lt_of_le_of_ne) hnodup

/-- What days of the week at a position select of a month: without `any` all dates at the position
on the days; with it one date, unless the month lies before the calendar. -/
structure Selects (w : WeekDaysOfMonth) (year : Int) (month : Nat) (ds : List Date) : Prop where
  ascending : ds.Pairwise (· < ·)
  mem_iff : w.any = false → ∀ d, d ∈ ds ↔ d ∈ positionDates year month w.weekDays w.position
  exists_single : w.any = true → firstYear ≤ year → ∃ e, ds = [e]
  single_iff_earliest : w.any = true → w.position ≠ .last → ∀ e, ds = [e] ↔
    IsLeast (positionDates year month w.weekDays w.position) e
  single_iff_last : w.any = true → w.position = .last → ∀ first, w.weekDays.RunsFrom first →
    ∀ e, ds = [e] ↔
      IsGreatest {d : Date | d.year = year ∧ d.month = month ∧ d.weekday = first} e
  single_iff_fourth : w.any = true → w.position = .last →
    (∀ first, ¬w.weekDays.RunsFrom first) → ∀ e, ds = [e] ↔
      IsLeast (positionDates year month w.weekDays .fourth) e

theorem selects_dates (hproper : w.weekDays.isProper = true) (hlast : year < lastYear)
    (h1 : 1 ≤ month) (h12 : month ≤ 12) : w.Selects year month (w.dates year month) := by
  have hleast : ∀ p e, earliest (datesAt year month w.weekDays p) = [e] ↔
      IsLeast (positionDates year month w.weekDays p) e := by
    intro p e
    have hset : {d | d ∈ datesAt year month w.weekDays p} =
        positionDates year month w.weekDays p := Set.ext fun d => mem_datesAt_iff hlast h1 h12
    rw [earliest_eq_singleton_iff, hset]
  refine ⟨ascending_dates h1 h12, ?_, ?_, ?_, ?_, ?_⟩
  · intro hany d
    rw [dates, hany, ← mem_datesAt_iff hlast h1 h12]
    exact List.mem_mergeSort
  · intro hany hfirst
    obtain ⟨e, he⟩ := (monthInCalendar_of_year hfirst hlast h1 h12).exists_mem_dates hproper
    obtain ⟨o, ho⟩ := exists_dates_eq_toList hany year month
    rw [ho, Option.mem_toList] at he
    exact ⟨e, ho.trans (Option.toList_eq_singleton_iff.mpr he)⟩
  · intro hany hposition e
    rw [dates, hany, if_neg (by decide), if_neg hposition]
    exact hleast w.position e
  · intro hany hposition first hruns e
    rw [dates, hany, if_neg (by decide), if_pos hposition,
      WeekDays.runStart?_eq_some_iff.mpr hruns, isGreatest_iff_isAt_last hlast h1 h12,
      ← weekdayAt?_eq_some_iff hlast h1 h12]
    exact Option.toList_eq_singleton_iff
  · intro hany hposition hruns e
    have hnone : w.weekDays.runStart? = none := by
      refine Option.eq_none_iff_forall_ne_some.mpr fun first hfirst => ?_
      exact hruns first (WeekDays.runStart?_eq_some_iff.mp hfirst)
    rw [dates, hany, if_neg (by decide), if_pos hposition, hnone]
    exact hleast .fourth e

end WeekDaysOfMonth

namespace Monthly

variable {m : Monthly} {w : WeekDaysOfMonth} {year : Int} {month : Nat}

/-- A monthly recurrence on days of the week selects the dates that they name of each of its
months, in every year that the calendar goes beyond. -/
theorem selects_datesIn (hselection : m.selection = .weekDaysOfMonth w)
    (hmonth : m.months.contains month = true)
    (hnext : ∃ d, Date.ofYearMonthDay? (year + 1) 1 1 = some d) :
    w.Selects year month (m.datesIn year month) := by
  obtain ⟨h1, h12⟩ := Months.mem_of_contains hmonth
  obtain ⟨⟨-, hlast⟩, -⟩ := Date.exists_ofYearMonthDay?_iff.mp hnext
  have hproper : w.weekDays.isProper = true := by
    have hvalid := (MonthlySelection.fault?_eq_none_iff.mp m.proper).2
    rw [hselection] at hvalid
    exact WeekDays.isProper_iff.mpr hvalid
  have hdates : m.datesIn year month = w.dates year month := by
    rw [datesIn, if_pos hmonth, hselection]
  rw [hdates]
  exact WeekDaysOfMonth.selects_dates hproper (by omega) h1 h12

section Sample

/-- Friday to Monday, at the end of the month. -/
def lastLongWeekend : WeekDaysOfMonth where
  position := .last
  weekDays := ⟨99⟩
  any := true

/-- The last long weekend of each month, from six in the evening. -/
def onceAMonth : Monthly where
  times := ⟨[⟨64800, 0, by decide, TimeOfDay.midnight.nano_lt⟩], List.cons_ne_nil _ _,
    List.pairwise_singleton _ _⟩
  selection := .weekDaysOfMonth lastLongWeekend
  months := .all
  proper := by decide

/-- In May 2026 it opens on Friday the 29th, although its Monday is there on the 25th. -/
theorem selects_datesIn_lastLongWeekend :
    onceAMonth.selection = .weekDaysOfMonth lastLongWeekend ∧
      onceAMonth.months.contains 5 = true ∧
      Date.ofYearMonthDay? (2026 + 1) 1 1 = some ⟨20819, by decide⟩ ∧
      lastLongWeekend.Selects 2026 5 (onceAMonth.datesIn 2026 5) ∧
      onceAMonth.datesIn 2026 5 = [⟨20602, by decide⟩] := by
  have hnext : Date.ofYearMonthDay? (2026 + 1) 1 1 = some ⟨20819, by decide⟩ := by decide
  have hmonth : onceAMonth.months.contains 5 = true := by decide
  have hselects := selects_datesIn rfl hmonth ⟨_, hnext⟩
  have hruns : lastLongWeekend.weekDays.RunsFrom .friday := by
    refine ⟨4, by decide, fun w => ?_, by decide⟩
    cases w <;> decide
  refine ⟨rfl, hmonth, hnext, hselects, (hselects.single_iff_last rfl rfl _ hruns _).mpr ?_⟩
  rw [isGreatest_iff_isAt_last (by decide) (by decide) (by decide)]
  exact ⟨⟨by decide, by decide, by decide⟩, by decide⟩

end Sample

end Monthly

end Almanac
