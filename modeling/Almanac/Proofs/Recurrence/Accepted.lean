import Almanac.Proofs.Except
import Almanac.Proofs.Recurrence.Months
import Almanac.Recurrence.Basic

/-!
# What the constructors of recurrences accept

A duration is accepted as a period when it is positive and a whole number of milliseconds, times of
day are accepted when there are any, and selections are accepted when they select something: counts
are positive, masks name something and have no undefined bits, and a day of the month is one that
some selected month has in some year. Every recurrence is valid in this sense, and the constructors
return it when its parts are put together again.
-/

namespace Almanac

/-! ## Masks -/

/-- The bits of a mask, at least one, are the first ones. -/
theorem ne_zero_and_lt_iff {mask width : Nat} :
    mask ≠ 0 ∧ mask < 2 ^ width ↔
      (∃ i < width, mask.testBit i = true) ∧ ∀ i, mask.testBit i = true → i < width := by
  constructor
  · rintro ⟨hne, hlt⟩
    have hbits : ∀ i, mask.testBit i = true → i < width := by
      intro i hi
      have hle := Nat.ge_two_pow_of_testBit hi
      exact (Nat.pow_lt_pow_iff_right (by decide)).mp (hle.trans_lt hlt)
    obtain ⟨i, hi⟩ := Nat.exists_testBit_of_ne_zero hne
    exact ⟨⟨i, hbits i hi, hi⟩, hbits⟩
  · rintro ⟨⟨i, -, hi⟩, hbits⟩
    constructor
    · rintro rfl
      simp at hi
    · apply Nat.lt_pow_two_of_testBit
      intro j hj
      by_contra hbit
      exact absurd (hbits j (by simpa using hbit)) (by omega)

namespace WeekDays

/-- A day is named, and all bits of the mask are those of days. -/
def Valid (s : WeekDays) : Prop :=
  (∃ w, s.contains w = true) ∧ ∀ i, s.mask.toNat.testBit i = true → i < 7

theorem isProper_iff {s : WeekDays} : s.isProper = true ↔ s.Valid := by
  have hproper : s.isProper = true ↔ s.mask.toNat ≠ 0 ∧ s.mask.toNat < 2 ^ 7 := by
    simp [isProper, ← UInt8.toNat_inj]
  rw [hproper, ne_zero_and_lt_iff]
  refine and_congr_left fun _ => ⟨?_, ?_⟩
  · rintro ⟨i, hi, hbit⟩
    exact ⟨.ofIndex ⟨i, hi⟩, by simpa [contains] using hbit⟩
  · rintro ⟨w, hw⟩
    exact ⟨w.index, w.index.isLt, hw⟩

end WeekDays

namespace Months

/-- A month is named, and all bits of the mask are those of months. -/
def Valid (s : Months) : Prop :=
  (∃ month, s.contains month = true) ∧ ∀ i, s.mask.toNat.testBit i = true → i < 12

theorem isProper_iff {s : Months} : s.isProper = true ↔ s.Valid := by
  have hproper : s.isProper = true ↔ s.mask.toNat ≠ 0 ∧ s.mask.toNat < 2 ^ 12 := by
    simp [isProper, ← UInt16.toNat_inj]
  rw [hproper, ne_zero_and_lt_iff]
  refine and_congr_left fun _ => ⟨?_, ?_⟩
  · rintro ⟨i, hi, hbit⟩
    exact ⟨i + 1, by simp [contains, hbit]; omega⟩
  · rintro ⟨month, hmonth⟩
    simp only [contains, Bool.and_eq_true, decide_eq_true_eq] at hmonth
    exact ⟨month - 1, by omega, hmonth.2⟩

theorem mem_toList {s : Months} {month : Nat} : month ∈ s.toList ↔ s.contains month = true := by
  rw [toList, List.mem_filter]
  refine ⟨And.right, fun h => ⟨?_, h⟩⟩
  obtain ⟨h1, h12⟩ := mem_of_contains h
  rw [List.mem_range'_1]
  omega

end Months

/-! ## Periods -/

namespace Period

variable {d : Duration} {p : Period}

/-- A period is accepted from the duration that is as long as it, and from no other. -/
theorem ofDuration_eq_ok_iff : ofDuration d = .ok p ↔ d.nanos = p.milliseconds * 1000000 := by
  obtain ⟨ms, hpos, hle⟩ := p
  unfold ofDuration
  split_ifs with hnanos hwhole hrange <;> simp <;> omega

theorem ofDuration_duration (p : Period) : ofDuration p.duration = .ok p :=
  ofDuration_eq_ok_iff.mpr rfl

/-- A duration is the length of a period if it is positive and a whole number of milliseconds, as
far as durations go. -/
theorem exists_ofDuration_iff :
    (∃ p, ofDuration d = .ok p) ↔
      0 < d.nanos ∧ d.nanos % 1000000 = 0 ∧ d.nanos ≤ Duration.maxNanos := by
  simp only [ofDuration_eq_ok_iff, Duration.maxNanos]
  constructor
  · rintro ⟨⟨ms, hpos, hle⟩, h⟩
    dsimp only at h
    omega
  · rintro ⟨hpos, hwhole, hle⟩
    exact ⟨⟨d.nanos / 1000000, by omega, by omega⟩, by dsimp only; omega⟩

/-- The length of a period is within the bounds of durations. -/
theorem elim_ofDuration_eq_ok_iff {fault : Fault} :
    (if -Duration.maxNanos ≤ d.nanos ∧ d.nanos ≤ Duration.maxNanos then some d else none).elim
      (.error fault) ofDuration = .ok p ↔ d.nanos = p.milliseconds * 1000000 := by
  have hpos := p.pos
  have hle := p.le_max
  split_ifs with hrange
  · exact ofDuration_eq_ok_iff
  · simp only [Option.elim_none, reduceCtorEq, false_iff]
    simp only [Duration.maxNanos] at hrange
    omega

/-- A number of seconds gives the period that has a thousand times as many milliseconds. -/
theorem ofUnits_seconds_iff {s : Int} :
    ofUnits (some s) none = .ok p ↔ s * 1000 = p.milliseconds := by
  have hunits : ofUnits (some s) none =
      (Duration.ofSeconds? s).elim (.error .periodRange) ofDuration := by
    cases hd : Duration.ofSeconds? s with
    | none =>
      simp only [ofUnits, hd]
      rfl
    | some d => simp [ofUnits, hd]
  rw [hunits]
  refine elim_ofDuration_eq_ok_iff.trans ?_
  simp only [Duration.ofSeconds]
  omega

theorem ofUnits_milliseconds_iff {ms : Int} :
    ofUnits none (some ms) = .ok p ↔ ms = p.milliseconds := by
  have hunits : ofUnits none (some ms) =
      (Duration.ofMilliseconds? ms).elim (.error .periodRange) ofDuration := by
    cases hd : Duration.ofMilliseconds? ms with
    | none =>
      simp only [ofUnits, hd]
      rfl
    | some d => simp [ofUnits, hd]
  rw [hunits]
  refine elim_ofDuration_eq_ok_iff.trans ?_
  simp only [Duration.ofMilliseconds]
  omega

end Period

/-! ## Times of day -/

namespace TimesOfDay

variable {ts : List TimeOfDay} {texts : List String} {times : TimesOfDay}

theorem arrange_eq_self (h : ts.Pairwise (· < ·)) : arrange ts = ts := by
  induction ts with
  | nil => rfl
  | cons t rest ih =>
    obtain ⟨hfirst, hrest⟩ := List.pairwise_cons.mp h
    have harrange : arrange (t :: rest) = insert t rest := congrArg (insert t) (ih hrest)
    rw [harrange]
    cases rest with
    | nil => rfl
    | cons u rest => simp [insert, hfirst u List.mem_cons_self]

theorem ofList_toList (times : TimesOfDay) : ofList times.toList = .ok times := by
  obtain ⟨ts, hne, hsorted⟩ := times
  simp [ofList, arrange_eq_self hsorted, hne]

theorem exists_ofList_iff : (∃ times, ofList ts = .ok times) ↔ ts ≠ [] := by
  have hnil : arrange ts = [] ↔ ts = [] := by
    simp [List.eq_nil_iff_forall_not_mem, mem_arrange]
  unfold ofList
  split_ifs with h
  · exact ⟨fun _ => mt hnil.mpr h, fun _ => ⟨_, rfl⟩⟩
  · simp [hnil.mp (not_not.mp h)]

/-- Some texts, each of which is a time. -/
def ValidTexts (texts : List String) : Prop :=
  texts ≠ [] ∧ ∀ text ∈ texts, ∃ t, readTime text = .ok t

theorem exists_ofTexts_iff : (∃ times, ofTexts texts = .ok times) ↔ ValidTexts texts := by
  unfold ValidTexts
  rw [← exists_mapM_eq_ok_iff]
  constructor
  · rintro ⟨times, h⟩
    obtain ⟨ts, hts, h⟩ := exists_of_bind_eq_ok h
    exact ⟨mt (eq_nil_iff_of_mapM_eq_ok hts).mpr (exists_ofList_iff.mp ⟨times, h⟩), ts, hts⟩
  · rintro ⟨hne, ts, hts⟩
    obtain ⟨times, h⟩ := exists_ofList_iff.mpr (mt (eq_nil_iff_of_mapM_eq_ok hts).mp hne)
    exact ⟨times, by rw [ofTexts, hts]; exact h⟩

end TimesOfDay

/-! ## Selections of dates -/

namespace DailySelection

/-- A positive number of days, or valid days of the week. -/
def Valid : DailySelection → Prop
  | everyDays days => 0 < days.toNat
  | weekDays days => days.Valid

theorem fault?_eq_none_iff {s : DailySelection} : s.fault? = none ↔ s.Valid := by
  cases s with
  | everyDays days => simp [fault?, Valid, Nat.pos_iff_ne_zero, ← UInt32.toNat_inj]
  | weekDays days => simp [fault?, Valid, ← WeekDays.isProper_iff]

end DailySelection

namespace MonthlySelection

variable {months : Months}

/-- A day that some selected month has in some year, or valid days of the week. -/
def Valid (months : Months) : MonthlySelection → Prop
  | dayOfMonth day => 1 ≤ day ∧
    ∃ month, months.contains month = true ∧ ∃ year, day ≤ Calendar.monthLength year month
  | weekDaysOfMonth w => w.weekDays.Valid

theorem le_foldl_max_iff {l : List Nat} {a x : Nat} :
    x ≤ l.foldl max a ↔ x ≤ a ∨ ∃ y ∈ l, x ≤ y := by
  induction l generalizing a with
  | nil => simp
  | cons y l ih => simp [ih, or_assoc]

theorem exists_le_monthLength_iff {day month : Nat} (h1 : 1 ≤ month) (h12 : month ≤ 12) :
    (∃ year, day ≤ Calendar.monthLength year month) ↔ day ≤ longestLength month := by
  constructor
  · rintro ⟨year, hyear⟩
    refine hyear.trans ?_
    interval_cases month <;> simp [Calendar.monthLength, longestLength]
    split <;> decide
  · intro h
    -- February is longest in a leap year.
    refine ⟨2000, h.trans ?_⟩
    interval_cases month <;> decide

theorem le_longest_iff {day : Nat} (hday : 1 ≤ day) :
    day ≤ longest months ↔
      ∃ month, months.contains month = true ∧ ∃ year, day ≤ Calendar.monthLength year month := by
  have hlongest : day ≤ longest months ↔ ∃ month ∈ months.toList, day ≤ longestLength month := by
    simp only [longest, le_foldl_max_iff, List.mem_map, exists_exists_and_eq_and]
    exact or_iff_right (by omega)
  rw [hlongest]
  refine exists_congr fun month => ?_
  rw [Months.mem_toList]
  refine and_congr_right fun hmonth => ?_
  obtain ⟨h1, h12⟩ := Months.mem_of_contains hmonth
  exact (exists_le_monthLength_iff h1 h12).symm

/-- A selection is accepted with valid months if it selects a date of some of them. -/
theorem fault?_eq_none_iff {s : MonthlySelection} :
    s.fault? months = none ↔ months.Valid ∧ s.Valid months := by
  rw [← Months.isProper_iff]
  cases hmonths : months.isProper with
  | false => simp [fault?, hmonths]
  | true =>
    cases s with
    | dayOfMonth day =>
      by_cases hday : 1 ≤ day
      · simp [fault?, hmonths, Valid, hday, Nat.one_le_iff_ne_zero.mp hday, ← le_longest_iff hday]
      · simp [fault?, hmonths, Valid, Nat.lt_one_iff.mp (not_le.mp hday)]
    | weekDaysOfMonth w => simp [fault?, hmonths, Valid, ← WeekDays.isProper_iff]

end MonthlySelection

/-! ## Kinds of recurrences -/

section Constructors

variable {times : TimesOfDay} {selection : DailySelection} {weeks : UInt32} {weekDays : WeekDays}
  {monthlySelection : MonthlySelection} {months : Months}

namespace Daily

theorem ofParts_self (d : Daily) : ofParts d.times d.selection = .ok d := by
  unfold ofParts
  split
  · rfl
  · next hfault =>
    rw [d.proper] at hfault
    cases hfault

theorem times_of_ofParts {d : Daily} (h : ofParts times selection = .ok d) : d.times = times := by
  unfold ofParts at h
  split at h <;> cases h
  rfl

theorem exists_ofParts_iff : (∃ d, ofParts times selection = .ok d) ↔ selection.Valid := by
  rw [← DailySelection.fault?_eq_none_iff]
  unfold ofParts
  split
  · next hnone => simp [hnone]
  · next hfault => simp [hfault]

end Daily

namespace Weekly

theorem ofParts_self (w : Weekly) : ofParts w.times w.weeks w.weekDays = .ok w := by
  simp [ofParts, w.weeks_ne_zero, w.proper]

theorem times_of_ofParts {w : Weekly} (h : ofParts times weeks weekDays = .ok w) :
    w.times = times := by
  unfold ofParts at h
  split_ifs at h
  cases h
  rfl

theorem exists_ofParts_iff :
    (∃ w, ofParts times weeks weekDays = .ok w) ↔ 0 < weeks.toNat ∧ weekDays.Valid := by
  have hweeks : weeks = 0 ↔ weeks.toNat = 0 := by simp [← UInt32.toNat_inj]
  rw [← WeekDays.isProper_iff, Nat.pos_iff_ne_zero]
  unfold ofParts
  split_ifs with hzero hproper
  · simp [hweeks.mp hzero]
  · simp [mt hweeks.mpr hzero, hproper]
  · simp [hproper]

end Weekly

namespace Monthly

theorem ofParts_self (m : Monthly) : ofParts m.times m.selection m.months = .ok m := by
  unfold ofParts
  split
  · rfl
  · next hfault =>
    rw [m.proper] at hfault
    cases hfault

theorem times_of_ofParts {m : Monthly} (h : ofParts times monthlySelection months = .ok m) :
    m.times = times := by
  unfold ofParts at h
  split at h <;> cases h
  rfl

theorem exists_ofParts_iff :
    (∃ m, ofParts times monthlySelection months = .ok m) ↔
      months.Valid ∧ monthlySelection.Valid months := by
  rw [← MonthlySelection.fault?_eq_none_iff]
  unfold ofParts
  split
  · next hnone => simp [hnone]
  · next hfault => simp [hfault]

end Monthly

end Constructors

namespace RecurrenceKind

/-- The times of day of a calendar rule; a period has none. -/
def times : RecurrenceKind → List TimeOfDay
  | period _ => []
  | daily d => d.times.toList
  | weekly w => w.times.toList
  | monthly m => m.times.toList

/-- What the constructors check: a period is positive and a whole number of milliseconds, times of
day are given, counts are positive, masks name something and have no undefined bits, and a day of
the month is one that some selected month has. -/
def Valid : RecurrenceKind → Prop
  | period p => 0 < p.duration.nanos ∧ p.duration.nanos % 1000000 = 0 ∧
    p.duration.nanos ≤ Duration.maxNanos
  | daily d => d.times.toList ≠ [] ∧ d.selection.Valid
  | weekly w => w.times.toList ≠ [] ∧ 0 < w.weeks.toNat ∧ w.weekDays.Valid
  | monthly m => m.times.toList ≠ [] ∧ m.months.Valid ∧ m.selection.Valid m.months

/-- The parts of a kind put together again by the constructors. -/
def rebuilt : RecurrenceKind → Except Fault RecurrenceKind
  | period p => period <$> Period.ofDuration p.duration
  | daily d => do
    let times ← TimesOfDay.ofList d.times.toList
    daily <$> Daily.ofParts times d.selection
  | weekly w => do
    let times ← TimesOfDay.ofList w.times.toList
    weekly <$> Weekly.ofParts times w.weeks w.weekDays
  | monthly m => do
    let times ← TimesOfDay.ofList m.times.toList
    monthly <$> Monthly.ofParts times m.selection m.months

theorem valid (k : RecurrenceKind) : k.Valid := by
  cases k with
  | period p => exact Period.exists_ofDuration_iff.mp ⟨p, p.ofDuration_duration⟩
  | daily d => exact ⟨d.times.ne_nil, Daily.exists_ofParts_iff.mp ⟨d, d.ofParts_self⟩⟩
  | weekly w => exact ⟨w.times.ne_nil, Weekly.exists_ofParts_iff.mp ⟨w, w.ofParts_self⟩⟩
  | monthly m => exact ⟨m.times.ne_nil, Monthly.exists_ofParts_iff.mp ⟨m, m.ofParts_self⟩⟩

theorem rebuilt_eq_ok (k : RecurrenceKind) : k.rebuilt = .ok k := by
  cases k with
  | period p => rw [rebuilt, p.ofDuration_duration]; rfl
  | daily d => rw [rebuilt, d.times.ofList_toList]; exact congrArg (daily <$> ·) d.ofParts_self
  | weekly w => rw [rebuilt, w.times.ofList_toList]; exact congrArg (weekly <$> ·) w.ofParts_self
  | monthly m => rw [rebuilt, m.times.ofList_toList]; exact congrArg (monthly <$> ·) m.ofParts_self

end RecurrenceKind

end Almanac
