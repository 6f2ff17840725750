import Almanac.Proofs.Clock.Written
import Almanac.Proofs.Interval.Written
import Almanac.Proofs.Recurrence.Accepted
import Almanac.Proofs.Zone.Ordinary
import Almanac.Recurrence.Document

/-!
# The parts of a recurrence

Before anything is checked, a document gives texts, numbers, masks and options. The constructors
make a recurrence of them, or a fault, and accept exactly the valid parts. Times that are read from
texts or counted from midnight are regular, and regular times are read back from their texts. A
recurrence with such times is therefore built of its own parts again.
-/

namespace Almanac

/-! ## Times of day as texts -/

namespace TimesOfDay

variable {texts : List String} {times : TimesOfDay}

theorem readTime_text {t : TimeOfDay} (h : t.Regular) : readTime t.text = .ok t := by
  have htrim : Text.trim t.characters = t.characters := t.isNumeral_characters.isTidy.trim_eq
  simp [readTime, TimeOfDay.text, htrim, TimeOfDay.read_characters h, Except.mapError]

theorem ofTexts_text (times : TimesOfDay) (h : ∀ t ∈ times.toList, t.Regular) :
    ofTexts (times.toList.map TimeOfDay.text) = .ok times := by
  have htimes : (times.toList.map TimeOfDay.text).mapM readTime = .ok times.toList := by
    have hread : ∀ t ∈ times.toList, (readTime ∘ TimeOfDay.text) t = .ok t := by
      intro t ht
      rw [Function.comp_apply, readTime_text (h t ht)]
    rw [List.mapM_map, mapM_eq_self hread]
  rw [ofTexts, htimes]
  exact times.ofList_toList

theorem mem_of_ofList {ts : List TimeOfDay} (h : ofList ts = .ok times) {t : TimeOfDay}
    (ht : t ∈ times.toList) : t ∈ ts := by
  unfold ofList at h
  split_ifs at h
  cases h
  exact mem_arrange.mp ht

/-- Times that are given as texts are regular. -/
theorem regular_of_ofTexts (h : ofTexts texts = .ok times) : ∀ t ∈ times.toList, t.Regular := by
  intro t ht
  obtain ⟨ts, hts, h⟩ := exists_of_bind_eq_ok h
  obtain ⟨text, -, hread⟩ := exists_of_mem_of_mapM_eq_ok hts (mem_of_ofList h ht)
  exact TimeOfDay.regular_of_read (eq_ok_of_mapError_eq_ok hread)

/-- Times that are given as offsets after midnight are regular. -/
theorem regular_of_ofOffsets {offsets : List Duration} (h : ofOffsets offsets = .ok times) :
    ∀ t ∈ times.toList, t.Regular := by
  intro t ht
  obtain ⟨ts, hts, h⟩ := exists_of_bind_eq_ok h
  obtain ⟨offset, -, hoffset⟩ := exists_of_mem_of_mapM_eq_ok hts (mem_of_ofList h ht)
  unfold ofOffset at hoffset
  split_ifs at hoffset
  cases hoffset
  have hadd : TimeOfDay.midnight.add offset =
      TimeOfDay.addParts (0 + offset.seconds) (0 + offset.subsecond) := rfl
  intro hleap
  rw [hadd, TimeOfDay.isLeap_eq_false_iff.mpr (TimeOfDay.addParts_spec _ _).1] at hleap
  cases hleap

end TimesOfDay

namespace RecurrenceKind

/-- What a document gives of a recurrence of each type before anything has been checked. -/
inductive Parts
  | period (seconds milliseconds : Option Int64)
  | daily (times : List String) (days : Option UInt32) (weekDays : Option WeekDays)
  | weekly (times : List String) (weeks : Option UInt32) (weekDays : WeekDays)
  | monthly (times : List String) (day : Option UInt32) (weekDays : Option WeekDaysOfMonth)
      (months : Option Months)

namespace Parts

/-- The parts put together by the constructors, with the usual values for those missing. -/
def build : Parts → Except Fault RecurrenceKind
  | period seconds milliseconds => do
    let p ← Period.ofUnits (seconds.map Int64.toInt) (milliseconds.map Int64.toInt)
    return .period p
  | daily times days weekDays => do
    let times ← TimesOfDay.ofTexts times
    let selection ← Daily.selectionOf (days.map UInt32.toNat) weekDays
    let d ← Daily.ofParts times selection
    return .daily d
  | weekly times weeks weekDays => do
    let times ← TimesOfDay.ofTexts times
    let w ← Weekly.ofParts times (weeks.getD 1) weekDays
    return .weekly w
  | monthly times day weekDays months => do
    let times ← TimesOfDay.ofTexts times
    let selection ← Monthly.selectionOf (day.map UInt32.toNat) weekDays
    let m ← Monthly.ofParts times selection (months.getD .all)
    return .monthly m

/-! ## Which parts are accepted -/

/-- A period is given in one unit, is positive and is no longer than durations can be. -/
def ValidPeriod : Option Int64 → Option Int64 → Prop
  | some seconds, none => 0 < seconds.toInt ∧ seconds.toInt * 1000 ≤ 9223372036854775807
  | none, some milliseconds => 0 < milliseconds.toInt
  | _, _ => False

/-- Days are counted or days of the week are given, but not both. -/
def ValidDaily : Option UInt32 → Option WeekDays → Prop
  | some days, none => 0 < days.toNat
  | none, some weekDays => weekDays.Valid
  | none, none => True
  | some _, some _ => False

/-- Either a day of the month is given or days of the week are. -/
def ValidMonthly (months : Months) : Option UInt32 → Option WeekDaysOfMonth → Prop
  | some day, none => (MonthlySelection.dayOfMonth day.toNat).Valid months
  | none, some weekDays => (MonthlySelection.weekDaysOfMonth weekDays).Valid months
  | _, _ => False

/-- The parts that the constructors accept. -/
def Valid : Parts → Prop
  | period seconds milliseconds => ValidPeriod seconds milliseconds
  | daily times days weekDays => TimesOfDay.ValidTexts times ∧ ValidDaily days weekDays
  | weekly times weeks weekDays =>
    TimesOfDay.ValidTexts times ∧ 0 < (weeks.getD 1).toNat ∧ weekDays.Valid
  | monthly times day weekDays months =>
    TimesOfDay.ValidTexts times ∧ (months.getD .all).Valid ∧
      ValidMonthly (months.getD .all) day weekDays

theorem exists_ofUnits_iff {seconds milliseconds : Option Int64} :
    (∃ p, Period.ofUnits (seconds.map Int64.toInt) (milliseconds.map Int64.toInt) = .ok p) ↔
      ValidPeriod seconds milliseconds := by
  cases seconds with
  | none =>
    cases milliseconds with
    | none => exact ⟨fun ⟨_, h⟩ => (nomatch h), False.elim⟩
    | some ms =>
      have hlt := ms.toInt_lt
      simp only [Option.map_none, Option.map_some, Period.ofUnits_milliseconds_iff]
      constructor
      · rintro ⟨p, h⟩
        exact p.pos.trans_eq h.symm
      · intro hpos
        exact ⟨⟨ms.toInt, hpos, by omega⟩, rfl⟩
  | some s =>
    cases milliseconds with
    | none =>
      simp only [Option.map_none, Option.map_some, Period.ofUnits_seconds_iff]
      constructor
      · rintro ⟨⟨ms, hpos, hle⟩, h⟩
        dsimp only at h
        exact ⟨by omega, by omega⟩
      · rintro ⟨hpos, hle⟩
        exact ⟨⟨s.toInt * 1000, by omega, hle⟩, rfl⟩
    | some ms => exact ⟨fun ⟨_, h⟩ => (nomatch h), False.elim⟩

/-- The constructors accept exactly the valid parts. -/
theorem exists_build_iff {parts : Parts} : (∃ kind, parts.build = .ok kind) ↔ parts.Valid := by
  cases parts with
  | period seconds milliseconds => simp [build, Valid, exists_map_eq_ok_iff, exists_ofUnits_iff]
  | daily times days weekDays =>
    cases days <;> cases weekDays <;>
      simp [build, Valid, ValidDaily, Daily.selectionOf, exists_bind_eq_ok_iff,
        exists_map_eq_ok_iff, ← TimesOfDay.exists_ofTexts_iff, Daily.exists_ofParts_iff,
        DailySelection.Valid]
  | weekly times weeks weekDays =>
    simp [build, Valid, exists_bind_eq_ok_iff, exists_map_eq_ok_iff,
      ← TimesOfDay.exists_ofTexts_iff, Weekly.exists_ofParts_iff]
  | monthly times day weekDays months =>
    cases day <;> cases weekDays <;>
      simp [build, Valid, ValidMonthly, Monthly.selectionOf, exists_bind_eq_ok_iff,
        exists_map_eq_ok_iff, ← TimesOfDay.exists_ofTexts_iff, Monthly.exists_ofParts_iff]

end Parts

/-! ## The parts of a kind -/

/-- The parts that the document of a kind gives. -/
def parts : RecurrenceKind → Parts
  | period p =>
    if p.isWholeSeconds then .period (some (.ofInt (p.milliseconds / 1000))) none
    else .period none (some (.ofInt p.milliseconds))
  | daily d =>
    let texts := d.times.toList.map TimeOfDay.text
    match d.selection with
    | .everyDays days => .daily texts (some days) none
    | .weekDays days => .daily texts none (some days)
  | weekly w => .weekly (w.times.toList.map TimeOfDay.text) (some w.weeks) w.weekDays
  | monthly m =>
    let texts := m.times.toList.map TimeOfDay.text
    match m.selection with
    | .dayOfMonth day => .monthly texts (some (.ofNat day)) none (some m.months)
    | .weekDaysOfMonth w => .monthly texts none (some w) (some m.months)

theorem toInt_ofInt_of_period (p : Period) :
    (Int64.ofInt p.milliseconds).toInt = p.milliseconds ∧
      (Int64.ofInt (p.milliseconds / 1000)).toInt = p.milliseconds / 1000 := by
  have hpos := p.pos
  have hle := p.le_max
  constructor <;> apply Int64.toInt_ofInt_of_le <;> omega

theorem toNat_ofNat_of_dayOfMonth {m : Monthly} {day : Nat} (h : m.selection = .dayOfMonth day) :
    (UInt32.ofNat day).toNat = day := by
  have hvalid := (MonthlySelection.fault?_eq_none_iff.mp m.proper).2
  rw [h] at hvalid
  obtain ⟨-, month, -, year, hle⟩ := hvalid
  have hmax := Calendar.monthLength_le year month
  exact UInt32.toNat_ofNat_of_lt ((hle.trans hmax).trans_lt (by decide))

/-- A kind is built of its parts again. -/
theorem build_parts {kind : RecurrenceKind} (h : ∀ t ∈ kind.times, t.Regular) :
    kind.parts.build = .ok kind := by
  cases kind with
  | period p =>
    obtain ⟨hms, hs⟩ := toInt_ofInt_of_period p
    by_cases hwhole : p.isWholeSeconds = true
    · have hunits : Period.ofUnits (some (p.milliseconds / 1000)) none = .ok p := by
        have hmod : p.milliseconds % 1000 = 0 := of_decide_eq_true hwhole
        rw [Period.ofUnits_seconds_iff]
        omega
      simp [parts, hwhole, Parts.build, hs, hunits]
    · have hunits : Period.ofUnits none (some p.milliseconds) = .ok p :=
        Period.ofUnits_milliseconds_iff.mpr rfl
      simp [parts, hwhole, Parts.build, hms, hunits]
  | daily d =>
    have htimes := d.times.ofTexts_text h
    have hparts := d.ofParts_self
    cases hselection : d.selection <;> rw [hselection] at hparts <;>
      simp [parts, hselection, Parts.build, htimes, Daily.selectionOf, hparts, bind, Except.bind,
        pure, Except.pure]
  | weekly w =>
    have htimes := w.times.ofTexts_text h
    simp [parts, Parts.build, htimes, w.ofParts_self, bind, Except.bind, pure, Except.pure]
  | monthly m =>
    have htimes := m.times.ofTexts_text h
    have hparts := m.ofParts_self
    cases hselection : m.selection with
    | dayOfMonth day =>
      have hday := toNat_ofNat_of_dayOfMonth hselection
      rw [hselection] at hparts
      simp [parts, hselection, Parts.build, htimes, Monthly.selectionOf, hday, hparts, bind,
        Except.bind, pure, Except.pure]
    | weekDaysOfMonth w =>
      rw [hselection] at hparts
      simp [parts, hselection, Parts.build, htimes, Monthly.selectionOf, hparts, bind,
        Except.bind, pure, Except.pure]

end RecurrenceKind

end Almanac
