import Almanac.Clock.Form
import Almanac.Proofs.Clock.Calendar
import Almanac.Proofs.Except
import Almanac.Proofs.Text.Blank

/-!
# Dates and times are read back

Each item of a pattern takes from a text what the same part of a date or time was written as, and
leaves the rest. A date, a time of day and a reading with `T` between its parts are therefore read
back from their texts; a leap second has to stand at the end of its minute, since it is written as
the sixtieth second. A reading with a blank between its parts is refused: the pattern has reached
its `T` there.
-/

namespace Almanac

open Text Calendar

/-! ## The items of a pattern -/

section Items

variable {items : List Item} {parts : Parts} {run rest : List Char} {limit n : Nat} {f : Field}
  {year : Int}

theorem takeNumber_run (hrun : IsRun run) (hlimit : run.length ≤ limit)
    (hend : run.length = limit ∨ NoDigitHead rest) :
    takeNumber limit (run ++ rest) = .ok (run, rest) := by
  obtain ⟨c, cs, rfl⟩ := List.exists_cons_of_ne_nil hrun.ne_nil
  have hdigits := digitRun_run_append hrun.isDigit hlimit hend
  rw [List.cons_append] at hdigits ⊢
  simp [takeNumber, hdigits]

/-- Fields other than the year are written with two digits. -/
theorem takeField_padded (hf : f ≠ .year) (hn : n < 100) (hadmits : f.admits n = true) :
    takeField f (padded 2 n ++ rest) = .ok (n, rest) := by
  have htaken : takeNumber 2 (padded 2 n ++ rest) = .ok (padded 2 n, rest) :=
    takeNumber_run (isRun_padded 2 n) (length_padded (by decide) hn).le
      (Or.inl (length_padded (by decide) hn))
  cases f with
  | year => exact (hf rfl).elim
  | _ => simp [takeField, htaken, hadmits, bind, Except.bind, pure, Except.pure]

/-- A year is written with four digits, or with a sign and at least four. -/
theorem takeField_yearText (hyear : Field.year.admits year = true) (hrest : NoDigitHead rest) :
    takeField .year (yearText year ++ rest) = .ok (year, rest) := by
  have hrun := isRun_padded 4 year.natAbs
  unfold yearText
  -- Four digits are the most that is taken without a sign; after a sign all digits are taken.
  by_cases hfour : 0 ≤ year ∧ year ≤ 9999
  · have hlength : (padded 4 year.natAbs).length = 4 := length_padded (by decide) (by omega)
    have htaken : takeNumber 4 (padded 4 year.natAbs ++ rest) =
        .ok (padded 4 year.natAbs, rest) := takeNumber_run hrun hlength.le (Or.inl hlength)
    have hvalue : ((year.natAbs : Nat) : Int) = year := by omega
    obtain ⟨c, cs, hcs⟩ := List.exists_cons_of_ne_nil hrun.ne_nil
    have hdigit : c.isDigit = true := hrun.isDigit c (by simp [hcs])
    have hminus : c ≠ '-' := by
      rintro rfl
      exact absurd hdigit (by decide)
    have hplus : c ≠ '+' := by
      rintro rfl
      exact absurd hdigit (by decide)
    have hwritten := valueOf_padded 4 year.natAbs
    rw [if_pos hfour]
    rw [hcs] at htaken hwritten ⊢
    rw [List.cons_append] at htaken ⊢
    simp [takeField, hminus, hplus, htaken, hwritten, hvalue, hyear, bind, Except.bind, pure,
      Except.pure]
  · have htaken : takeNumber (padded 4 year.natAbs ++ rest).length (padded 4 year.natAbs ++ rest) =
        .ok (padded 4 year.natAbs, rest) := takeNumber_run hrun (by simp) (Or.inr hrest)
    rw [if_neg hfour]
    by_cases hneg : year < 0
    · have hvalue : -|year| = year := by rw [abs_of_neg hneg, neg_neg]
      rw [if_pos hneg, List.cons_append]
      simp only [takeField, htaken]
      simp [hvalue, hyear, bind, Except.bind, pure, Except.pure]
    · have hvalue : |year| = year := abs_of_nonneg (not_lt.mp hneg)
      rw [if_neg hneg, List.cons_append]
      simp only [takeField, htaken]
      simp [hvalue, hyear, bind, Except.bind, pure, Except.pure]

theorem matchPattern_number (hf : f ≠ .year) (hn : n < 100) (hadmits : f.admits n = true) :
    matchPattern (.number f :: items) parts (padded 2 n ++ rest) =
      matchPattern items (parts.set f n) rest := by
  simp [matchPattern, trimStart_run (isRun_padded 2 n), takeField_padded hf hn hadmits]

theorem matchPattern_year (hyear : Field.year.admits year = true) (hrest : NoDigitHead rest) :
    matchPattern (.number .year :: items) parts (yearText year ++ rest) =
      matchPattern items { parts with year } rest := by
  have htrim : trimStart (yearText year ++ rest) = yearText year ++ rest := by
    unfold yearText
    split
    · exact trimStart_run (isRun_padded 4 year.natAbs) rest
    · split <;> exact trimStart_cons (by decide) _
  simp [matchPattern, htrim, takeField_yearText hyear hrest, Parts.set]

theorem matchPattern_literal (c : Char) :
    matchPattern (.literal c :: items) parts (c :: rest) = matchPattern items parts rest := by
  simp [matchPattern]

/-- Blanks match where there are none. -/
theorem matchPattern_blanks {c : Char} (hc : isBlank c = false) :
    matchPattern (.blanks :: items) parts (c :: rest) = matchPattern items parts (c :: rest) := by
  rw [matchPattern, trimStart_cons hc]

theorem takeFraction_padded {width scale value : Nat} (hwidth : 0 < width) (hn : n < 10 ^ width)
    (hplaces : 9 - width = scale) (hle : width ≤ 9) (hvalue : n * 10 ^ scale = value) :
    takeFraction (padded width n) = .ok (value, []) := by
  have hlength := length_padded hwidth hn
  have htaken : takeNumber 9 (padded width n ++ []) = .ok (padded width n, []) :=
    takeNumber_run (isRun_padded width n) (by omega) (Or.inr noDigitHead_nil)
  rw [List.append_nil] at htaken
  simp [takeFraction, htaken, hlength, hplaces, hvalue, bind, Except.bind, pure, Except.pure]

/-- A fraction that is not zero is written with as many places as it needs. -/
theorem exists_fraction_eq (hzero : n ≠ 0) (hn : n < 1000000000) :
    ∃ cs, fraction n = '.' :: cs ∧ takeFraction cs = .ok (n, []) := by
  unfold fraction
  rw [if_neg hzero]
  by_cases hthree : n % 1000000 = 0
  · rw [if_pos hthree]
    exact ⟨_, rfl, takeFraction_padded (by decide) (by omega) rfl (by decide) (by omega)⟩
  · rw [if_neg hthree]
    by_cases hsix : n % 1000 = 0
    · rw [if_pos hsix]
      exact ⟨_, rfl, takeFraction_padded (by decide) (by omega) rfl (by decide) (by omega)⟩
    · rw [if_neg hsix]
      exact ⟨_, rfl, takeFraction_padded (by decide) (by omega) rfl (by decide) (by omega)⟩

theorem matchPattern_fraction (hn : n < 1000000000) (hparts : parts.nano = 0) :
    matchPattern (.fraction :: items) parts (fraction n) =
      matchPattern items { parts with nano := n } [] := by
  by_cases hzero : n = 0
  · obtain ⟨_, _, _, _, _, _, nano⟩ := parts
    obtain rfl : nano = 0 := hparts
    simp [matchPattern, fraction, hzero]
  · obtain ⟨cs, hcs, htaken⟩ := exists_fraction_eq hzero hn
    simp [matchPattern, hcs, htaken]

/-- A value that is read has been built from some parts. -/
theorem exists_of_readWith {α : Type} {build : Parts → Option α} {cs : List Char} {v : α}
    (h : readWith items build cs = .ok v) : ∃ p, build p = some v := by
  obtain ⟨p, -, h⟩ := exists_of_bind_eq_ok h
  cases hbuild : build p with
  | none => simp [hbuild] at h
  | some value =>
    rw [hbuild] at h
    exact ⟨p, hbuild.trans (congrArg some (Except.ok.inj h))⟩

end Items

/-! ## Dates -/

namespace Date

/-- The years of the calendar are far from the ends of 32 bits. -/
theorem admits_year (d : Date) : Field.year.admits d.toYearMonthDay.year = true := by
  obtain ⟨hlow, hhigh⟩ := d.mem
  obtain ⟨hstart, hend⟩ := yearStart_yearOf d.day
  have hyear : d.toYearMonthDay.year = yearOf d.day := rfl
  unfold yearStart at hstart hend
  unfold firstDay at hlow
  unfold lastDay at hhigh
  rw [hyear]
  simp only [Field.admits, Bool.and_eq_true, decide_eq_true_eq]
  omega

/-- The parts that a date is written with. -/
def parts (d : Date) : Parts :=
  { year := d.toYearMonthDay.year, month := d.toYearMonthDay.month, day := d.toYearMonthDay.day }

theorem date?_parts (d : Date) : d.parts.date? = some d :=
  d.ofYearMonthDay?_toYearMonthDay

/-- The items of a date take its text, and blanks after it. -/
theorem matchPattern_dayText (d : Date) (items : List Item) (rest : List Char) :
    matchPattern (pattern ++ items) {} (dayText d.day ++ rest) =
      matchPattern items d.parts (trimStart rest) := by
  obtain ⟨h1, h12, -⟩ := inMonth_yearMonthDay d.day
  obtain ⟨-, hlow, hhigh⟩ := dayNumber_yearMonthDay d.day
  have hlength := monthLength_le (yearMonthDay d.day).year (yearMonthDay d.day).month
  have hmonth : Field.month.admits (yearMonthDay d.day).month = true := by
    simp only [Field.admits, Bool.and_eq_true, decide_eq_true_eq]
    omega
  have hday : Field.day.admits (yearMonthDay d.day).day = true := by
    simp only [Field.admits, Bool.and_eq_true, decide_eq_true_eq]
    omega
  have hyear : Field.year.admits (yearMonthDay d.day).year = true := d.admits_year
  simp only [dayText, pattern, List.append_assoc, List.cons_append, List.nil_append]
  rw [matchPattern_year hyear (by simp), matchPattern_blanks (by decide),
    matchPattern_literal, matchPattern_number (by decide) (by omega) hmonth,
    matchPattern_blanks (by decide), matchPattern_literal,
    matchPattern_number (by decide) (by omega) hday]
  rfl

/-- A date is read back from its text. -/
theorem read_dayText (d : Date) : read (dayText d.day) = .ok d := by
  have hmatch := d.matchPattern_dayText [] []
  rw [List.append_nil, List.append_nil] at hmatch
  simp [read, readWith, readParts, hmatch, matchPattern, trimStart_nil, date?_parts, bind,
    Except.bind, pure, Except.pure]

end Date

/-! ## Times of day -/

namespace TimeOfDay

/-- A leap second stands at the end of its minute. -/
def Regular (t : TimeOfDay) : Prop := t.isLeap = true → t.second % 60 = 59

instance (t : TimeOfDay) : Decidable t.Regular := inferInstanceAs (Decidable (_ → _))

/-- The parts that a time is written with, beside those of a date. -/
def parts (t : TimeOfDay) (p : Parts) : Parts :=
  { p with
    hour := t.hour
    minute := t.minute
    second := t.second % 60 + t.nano / 1000000000
    nano := t.nano % 1000000000 }

theorem ofParts?_eq_some {hour minute second nano : Nat} {t : TimeOfDay} (hhour : hour < 24)
    (hminute : minute < 60) (hnano : nano < 1000000000)
    (ht : second < 60 ∧ t.second = hour * 3600 + minute * 60 + second ∧ t.nano = nano ∨
      second = 60 ∧ t.second = hour * 3600 + minute * 60 + 59 ∧ t.nano = nano + 1000000000) :
    ofParts? hour minute second nano = some t := by
  obtain ⟨tsecond, tnano, _, _⟩ := t
  rcases ht with ⟨hsecond, rfl, rfl⟩ | ⟨rfl, rfl, rfl⟩
  · exact dif_pos ⟨hhour, hminute, hsecond, hnano⟩
  · exact (dif_neg (by omega)).trans (dif_pos ⟨hhour, hminute, rfl, hnano⟩)

theorem time?_parts {t : TimeOfDay} (h : t.Regular) (p : Parts) : (t.parts p).time? = some t := by
  have hsecond := t.second_lt
  have hnano := t.nano_lt
  have hend : 1000000000 ≤ t.nano → t.second % 60 = 59 := fun hleap => h (decide_eq_true hleap)
  apply ofParts?_eq_some <;> simp only [parts, hour, minute] <;> omega

/-- Times that are put together from their parts are regular. -/
theorem regular_of_ofParts? {hour minute second nano : Nat} {t : TimeOfDay}
    (h : ofParts? hour minute second nano = some t) : t.Regular := by
  unfold ofParts? at h
  split_ifs at h with hordinary hleap
  · cases h
    intro hlong
    exact absurd (of_decide_eq_true hlong) (by simpa using hordinary.2.2.2)
  · cases h
    intro _
    dsimp only
    omega

theorem regular_of_read {cs : List Char} {t : TimeOfDay} (h : read cs = .ok t) : t.Regular := by
  have hwith : ∀ items, readWith items Parts.time? cs = .ok t → t.Regular := by
    intro items hread
    obtain ⟨p, hp⟩ := exists_of_readWith hread
    exact regular_of_ofParts? hp
  unfold read at h
  split at h
  · next hread =>
    cases h
    exact hwith _ hread
  · exact hwith _ h

section Patterns

variable {t : TimeOfDay} {p : Parts} {items : List Item}

theorem hour_lt (t : TimeOfDay) : t.hour < 24 :=
  Nat.div_lt_of_lt_mul t.second_lt

theorem minute_lt (t : TimeOfDay) : t.minute < 60 :=
  Nat.mod_lt _ (by decide)

theorem admits_parts (t : TimeOfDay) :
    Field.hour.admits t.hour = true ∧ Field.minute.admits t.minute = true ∧
      Field.second.admits ((t.second % 60 + t.nano / 1000000000 : Nat) : Int) = true := by
  have hsecond := t.second_lt
  have hnano := t.nano_lt
  have hhour := t.hour_lt
  have hminute := t.minute_lt
  simp only [Field.admits, Bool.and_eq_true, decide_eq_true_eq]
  omega

theorem matchPattern_secondPattern (t : TimeOfDay) :
    matchPattern secondPattern {} t.characters = .ok (t.parts {}, []) := by
  obtain ⟨hhour, hminute, hsecond⟩ := t.admits_parts
  have hsecondLt := t.second_lt
  have hnanoLt := t.nano_lt
  simp only [characters, hourMinute, secondPattern, minutePattern, List.append_assoc,
    List.cons_append, List.nil_append]
  rw [matchPattern_number (by decide) (t.hour_lt.trans (by decide)) hhour, matchPattern_literal,
    matchPattern_number (by decide) (t.minute_lt.trans (by decide)) hminute, matchPattern_literal,
    matchPattern_number (by decide) (by omega) hsecond,
    matchPattern_fraction (by omega) rfl]
  rfl

/-- A time of day is read back from its text, unless it is a leap second inside its minute. -/
theorem read_characters (h : t.Regular) : read t.characters = .ok t := by
  simp [read, readWith, readParts, matchPattern_secondPattern, time?_parts h, bind, Except.bind,
    pure, Except.pure]

end Patterns

end TimeOfDay

/-! ## Readings -/

namespace Reading

/-- The items of a reading that follow those of its date. -/
def timePattern : List Item :=
  [.literal 'T', .number .hour, .blanks, .literal ':', .number .minute, .blanks, .literal ':',
    .number .second, .fraction, .blanks]

theorem matchPattern_timePattern (t : TimeOfDay) {p : Parts} (hp : p.nano = 0) :
    matchPattern timePattern p ('T' :: t.characters) = .ok (t.parts p, []) := by
  obtain ⟨hhour, hminute, hsecond⟩ := t.admits_parts
  have hsecondLt := t.second_lt
  have hnanoLt := t.nano_lt
  simp only [timePattern, TimeOfDay.characters, TimeOfDay.hourMinute, List.append_assoc,
    List.cons_append]
  rw [matchPattern_literal,
    matchPattern_number (by decide) (t.hour_lt.trans (by decide)) hhour,
    matchPattern_blanks (by decide), matchPattern_literal,
    matchPattern_number (by decide) (t.minute_lt.trans (by decide)) hminute,
    matchPattern_blanks (by decide), matchPattern_literal,
    matchPattern_number (by decide) (by omega) hsecond,
    matchPattern_fraction (by omega) (by simpa [Parts.set] using hp)]
  rfl

/-- Whatever stands between the parts of a reading, its date is taken first. -/
theorem matchPattern_characters (separator : Char) (r : Reading) :
    matchPattern pattern {} (r.toWall.characters separator) =
      matchPattern timePattern r.date.parts (trimStart (separator :: r.time.characters)) :=
  r.date.matchPattern_dayText timePattern _

variable {r : Reading}

theorem regular_of_read {cs : List Char} (h : read cs = .ok r) : r.time.Regular := by
  obtain ⟨p, hp⟩ := exists_of_readWith h
  obtain ⟨date, -, hp⟩ := Option.bind_eq_some_iff.mp hp
  obtain ⟨time, htime, hp⟩ := Option.bind_eq_some_iff.mp hp
  cases hp
  exact TimeOfDay.regular_of_ofParts? htime

/-- A reading is read back from its text with `T`. -/
theorem read_characters (h : r.time.Regular) : read (r.toWall.characters 'T') = .ok r := by
  have hmatch := matchPattern_characters 'T' r
  rw [trimStart_cons (by decide), matchPattern_timePattern r.time rfl] at hmatch
  have hdate : (r.time.parts r.date.parts).date? = some r.date := r.date.date?_parts
  have htime := TimeOfDay.time?_parts h r.date.parts
  simp [read, readWith, readParts, hmatch, Parts.reading?, hdate, htime, bind, Except.bind, pure,
    Except.pure]

/-- Exactly the readings with a regular time are read back from their text in documents. -/
theorem read_documentText_iff : read r.documentText.toList = .ok r ↔ r.time.Regular := by
  constructor
  · exact regular_of_read
  · intro h
    simpa [documentText] using read_characters h

/-- No reading is read back from its text with a blank: the time has come where `T` has to be. -/
theorem read_characters_blank (r : Reading) :
    read (r.toWall.characters ' ') = .error .malformed := by
  have hmatch := matchPattern_characters ' ' r
  obtain ⟨c, cs, hcs⟩ := List.exists_cons_of_ne_nil (isRun_padded 2 r.time.hour).ne_nil
  have hdigit : c.isDigit = true := (isRun_padded 2 r.time.hour).isDigit c (by simp [hcs])
  have htime : trimStart (' ' :: r.time.characters) = r.time.characters := by
    have htrim : trimStart (' ' :: r.time.characters) = trimStart r.time.characters := rfl
    rw [htrim]
    simp only [TimeOfDay.characters, TimeOfDay.hourMinute, List.append_assoc]
    exact trimStart_run (isRun_padded 2 r.time.hour) _
  have hne : 'T' ≠ c := by
    rintro rfl
    exact absurd hdigit (by decide)
  have hfirst : ∃ rest, r.time.characters = c :: rest := by
    simp only [TimeOfDay.characters, TimeOfDay.hourMinute, hcs, List.cons_append]
    exact ⟨_, rfl⟩
  obtain ⟨rest, hrest⟩ := hfirst
  have hrefused : matchPattern timePattern r.date.parts r.time.characters = .error .malformed := by
    rw [hrest]
    simp [timePattern, matchPattern, hne]
  rw [htime, hrefused] at hmatch
  simp [read, readWith, readParts, hmatch, bind, Except.bind]

end Reading

end Almanac
