import Almanac.Interval.Text
import Almanac.Proofs.Clock.Written
import Almanac.Proofs.Interval.Accepted

/-!
# The texts of intervals

The text of an interval has brackets or parentheses at its ends, and between them the texts of the
two values with a comma and a blank between. The two values can be found again when their texts
hold no comma and no blank at an end and are not taken for an infinity, as the texts of integers,
dates and readings are not, since they end with a digit. What the reader makes of the text of a
value is not always the value: the readings are written with a blank that it refuses.
-/

namespace Almanac

open Text

namespace Text

/-- A text that can stand between the brackets of an interval. -/
structure IsTidy (cs : List Char) : Prop where
  trim_eq : trim cs = cs
  no_comma : ',' ∉ cs

end Text

namespace Direction

/-- The bracket or parenthesis before a lower value. -/
def opening : Direction → Char
  | exclusive => '('
  | inclusive => '['

/-- The bracket or parenthesis after an upper value. -/
def closing : Direction → Char
  | exclusive => ')'
  | inclusive => ']'

theorem isBlank_opening (d : Direction) : isBlank d.opening = false := by
  cases d <;> decide

theorem isBlank_closing (d : Direction) : isBlank d.closing = false := by
  cases d <;> decide

end Direction

namespace Interval

variable {α : Type} [TextForm α] {i : Interval α}

/-- A text that is none of the spellings of an infinity. -/
def NoInfinity (cs : List Char) : Prop :=
  lowerInfinities.contains cs = false ∧ upperInfinities.contains cs = false

/-! ## The characters of a text -/

theorem toList_text (hlower : i.lower.side = .lower) (hupper : i.upper.side = .upper) :
    i.text.toList = i.lower.direction.opening :: (i.lower.value.text.toList ++
      ',' :: ' ' :: (i.upper.value.text.toList ++ [i.upper.direction.closing])) := by
  obtain ⟨⟨side, direction, value⟩, ⟨side', direction', value'⟩⟩ := i
  dsimp only at hlower hupper
  subst hlower hupper
  cases direction <;> cases direction' <;>
    simp [text, Bound.text, Direction.opening, Direction.closing]

theorem head?_text (hlower : i.lower.side = .lower) (hupper : i.upper.side = .upper) :
    i.text.toList.head? = some i.lower.direction.opening := by
  rw [toList_text hlower hupper, List.head?_cons]

theorem getLast?_text (hlower : i.lower.side = .lower) (hupper : i.upper.side = .upper) :
    i.text.toList.getLast? = some i.upper.direction.closing := by
  rw [toList_text hlower hupper]
  simp [List.getLast?_cons]

/-- The text of an interval has no blank at an end. -/
theorem trim_text (hlower : i.lower.side = .lower) (hupper : i.upper.side = .upper) :
    trim i.text.toList = i.text.toList :=
  trim_eq_self (head?_text hlower hupper) i.lower.direction.isBlank_opening
    (getLast?_text hlower hupper) i.upper.direction.isBlank_closing

/-! ## The texts of the values -/

/-- A value whose text can stand in an interval and is not taken for an infinity. -/
structure Legible (v : α) : Prop where
  isTidy : IsTidy (TextForm.text v).toList
  noInfinity : NoInfinity (TextForm.text v).toList

/-- What the reader of finite values makes of the text of a value; infinities have their own. -/
def reread : Extended α → Except ReadFault (Extended α)
  | .finite v => (TextForm.read (TextForm.text v).toList).map .finite
  | value => .ok value

theorem isTidy_infinities : IsTidy "-inf".toList ∧ IsTidy "+inf".toList :=
  ⟨⟨by decide, by decide⟩, ⟨by decide, by decide⟩⟩

theorem isTidy_text {b : Bound α} (h : ∀ v, b.value = .finite v → IsTidy (TextForm.text v).toList) :
    IsTidy b.value.text.toList := by
  cases hvalue : b.value with
  | negInfinity => exact isTidy_infinities.1
  | finite v => exact h v hvalue
  | posInfinity => exact isTidy_infinities.2

/-- All finite values of an interval are legible. -/
def AllLegible (i : Interval α) : Prop :=
  (∀ v, i.lower.value = .finite v → Legible v) ∧ ∀ v, i.upper.value = .finite v → Legible v

end Interval

/-! ## Texts of numbers, dates and times -/

namespace Text

/-- A text that starts with no blank, ends with a digit and holds no comma. -/
structure IsNumeral (cs : List Char) : Prop where
  head : ∃ c, cs.head? = some c ∧ isBlank c = false
  last : ∃ c, cs.getLast? = some c ∧ c.isDigit = true
  no_comma : ',' ∉ cs

variable {cs ds : List Char} {c : Char}

theorem IsRun.isNumeral (h : IsRun cs) : IsNumeral cs := by
  refine ⟨?_, ?_, fun hcomma => absurd (h.isDigit ',' hcomma) (by decide)⟩
  · exact ⟨cs.head h.ne_nil, List.head?_eq_some_head h.ne_nil,
      isBlank_of_isDigit (h.isDigit _ (List.head_mem h.ne_nil))⟩
  · exact ⟨cs.getLast h.ne_nil, List.getLast?_eq_some_getLast h.ne_nil,
      h.isDigit _ (List.getLast_mem h.ne_nil)⟩

namespace IsNumeral

theorem cons (h : IsNumeral cs) (hc : isBlank c = false) (hcomma : c ≠ ',') :
    IsNumeral (c :: cs) := by
  obtain ⟨d, hd, hdigit⟩ := h.last
  exact ⟨⟨c, rfl, hc⟩, ⟨d, by simp [List.getLast?_cons, hd], hdigit⟩,
    by simp [h.no_comma, hcomma.symm]⟩

/-- Two such texts with a separator between them. -/
theorem append (h : IsNumeral cs) (h' : IsNumeral ds) (hcomma : c ≠ ',') :
    IsNumeral (cs ++ c :: ds) := by
  obtain ⟨a, ha, hblank⟩ := h.head
  obtain ⟨d, hd, hdigit⟩ := h'.last
  exact ⟨⟨a, by simp [ha], hblank⟩, ⟨d, by simp [List.getLast?_cons, hd], hdigit⟩,
    by simp [h.no_comma, h'.no_comma, hcomma.symm]⟩

theorem append_fraction (h : IsNumeral cs) (n : Nat) : IsNumeral (cs ++ fraction n) := by
  unfold fraction
  split_ifs
  · rwa [List.append_nil]
  · exact h.append (isRun_padded 3 _).isNumeral (by decide)
  · exact h.append (isRun_padded 6 _).isNumeral (by decide)
  · exact h.append (isRun_padded 9 _).isNumeral (by decide)

theorem isTidy (h : IsNumeral cs) : IsTidy cs := by
  obtain ⟨a, ha, hblank⟩ := h.head
  obtain ⟨d, hd, hdigit⟩ := h.last
  exact ⟨trim_eq_self ha hblank hd (isBlank_of_isDigit hdigit), h.no_comma⟩

/-- The spellings of the infinities end with no digit. -/
theorem noInfinity (h : IsNumeral cs) : Interval.NoInfinity cs := by
  obtain ⟨d, hd, hdigit⟩ := h.last
  have hspellings : ∀ spelling ∈ Interval.lowerInfinities ++ Interval.upperInfinities,
      spelling.getLast?.any Char.isDigit = false := by
    decide
  have hnot : cs ∉ Interval.lowerInfinities ++ Interval.upperInfinities := by
    intro hmem
    simpa [hd, hdigit] using hspellings cs hmem
  rw [List.mem_append, not_or] at hnot
  exact ⟨by simpa using hnot.1, by simpa using hnot.2⟩

end IsNumeral

theorem isNumeral_signedDigits (i : Int) : IsNumeral (signedDigits i) := by
  have hdigits := (isRun_digits i.natAbs).isNumeral
  unfold signedDigits
  split
  · exact hdigits.cons (by decide) (by decide)
  · exact hdigits

end Text

theorem Calendar.isNumeral_dayText (day : Int) : IsNumeral (dayText day) := by
  have hyear : IsNumeral (yearText (yearMonthDay day).year) := by
    have hpadded := (isRun_padded 4 (yearMonthDay day).year.natAbs).isNumeral
    unfold yearText
    split_ifs
    · exact hpadded
    · exact hpadded.cons (by decide) (by decide)
    · exact hpadded.cons (by decide) (by decide)
  simp only [dayText, List.append_assoc, List.cons_append]
  exact hyear.append ((isRun_padded 2 _).isNumeral.append (isRun_padded 2 _).isNumeral (by decide))
    (by decide)

theorem TimeOfDay.isNumeral_characters (t : TimeOfDay) : IsNumeral t.characters := by
  have hminute := (isRun_padded 2 t.hour).isNumeral.append (isRun_padded 2 t.minute).isNumeral
    (show ':' ≠ ',' by decide)
  exact (hminute.append (isRun_padded 2 _).isNumeral (by decide)).append_fraction _

theorem Reading.isNumeral_characters (r : Reading) :
    IsNumeral (r.toWall.characters ' ') :=
  (Calendar.isNumeral_dayText _).append r.time.isNumeral_characters (by decide)

namespace Interval

theorem Legible.of_isNumeral {α : Type} [TextForm α] {v : α}
    (h : IsNumeral (TextForm.text v).toList) : Legible v :=
  ⟨h.isTidy, h.noInfinity⟩

theorem legible_int64 (i : Int64) : Legible i := by
  apply Legible.of_isNumeral
  simpa [TextForm.text, integerText] using isNumeral_signedDigits i.toInt

theorem legible_date (d : Date) : Legible d := by
  apply Legible.of_isNumeral
  simpa [TextForm.text, Date.text] using Calendar.isNumeral_dayText d.day

theorem legible_reading (r : Reading) : Legible r := by
  apply Legible.of_isNumeral
  simpa [TextForm.text, Reading.text, Wall.text] using r.isNumeral_characters

/-! ## The readers of values -/

theorem reread_int64 (e : Extended Int64) : reread e = .ok e := by
  cases e with
  | finite i =>
    have hlow := i.le_toInt
    have hhigh := i.toInt_lt
    have hread := readInteger_signedDigits (i := i.toInt) hlow hhigh
    simp [reread, TextForm.text, TextForm.read, integerText, hread, Except.map]
  | _ => rfl

theorem reread_date (e : Extended Date) : reread e = .ok e := by
  cases e with
  | finite d => simp [reread, TextForm.text, TextForm.read, Date.text, d.read_dayText, Except.map]
  | _ => rfl

/-- The reader of readings refuses the text of every one of them. -/
theorem reread_reading (e : Extended Reading) :
    reread e = if e.isInfinite then .ok e else .error .malformed := by
  cases e with
  | finite r =>
    simp [reread, TextForm.text, TextForm.read, Reading.text, Wall.text, r.read_characters_blank,
      Except.map, Extended.isInfinite]
  | _ => rfl

end Interval

end Almanac
