import Almanac.Proofs.Interval.Written

/-!
# The grammar of interval notation

An interval text is a bracket or parenthesis, the text of a lower value without a comma, a comma,
the text of an upper value, and a bracket or parenthesis, with blanks around the whole and around
the two values. An end is spelled as an infinity of its side, always with a parenthesis, or else
as the type of the values reads it. The reader accepts exactly the texts of this form whose two
ends make an interval, and an interval whose values are read back is read back itself.

Brackets and parentheses are of one byte, so the bytes between the first one and the last one are
the inside of the text, whatever characters it holds.
-/

namespace Almanac

open Text

namespace Side

/-- The character that opens or closes an interval on a side. -/
def bracket : Side → Direction → Char
  | lower => Direction.opening
  | upper => Direction.closing

/-- What lies beyond all values on a side. -/
def infinity {α : Type} : Side → Extended α
  | lower => .negInfinity
  | upper => .posInfinity

/-- The texts that stand for the infinity of a side. -/
def spellings : Side → List (List Char)
  | lower => ["-inf".toList, "-∞".toList]
  | upper => ["inf".toList, "+inf".toList, "∞".toList, "+∞".toList]

theorem bracket_injective {side : Side} {d d' : Direction}
    (h : side.bracket d = side.bracket d') : d = d' := by
  cases side <;> cases d <;> cases d' <;> first | rfl | cases h

/-- No character opens an interval and closes it too. -/
theorem bracket_lower_ne_bracket_upper (d d' : Direction) :
    lower.bracket d ≠ upper.bracket d' := by
  cases d <;> cases d' <;> decide

theorem utf8Size_bracket (side : Side) (d : Direction) : (side.bracket d).utf8Size = 1 := by
  cases side <;> cases d <;> rfl

end Side

namespace Interval

variable {α : Type} [TextForm α]

/-- A text is one end of an interval, with the character that opens or closes the interval there:
an infinity with its parenthesis, or any other text that is read as a value. -/
inductive Spells (side : Side) (bracket : Char) (cs : List Char) : Bound α → Prop
  | infinite (hspelling : trim cs ∈ side.spellings) (hbracket : bracket = side.bracket .exclusive) :
      Spells side bracket cs ⟨side, .exclusive, side.infinity⟩
  | finite {direction : Direction} {v : α} (hother : trim cs ∉ side.spellings)
      (hbracket : bracket = side.bracket direction) (hread : TextForm.read (trim cs) = .ok v) :
      Spells side bracket cs ⟨side, direction, .finite v⟩

/-- A text denotes an interval: it spells the two ends, which are accepted. -/
inductive Denotes [Ord α] (s : String) (i : Interval α) : Prop
  | intro {opening closing : Char} {lo hi : List Char}
      (htext : trim s.toList = opening :: (lo ++ ',' :: (hi ++ [closing]))) (hcomma : ',' ∉ lo)
      (hlower : Spells .lower opening lo i.lower) (hupper : Spells .upper closing hi i.upper)
      (hbounds : ofBounds i.lower i.upper = .ok i) : Denotes s i

/-! ## Cutting up a text -/

section Text

variable {cs lo hi : List Char} {c : Option Char} {first last : Char} {d d' : Direction}

theorem opening?_eq_some_iff : opening? c = some d ↔ c = some (Side.lower.bracket d) := by
  constructor
  · intro h
    unfold opening? at h
    split at h <;> cases h <;> rfl
  · rintro rfl
    cases d <;> rfl

theorem closing?_eq_some_iff : closing? c = some d ↔ c = some (Side.upper.bracket d) := by
  constructor
  · intro h
    unfold closing? at h
    split at h <;> cases h <;> rfl
  · rintro rfl
    cases d <;> rfl

/-- A text that starts and ends with different characters has an inside. -/
theorem eq_cons_append_of_head?_getLast? (hfirst : cs.head? = some first)
    (hlast : cs.getLast? = some last) (hne : first ≠ last) :
    cs = first :: (cs.tail.dropLast ++ [last]) := by
  obtain ⟨rest, rfl⟩ := List.head?_eq_some_iff.mp hfirst
  cases rest with
  | nil =>
    cases hlast
    exact (hne rfl).elim
  | cons second rest =>
    rw [List.getLast?_cons_cons] at hlast
    obtain ⟨init, hinit⟩ := List.getLast?_eq_some_iff.mp hlast
    rw [List.tail_cons, hinit, List.dropLast_concat]

theorem splitComma?_append (h : ',' ∉ lo) (hi : List Char) :
    splitComma? (lo ++ ',' :: hi) = some (lo, hi) := by
  have hlo : ∀ c ∈ lo, (c != ',') = true := by
    intro c hc
    rw [bne_iff_ne]
    rintro rfl
    exact h hc
  have hdrop : (lo ++ ',' :: hi).dropWhile (· != ',') = ',' :: hi := by
    rw [List.dropWhile_append_of_pos hlo]
    rfl
  have htake : (lo ++ ',' :: hi).takeWhile (· != ',') = lo := by
    rw [List.takeWhile_append_of_pos hlo]
    simp
  simp [splitComma?, hdrop, htake]

theorem splitComma?_eq_some_iff :
    splitComma? cs = some (lo, hi) ↔ cs = lo ++ ',' :: hi ∧ ',' ∉ lo := by
  constructor
  · intro h
    unfold splitComma? at h
    split at h
    · cases h
    · next comma rest hdrop =>
      cases h
      have hcomma : comma = ',' := by
        have hhead := List.head?_dropWhile_not (· != ',') cs
        rw [hdrop] at hhead
        simpa using hhead
      subst hcomma
      refine ⟨?_, fun hmem => ?_⟩
      · rw [← hdrop, List.takeWhile_append_dropWhile]
      · simpa using List.mem_takeWhile_imp hmem
  · rintro ⟨rfl, hcomma⟩
    exact splitComma?_append hcomma hi

/-- The values are read from the texts that the comma divides. -/
theorem readParts_eq (hopening : opening? cs.head? = some d)
    (hclosing : closing? cs.getLast? = some d')
    (hsplit : splitComma? cs.tail.dropLast = some (lo, hi)) :
    readParts (α := α) cs = (do
      let lower ← (readLower (trim lo)).mapError .lower
      let upper ← (readUpper (trim hi)).mapError .upper
      return ((d, lower), (d', upper))) := by
  simp [readParts, hopening, hclosing, hsplit]

/-- The directions are read off the two ends, and the values off what the comma divides. -/
theorem readParts_eq_ok_iff {lower upper : Extended α} :
    readParts cs = .ok ((d, lower), (d', upper)) ↔
      ∃ lo hi, cs = Side.lower.bracket d :: (lo ++ ',' :: (hi ++ [Side.upper.bracket d'])) ∧
        ',' ∉ lo ∧ readLower (trim lo) = .ok lower ∧ readUpper (trim hi) = .ok upper := by
  constructor
  · intro h
    cases hopening : opening? cs.head? with
    | none => simp [readParts, hopening] at h
    | some direction =>
      cases hclosing : closing? cs.getLast? with
      | none => simp [readParts, hopening, hclosing] at h
      | some direction' =>
        cases hsplit : splitComma? cs.tail.dropLast with
        | none => simp [readParts, hopening, hclosing, hsplit] at h
        | some parts =>
          obtain ⟨lo, hi⟩ := parts
          rw [readParts_eq hopening hclosing hsplit] at h
          obtain ⟨lower', hlower, h⟩ := exists_of_bind_eq_ok h
          obtain ⟨upper', hupper, h⟩ := exists_of_bind_eq_ok h
          cases h
          obtain ⟨hinside, hcomma⟩ := splitComma?_eq_some_iff.mp hsplit
          have hcs := eq_cons_append_of_head?_getLast? (opening?_eq_some_iff.mp hopening)
            (closing?_eq_some_iff.mp hclosing) (Side.bracket_lower_ne_bracket_upper d d')
          rw [hinside, List.append_assoc, List.cons_append] at hcs
          exact ⟨lo, hi, hcs, hcomma, eq_ok_of_mapError_eq_ok hlower,
            eq_ok_of_mapError_eq_ok hupper⟩
  · intro hparts
    obtain ⟨lo, hi, htext, hcomma, hlower, hupper⟩ := hparts
    have hcs : cs = (Side.lower.bracket d :: (lo ++ ',' :: hi)) ++ [Side.upper.bracket d'] := by
      simp [htext]
    have hopening : opening? cs.head? = some d := by
      rw [opening?_eq_some_iff, hcs]
      rfl
    have hclosing : closing? cs.getLast? = some d' := by
      rw [closing?_eq_some_iff, hcs, List.getLast?_concat]
    have hsplit : splitComma? cs.tail.dropLast = some (lo, hi) := by
      rw [splitComma?_eq_some_iff, hcs, List.cons_append, List.tail_cons, List.dropLast_concat]
      exact ⟨rfl, hcomma⟩
    rw [readParts_eq hopening hclosing hsplit, hlower, hupper]
    rfl

end Text

/-! ## The two ends -/

section Ends

variable {cs : List Char} {value : Extended α} {side : Side} {d : Direction} {b : Bound α}

/-- The reader of the values of a side. -/
def readSide : Side → List Char → Except ReadFault (Extended α)
  | .lower => readLower
  | .upper => readUpper

theorem readSide_eq_ok_iff :
    readSide side cs = .ok value ↔
      (cs ∈ side.spellings ∧ value = side.infinity) ∨
        (cs ∉ side.spellings ∧ ∃ v : α, TextForm.read cs = .ok v ∧ value = .finite v) := by
  have hread : readSide side cs = if side.spellings.contains cs then .ok side.infinity
      else (TextForm.read cs : Except ReadFault α).map .finite := by
    cases side <;> rfl
  rw [hread]
  by_cases hspelling : cs ∈ side.spellings
  · rw [if_pos (List.contains_iff_mem.mpr hspelling)]
    simp [hspelling, eq_comm]
  · rw [if_neg (mt List.contains_iff_mem.mp hspelling), map_eq_ok_iff]
    simp [hspelling, eq_comm]

theorem NoInfinity.not_mem (h : NoInfinity cs) (side : Side) : cs ∉ side.spellings := by
  have hnot : ∀ listed : List (List Char), listed.contains cs = false → cs ∉ listed := by simp
  cases side with
  | lower => exact hnot _ h.1
  | upper => exact hnot _ h.2

theorem Spells.bracket_eq {c : Char} (h : Spells side c cs b) : c = side.bracket b.direction := by
  cases h with
  | infinite _ hbracket => exact hbracket
  | finite _ hbracket _ => exact hbracket

/-- A text spells an end exactly when its value is read and makes a bound with the direction of the
bracket. -/
theorem spells_iff :
    Spells side (side.bracket d) cs b ↔
      ∃ value, readSide side (trim cs) = .ok value ∧ Bound.ofParts side d value = .ok b := by
  constructor
  · intro h
    cases h with
    | infinite hspelling hbracket =>
      obtain rfl := Side.bracket_injective hbracket
      refine ⟨side.infinity, readSide_eq_ok_iff.mpr (Or.inl ⟨hspelling, rfl⟩), ?_⟩
      cases side <;> rfl
    | finite hother hbracket hread =>
      obtain rfl := Side.bracket_injective hbracket
      exact ⟨_, readSide_eq_ok_iff.mpr (Or.inr ⟨hother, _, hread, rfl⟩),
        Bound.ofParts_eq_ok_iff.mpr ⟨rfl, trivial⟩⟩
  · intro hparts
    obtain ⟨value, hvalue, hbound⟩ := hparts
    obtain ⟨rfl, hvalid⟩ := Bound.ofParts_eq_ok_iff.mp hbound
    rcases readSide_eq_ok_iff.mp hvalue with ⟨hspelling, rfl⟩ | ⟨hother, v, hread, rfl⟩
    · obtain rfl : d = .exclusive := by
        cases side <;> exact hvalid
      exact .infinite hspelling rfl
    · exact .finite hother rfl hread

end Ends

/-! ## Whole texts -/

section Whole

variable [Ord α] {s : String} {i : Interval α}

/-- The reader accepts the texts of the grammar. -/
theorem read_eq_ok_iff : read s = .ok i ↔ Denotes s i := by
  constructor
  · intro h
    obtain ⟨⟨⟨d, lower⟩, ⟨d', upper⟩⟩, hparts, h⟩ := exists_of_bind_eq_ok h
    obtain ⟨lo, hi, htext, hcomma, hlower, hupper⟩ :=
      readParts_eq_ok_iff.mp (eq_ok_of_mapError_eq_ok hparts)
    obtain ⟨b, hb, h⟩ := exists_of_bind_eq_ok h
    obtain ⟨b', hb', h⟩ := exists_of_bind_eq_ok h
    obtain ⟨rfl, -⟩ := wellFormed_of_ofBounds (Bound.ofParts_eq_ok_iff.mp hb).2
      (Bound.ofParts_eq_ok_iff.mp hb').2 h
    exact .intro htext hcomma (spells_iff.mpr ⟨lower, hlower, hb⟩)
      (spells_iff.mpr ⟨upper, hupper, hb'⟩) h
  · intro h
    obtain ⟨htext, hcomma, hlower, hupper, hbounds⟩ := h
    obtain rfl := hlower.bracket_eq
    obtain rfl := hupper.bracket_eq
    obtain ⟨lower, hlowerRead, hlowerBound⟩ := spells_iff.mp hlower
    obtain ⟨upper, hupperRead, hupperBound⟩ := spells_iff.mp hupper
    have hparts := readParts_eq_ok_iff.mpr ⟨_, _, htext, hcomma, hlowerRead, hupperRead⟩
    simp [read, hparts, hlowerBound, hupperBound, hbounds, Except.mapError, bind, Except.bind]

theorem exists_read_eq_error_iff :
    (∃ fault, (read s : Except Fault (Interval α)) = .error fault) ↔
      ∀ i : Interval α, ¬Denotes s i := by
  simp only [← read_eq_ok_iff]
  cases (read s : Except Fault (Interval α)) with
  | error fault => simp
  | ok i => simp

end Whole

/-! ## The inside of a text in bytes -/

/-- Without its first and its last byte a text is its inside: both bytes are there, and each is a
character. -/
structure Encloses (text inside : String) : Prop where
  two_le : 2 ≤ text.utf8ByteSize
  isValid_start : (⟨1⟩ : String.Pos.Raw).IsValid text
  isValid_stop : (⟨text.utf8ByteSize - 1⟩ : String.Pos.Raw).IsValid text
  bytes_eq : text.toByteArray.extract 1 (text.utf8ByteSize - 1) = inside.toByteArray

theorem encloses {first last : Char} (hfirst : first.utf8Size = 1) (hlast : last.utf8Size = 1)
    (cs : List Char) : Encloses (String.ofList (first :: (cs ++ [last]))) (String.ofList cs) := by
  have htext : String.ofList (first :: (cs ++ [last])) =
      String.singleton first ++ (String.ofList cs ++ String.singleton last) := by
    rw [String.ofList_cons, String.ofList_append]
    rfl
  have hbefore : (String.singleton first ++ String.ofList cs).utf8ByteSize =
      1 + (String.ofList cs).utf8ByteSize := by
    rw [String.utf8ByteSize_append, String.utf8ByteSize_singleton, hfirst]
  have hsize : (String.ofList (first :: (cs ++ [last]))).utf8ByteSize =
      1 + (String.ofList cs).utf8ByteSize + 1 := by
    rw [htext, ← String.append_assoc, String.utf8ByteSize_append, hbefore,
      String.utf8ByteSize_singleton, hlast]
  have hone : (String.singleton first).toByteArray.size = 1 := by
    rw [String.size_toByteArray, String.utf8ByteSize_singleton, hfirst]
  refine ⟨by omega, ?_, ?_, ?_⟩
  · refine String.Pos.Raw.isValid_iff_exists_append.mpr ⟨_, _, htext, ?_⟩
    exact congrArg String.Pos.Raw.mk hone.symm
  · rw [← String.append_assoc] at htext
    refine String.Pos.Raw.isValid_iff_exists_append.mpr ⟨_, _, htext, ?_⟩
    exact congrArg String.Pos.Raw.mk (by rw [hsize, hbefore, Nat.add_sub_cancel])
  · have hskip : (String.singleton first).toByteArray.extract 1
        (1 + (String.ofList cs).utf8ByteSize) = ByteArray.empty :=
      ByteArray.extract_eq_empty_iff.mpr (by omega)
    rw [hsize, Nat.add_sub_cancel, htext, String.toByteArray_append, String.toByteArray_append,
      ByteArray.extract_append, hskip, ByteArray.empty_append, hone, Nat.sub_self,
      Nat.add_sub_cancel_left]
    exact ByteArray.extract_append_eq_left String.size_toByteArray.symm

/-- Between a bracket and a bracket lies the inside of a text. -/
theorem encloses_of_brackets {cs : List Char} (hopening : (opening? cs.head?).isSome = true)
    (hclosing : (closing? cs.getLast?).isSome = true) :
    Encloses (String.ofList cs) (String.ofList cs.tail.dropLast) := by
  obtain ⟨d, hd⟩ := Option.isSome_iff_exists.mp hopening
  obtain ⟨d', hd'⟩ := Option.isSome_iff_exists.mp hclosing
  have hcs := eq_cons_append_of_head?_getLast? (opening?_eq_some_iff.mp hd)
    (closing?_eq_some_iff.mp hd') (Side.bracket_lower_ne_bracket_upper d d')
  have hencloses := encloses (Side.utf8Size_bracket .lower d) (Side.utf8Size_bracket .upper d')
    cs.tail.dropLast
  rwa [← hcs] at hencloses

/-! ## Texts that are written -/

section Written

/-- The text of a value can stand on a side of an interval, where it is read as the value. -/
structure Stands (side : Side) (v : α) : Prop where
  isTidy : IsTidy (TextForm.text v).toList
  no_infinity : (TextForm.text v).toList ∉ side.spellings
  read_eq : TextForm.read (TextForm.text v).toList = .ok v

theorem Legible.stands {v : α} (h : Legible v) (hread : reread (.finite v) = .ok (.finite v))
    (side : Side) : Stands side v := by
  obtain ⟨w, hw, hsame⟩ := map_eq_ok_iff.mp hread
  rw [Extended.finite.inj hsame] at hw
  exact ⟨h.isTidy, h.noInfinity.not_mem side, hw⟩

/-- What is trimmed to the text of an end spells the end. -/
theorem spells_text {b : Bound α} {cs : List Char} (hvalid : b.Valid)
    (htext : trim cs = b.value.text.toList) (h : ∀ v, b.value = .finite v → Stands b.side v) :
    Spells b.side (b.side.bracket b.direction) cs b := by
  obtain ⟨side, direction, value⟩ := b
  dsimp only at htext h ⊢
  cases value with
  | negInfinity =>
    cases side with
    | lower =>
      obtain rfl : direction = .exclusive := hvalid
      have hspelling : trim cs ∈ Side.lower.spellings := htext ▸ List.mem_cons_self
      exact .infinite hspelling rfl
    | upper => exact hvalid.elim
  | finite v =>
    have hstands := h v rfl
    exact .finite (htext ▸ hstands.no_infinity) rfl (htext ▸ hstands.read_eq)
  | posInfinity =>
    cases side with
    | lower => exact hvalid.elim
    | upper =>
      obtain rfl : direction = .exclusive := hvalid
      have hspelling : trim cs ∈ Side.upper.spellings :=
        htext ▸ List.mem_cons_of_mem _ List.mem_cons_self
      exact .infinite hspelling rfl

/-- An end that is spelled by the text of a legible value gives a value when it is read again. -/
theorem Spells.exists_reread {side : Side} {c : Char} {cs : List Char} {b : Bound α}
    {value : Extended α} (h : Spells side c cs b) (htext : trim cs = value.text.toList)
    (hlegible : ∀ v, value = .finite v → Legible v) : ∃ w, reread value = .ok w := by
  cases value with
  | finite v =>
    cases h with
    | infinite hspelling _ =>
      rw [htext] at hspelling
      exact ((hlegible v rfl).noInfinity.not_mem side hspelling).elim
    | finite _ _ hread =>
      rw [htext] at hread
      exact ⟨_, map_eq_ok_iff.mpr ⟨_, hread, rfl⟩⟩
  | _ => exact ⟨_, rfl⟩

variable [Ord α] {i j : Interval α}

/-- The text of a well-formed interval denotes it when the texts of its values can stand there. -/
theorem denotes_text (h : i.WellFormed) (hlower : ∀ v, i.lower.value = .finite v → Stands .lower v)
    (hupper : ∀ v, i.upper.value = .finite v → Stands .upper v) : Denotes i.text i := by
  have hlowerTidy := isTidy_text fun v hv => (hlower v hv).isTidy
  have hupperTidy := isTidy_text fun v hv => (hupper v hv).isTidy
  have hspellsLower : Spells i.lower.side (i.lower.side.bracket i.lower.direction)
      i.lower.value.text.toList i.lower :=
    spells_text h.valid_lower hlowerTidy.trim_eq (by rwa [h.side_lower])
  have hspellsUpper : Spells i.upper.side (i.upper.side.bracket i.upper.direction)
      (' ' :: i.upper.value.text.toList) i.upper :=
    spells_text h.valid_upper hupperTidy.trim_eq (by rwa [h.side_upper])
  rw [h.side_lower] at hspellsLower
  rw [h.side_upper] at hspellsUpper
  exact .intro ((trim_text h.side_lower h.side_upper).trans (toList_text h.side_lower h.side_upper))
    hlowerTidy.no_comma hspellsLower hspellsUpper h.ofBounds_eq_ok

/-- A well-formed interval is read back from its text when its values are. -/
theorem read_text (h : i.WellFormed) (hlegible : i.AllLegible)
    (hlower : reread i.lower.value = .ok i.lower.value)
    (hupper : reread i.upper.value = .ok i.upper.value) : read i.text = .ok i := by
  refine read_eq_ok_iff.mpr (denotes_text h (fun v hv => ?_) fun v hv => ?_)
  · rw [hv] at hlower
    exact (hlegible.1 v hv).stands hlower .lower
  · rw [hv] at hupper
    exact (hlegible.2 v hv).stands hupper .upper

/-- A text of an interval that is read has values that are read. -/
theorem exists_reread_of_read_text (h : i.WellFormed) (hlegible : i.AllLegible)
    (hread : read i.text = .ok j) :
    (∃ lo, reread i.lower.value = .ok lo) ∧ ∃ hi, reread i.upper.value = .ok hi := by
  obtain ⟨htext, hcomma, hlower, hupper, -⟩ := read_eq_ok_iff.mp hread
  have hlowerTidy := isTidy_text fun v hv => (hlegible.1 v hv).isTidy
  have hupperTidy := isTidy_text fun v hv => (hlegible.2 v hv).isTidy
  rw [trim_text h.side_lower h.side_upper, toList_text h.side_lower h.side_upper] at htext
  -- Both ways to divide the text at its first comma give the same two parts.
  have hsplit := congrArg splitComma? (List.tail_eq_of_cons_eq htext)
  rw [splitComma?_append hlowerTidy.no_comma, splitComma?_append hcomma, ← List.cons_append]
    at hsplit
  obtain ⟨rfl, hinside⟩ := Prod.mk.inj (Option.some.inj hsplit)
  obtain ⟨rfl, -⟩ := List.append_inj' hinside rfl
  exact ⟨hlower.exists_reread hlowerTidy.trim_eq hlegible.1,
    hupper.exists_reread hupperTidy.trim_eq hlegible.2⟩

end Written

/-- A text is read as an interval exactly if it denotes this interval, and every other text is
refused. The inside of a text with brackets at both ends can always be cut out by bytes. A
well-formed interval is read back from its text if the texts of its finite values hold no comma and
no blank at an end, spell no infinity of their side and are read back; intervals of integers and of
dates always are. -/
theorem accepts_exactly_grammar [Ord α] :
    (∀ (s : String) (i : Interval α), read s = .ok i ↔ Denotes s i) ∧
    (∀ s : String, (∃ fault, (read s : Except Fault (Interval α)) = .error fault) ↔
      ∀ i : Interval α, ¬Denotes s i) ∧
    (∀ cs : List Char, (opening? cs.head?).isSome = true → (closing? cs.getLast?).isSome = true →
      Encloses (String.ofList cs) (String.ofList cs.tail.dropLast)) ∧
    (∀ i : Interval α, i.WellFormed → (∀ v, i.lower.value = .finite v → Stands .lower v) →
      (∀ v, i.upper.value = .finite v → Stands .upper v) → read i.text = .ok i) ∧
    (∀ i : Interval Int64, i.WellFormed → read i.text = .ok i) ∧
    ∀ i : Interval Date, i.WellFormed → read i.text = .ok i := by
  refine ⟨fun s i => read_eq_ok_iff, fun s => exists_read_eq_error_iff,
    fun cs hopening hclosing => encloses_of_brackets hopening hclosing,
    fun i h hlower hupper => read_eq_ok_iff.mpr (denotes_text h hlower hupper),
    fun i h => ?_, fun i h => ?_⟩
  · exact read_text h ⟨fun v _ => legible_int64 v, fun v _ => legible_int64 v⟩
      (reread_int64 _) (reread_int64 _)
  · exact read_text h ⟨fun v _ => legible_date v, fun v _ => legible_date v⟩
      (reread_date _) (reread_date _)

/-- All integers up to 7. -/
def upToSeven : Interval Int64 := ⟨.bottom, .upperAt .inclusive 7⟩

theorem wellFormed_upToSeven : upToSeven.WellFormed := ⟨rfl, trivial, rfl, rfl, Or.inl rfl⟩

theorem denotes_upToSeven : Denotes " ( -∞ ,\t+7 ] " upToSeven := by
  have hlower : Spells .lower '(' " -∞ ".toList upToSeven.lower := .infinite (by decide) rfl
  have hother : trim "\t+7 ".toList ∉ Side.upper.spellings := by decide
  have hupper : Spells .upper ']' "\t+7 ".toList upToSeven.upper := .finite hother rfl rfl
  exact .intro (by decide) (by decide) hlower hupper (by decide)

/-- Blanks, a sign and the other spelling of an infinity are read, and what is written is read
back; no interval holds an infinity. -/
theorem accepts_exactly_grammar_up_to_seven :
    Denotes " ( -∞ ,\t+7 ] " upToSeven ∧ read " ( -∞ ,\t+7 ] " = .ok upToSeven ∧
      (∀ i : Interval Int64, ¬Denotes "[-∞,7]" i) ∧
      (opening? "(-∞,7]".toList.head?).isSome = true ∧
      (closing? "(-∞,7]".toList.getLast?).isSome = true ∧ Encloses "(-∞,7]" "-∞,7" ∧
      upToSeven.WellFormed ∧ Stands .upper (7 : Int64) ∧ read upToSeven.text = .ok upToSeven ∧
      (⟨.bottom, .top⟩ : Interval Date).WellFormed ∧
      read (text (⟨.bottom, .top⟩ : Interval Date)) = .ok (⟨.bottom, .top⟩ : Interval Date) := by
  have hdates : (⟨.bottom, .top⟩ : Interval Date).WellFormed := ⟨rfl, rfl, rfl, rfl, Or.inl rfl⟩
  have hstands : Stands .upper (7 : Int64) := (legible_int64 7).stands (reread_int64 _) .upper
  obtain ⟨hread, hrefused, hencloses, hback, -, hbackDate⟩ := accepts_exactly_grammar (α := Int64)
  refine ⟨denotes_upToSeven, (hread _ _).mpr denotes_upToSeven, (hrefused _).mp ⟨_, rfl⟩, rfl, rfl,
    hencloses "(-∞,7]".toList rfl rfl, wellFormed_upToSeven, hstands,
    hback _ wellFormed_upToSeven ?_ ?_, hdates, hbackDate _ hdates⟩
  · exact fun v hv => nomatch hv
  · intro v hv
    cases hv
    exact hstands

end Interval

end Almanac
