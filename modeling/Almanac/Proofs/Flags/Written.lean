import Almanac.Flags.Calendar
import Almanac.Proofs.Document.Written
import Almanac.Proofs.Text.Blank
import Mathlib.Data.Nat.Bitwise

/-!
# Written flags are read back

The flags that a mask is written with and the number at the end make up all of its bits: each flag
takes its bits from those not covered yet, and the number has what is left. The parts are found
again between the bars, since none of them has a bar or a blank, and each is read back from its own
text. Any mask of the width of its kind is therefore read back, undefined bits included.
-/

namespace Almanac

open Text

/-! ## Texts with separators -/

namespace Text

variable {separator : Char} {front cs back : List Char}

theorem splitAt_of_not_mem (h : separator ∉ cs) : splitAt separator cs = [cs] := by
  induction cs with
  | nil => rfl
  | cons c cs ih =>
    simp only [List.mem_cons, not_or] at h
    simp [splitAt, Ne.symm h.1, ih h.2]

theorem splitAt_append (h : separator ∉ cs) (rest : List Char) :
    splitAt separator (cs ++ separator :: rest) = cs :: splitAt separator rest := by
  induction cs with
  | nil => simp [splitAt]
  | cons c cs ih =>
    simp only [List.mem_cons, not_or] at h
    simp [splitAt, Ne.symm h.1, ih h.2]

/-- A text that can be one of several with bars between. -/
structure IsWord (cs : List Char) : Prop where
  ne_nil : cs ≠ []
  not_blank : ∀ c ∈ cs, isBlank c = false
  ne_bar : ∀ c ∈ cs, c ≠ '|'

theorem isWord_iff :
    IsWord cs ↔ (!cs.isEmpty && cs.all fun c => !isBlank c && c != '|') = true := by
  simp only [Bool.and_eq_true, Bool.not_eq_eq_eq_not, Bool.not_true, List.isEmpty_eq_false_iff,
    List.all_eq_true, bne_iff_ne]
  exact ⟨fun h => ⟨h.ne_nil, fun c hc => ⟨h.not_blank c hc, h.ne_bar c hc⟩⟩,
    fun h => ⟨h.1, fun c hc => (h.2 c hc).1, fun c hc => (h.2 c hc).2⟩⟩

instance (cs : List Char) : Decidable (IsWord cs) := decidable_of_iff' _ isWord_iff

theorem IsWord.bar_not_mem (h : IsWord cs) (hfront : ∀ c ∈ front, c = ' ')
    (hback : ∀ c ∈ back, c = ' ') : '|' ∉ front ++ (cs ++ back) := by
  simp only [List.mem_append, not_or]
  refine ⟨fun hmem => ?_, fun hmem => h.ne_bar _ hmem rfl, fun hmem => ?_⟩
  · exact absurd (hfront _ hmem) (by decide)
  · exact absurd (hback _ hmem) (by decide)

theorem IsWord.trim_eq (h : IsWord cs) (hfront : ∀ c ∈ front, c = ' ')
    (hback : ∀ c ∈ back, c = ' ') : trim (front ++ (cs ++ back)) = cs := by
  have hblank : isBlank ' ' = true := by decide
  apply trim_surrounded h.ne_nil h.not_blank
  · exact fun c hc => hfront c hc ▸ hblank
  · exact fun c hc => hback c hc ▸ hblank

/-- Words with bars and blanks between them are found again. -/
theorem map_trim_splitAt_intercalate (front : List Char) {w : List Char} {ws : List (List Char)}
    (hw : IsWord w) (hws : ∀ w ∈ ws, IsWord w) (hfront : ∀ c ∈ front, c = ' ') :
    (splitAt '|' (front ++ " | ".toList.intercalate (w :: ws))).map trim = w :: ws := by
  induction ws generalizing w front with
  | nil =>
    have hbar : '|' ∉ front ++ (w ++ []) := hw.bar_not_mem hfront (by simp)
    have htrim : trim (front ++ (w ++ [])) = w := hw.trim_eq hfront (by simp)
    rw [List.append_nil] at hbar htrim
    simp [List.intercalate_singleton, splitAt_of_not_mem hbar, htrim]
  | cons next ws ih =>
    obtain ⟨hnext, hws⟩ := List.forall_mem_cons.mp hws
    have htext : front ++ " | ".toList.intercalate (w :: next :: ws) =
        (front ++ (w ++ [' '])) ++ '|' :: ([' '] ++ " | ".toList.intercalate (next :: ws)) := by
      simp [List.intercalate_cons_cons]
    have hbar : '|' ∉ front ++ (w ++ [' ']) := hw.bar_not_mem hfront (by simp)
    have htrim : trim (front ++ (w ++ [' '])) = w := hw.trim_eq hfront (by simp)
    rw [htext, splitAt_append hbar, List.map_cons, htrim, ih [' '] hnext hws (by simp)]

theorem IsWord.trim_intercalate_ne_nil {w : List Char} (h : IsWord w) (ws : List (List Char)) :
    trim (" | ".toList.intercalate (w :: ws)) ≠ [] := by
  obtain ⟨c, cs, rfl⟩ := List.exists_cons_of_ne_nil h.ne_nil
  have hc := h.not_blank c List.mem_cons_self
  cases ws with
  | nil =>
    rw [List.intercalate_singleton]
    exact trim_cons_ne_nil hc cs
  | cons next ws =>
    rw [List.intercalate_cons_cons]
    exact trim_cons_ne_nil hc _

end Text

/-! ## Hexadecimal numbers -/

namespace FlagKind

variable {width n : Nat}

theorem readHexDigits_append (value : Nat) (a b : List Char) :
    readHexDigits width value (a ++ b) =
      (readHexDigits width value a).bind fun next => readHexDigits width next b := by
  induction a generalizing value with
  | nil => rfl
  | cons c a ih =>
    simp only [List.cons_append, readHexDigits]
    cases hexValue : Json.hexValue? c with
    | none => rfl
    | some digit =>
      by_cases hnext : value * 16 + digit < 1 <<< width
      · simp [hnext, ih]
      · simp [hnext]

/-- A number is read back from its hexadecimal digits. -/
theorem readHexDigits_toDigits (h : n < 2 ^ width) :
    readHexDigits width 0 (Nat.toDigits 16 n) = some n := by
  induction n using Nat.strong_induction_on with
  | _ n ih =>
    have hlast : Json.hexValue? (n % 16).digitChar = some (n % 16) :=
      Json.hexValue?_hexDigit (Nat.mod_lt n (by decide))
    by_cases hsmall : n < 16
    · rw [Nat.mod_eq_of_lt hsmall] at hlast
      simp [Nat.toDigits_of_lt_base hsmall, readHexDigits, hlast, Nat.one_shiftLeft, h]
    · have hfirst := ih (n / 16) (by omega) (by omega)
      have hn : n / 16 * 16 + n % 16 = n := by omega
      rw [Nat.toDigits_of_base_le (by decide) (by omega), readHexDigits_append, hfirst]
      simp [readHexDigits, hlast, hn, Nat.one_shiftLeft, h]

theorem exists_of_mem_toDigits {c : Char} (h : c ∈ Nat.toDigits 16 n) :
    ∃ d < 16, c = Nat.digitChar d := by
  induction n using Nat.strong_induction_on with
  | _ n ih =>
    by_cases hsmall : n < 16
    · rw [Nat.toDigits_of_lt_base hsmall, List.mem_singleton] at h
      exact ⟨n, hsmall, h⟩
    · rw [Nat.toDigits_of_base_le (by decide) (by omega), List.mem_append,
        List.mem_singleton] at h
      rcases h with h | h
      · exact ih (n / 16) (by omega) h
      · exact ⟨n % 16, Nat.mod_lt n (by decide), h⟩

theorem isWord_hexText (n : Nat) : IsWord (hexText n).toList := by
  have hdigit : ∀ d < 16, isBlank (Nat.digitChar d) = false ∧ Nat.digitChar d ≠ '|' := by decide
  have hchar : ∀ c ∈ Nat.toDigits 16 n, isBlank c = false ∧ c ≠ '|' := by
    intro c hc
    obtain ⟨d, hd, rfl⟩ := exists_of_mem_toDigits hc
    exact hdigit d hd
  have hzero : isBlank '0' = false := by decide
  have hx : isBlank 'x' = false := by decide
  refine ⟨by simp [hexText], ?_, ?_⟩
  · simpa [hexText, hzero, hx] using fun c hc => (hchar c hc).1
  · simpa [hexText] using fun c hc => (hchar c hc).2

/-! ## Covering a mask -/

theorem testBit_sub_and (x y i : Nat) :
    (x - (x &&& y)).testBit i = (x.testBit i && !y.testBit i) := by
  have hle : ∀ x y : Nat, x &&& y ≤ x := fun _ _ => Nat.and_le_left
  have hparity : ∀ x y : Nat, (x &&& y) % 2 = 1 ↔ x % 2 = 1 ∧ y % 2 = 1 := by simp
  -- The difference is one of numbers, not of bits, so it is halved along with its bits.
  induction i generalizing x y with
  | zero =>
    have hdifference : (x - (x &&& y)) % 2 = 1 ↔ x % 2 = 1 ∧ ¬y % 2 = 1 := by grind
    simp only [Nat.testBit_zero, hdifference, Bool.decide_and, decide_not]
  | succ i ih =>
    have hhalf : (x - (x &&& y)) / 2 = x / 2 - (x &&& y) / 2 := by grind
    rw [Nat.testBit_succ, Nat.testBit_succ, Nat.testBit_succ, hhalf, Nat.and_div_two, ih]

/-- The bits of a flag and the bits that it leaves make up the bits that there were. -/
theorem or_sub_and (x y : Nat) : y ||| (x - (x &&& y)) = y ||| x := by
  apply Nat.eq_of_testBit_eq
  intro i
  simp only [Nat.testBit_or, testBit_sub_and]
  cases x.testBit i <;> cases y.testBit i <;> rfl

/-- The bits covered before, the flags named and the bits left make up the mask. -/
theorem foldl_covering {mask : Nat} (covered rest : Nat) (flags : List Flag)
    (h : covered ||| rest = mask) :
    ((covering mask rest flags).1.foldl (fun m f => m ||| f.mask) covered |||
      (covering mask rest flags).2) = mask := by
  induction flags generalizing covered rest with
  | nil => exact h
  | cons f flags ih =>
    unfold covering
    by_cases hf : mask &&& f.mask = f.mask ∧ rest &&& f.mask ≠ 0
    · -- A flag that is named has all its bits in the mask, so it adds none to it.
      have habsorbed : mask ||| f.mask = mask := by
        apply Nat.eq_of_testBit_eq
        intro i
        rw [Nat.testBit_or, ← hf.1, Nat.testBit_and]
        cases mask.testBit i <;> rfl
      have hnext : covered ||| f.mask ||| (rest - (rest &&& f.mask)) = mask := by
        rw [Nat.or_assoc, or_sub_and, Nat.or_comm f.mask, ← Nat.or_assoc, h, habsorbed]
      rw [if_pos hf]
      exact ih _ _ hnext
    · rw [if_neg hf]
      exact ih _ _ h

theorem mem_of_mem_covering {mask rest : Nat} {flags : List Flag} {f : Flag}
    (h : f ∈ (covering mask rest flags).1) : f ∈ flags := by
  induction flags generalizing rest with
  | nil => cases h
  | cons g flags ih =>
    unfold covering at h
    split at h
    · rcases List.mem_cons.mp h with rfl | h
      · exact List.mem_cons_self
      · exact List.mem_cons_of_mem g (ih h)
    · exact List.mem_cons_of_mem g (ih h)

/-! ## Kinds of flags -/

/-- The names of a kind tell its flags apart, and none of them looks like a number. -/
structure WellNamed (k : FlagKind) : Prop where
  find?_eq : ∀ f ∈ k.flags, k.flags.find? (·.name.toList == f.name.toList) = some f
  isWord : ∀ f ∈ k.flags, IsWord f.name.toList
  head?_ne : ∀ f ∈ k.flags, f.name.toList.head? ≠ some '0'

variable {k : FlagKind}

theorem WellNamed.readPart?_name (h : k.WellNamed) {f : Flag} (hf : f ∈ k.flags) :
    k.readPart? f.name.toList = some f.mask := by
  have hhead := h.head?_ne f hf
  have hfind := h.find?_eq f hf
  unfold readPart?
  split
  · next heq => simp [heq] at hhead
  · rw [hfind]
    rfl

theorem readPart?_hexText {n : Nat} (hn : n < 2 ^ k.width) :
    k.readPart? (hexText n).toList = some n := by
  have hread := readHexDigits_toDigits hn
  obtain ⟨c, cs, hdigits⟩ := List.exists_cons_of_ne_nil (Nat.toDigits_ne_nil (b := 16) (n := n))
  have hplus : c ≠ '+' := by
    rintro rfl
    obtain ⟨d, hd, heq⟩ := exists_of_mem_toDigits (n := n) (c := '+') (by simp [hdigits])
    exact absurd heq.symm ((by decide : ∀ d < 16, Nat.digitChar d ≠ '+') d hd)
  rw [hdigits] at hread
  simp [hexText, hdigits, readPart?, readHex?, hplus, hread]

/-- The masks of named flags are put together one after the other. -/
theorem WellNamed.foldlM_readPart? (h : k.WellNamed) {named : List Flag}
    (hnamed : ∀ f ∈ named, f ∈ k.flags) (covered : Nat) :
    (named.map (·.name.toList)).foldlM (fun mask part => (mask ||| ·) <$> k.readPart? part)
      covered = some (named.foldl (fun m f => m ||| f.mask) covered) := by
  induction named generalizing covered with
  | nil => rfl
  | cons f named ih =>
    obtain ⟨hf, hrest⟩ := List.forall_mem_cons.mp hnamed
    rw [List.map_cons, List.foldlM_cons, h.readPart?_name hf]
    exact ih hrest _

/-- A mask is read back from its text, whether names cover its bits or not. -/
theorem WellNamed.read?_text (h : k.WellNamed) (mask : Nat) (hmask : mask < 2 ^ k.width) :
    k.read? (k.text mask) = some mask := by
  have hcovering := foldl_covering 0 mask k.flags (Nat.zero_or mask)
  have hnamed : ∀ f ∈ (covering mask mask k.flags).1, f ∈ k.flags := fun _ => mem_of_mem_covering
  have hleft : (covering mask mask k.flags).2 < 2 ^ k.width := by
    refine lt_of_le_of_lt ?_ hmask
    exact le_of_le_of_eq Nat.right_le_or hcovering
  have hwords : ∀ w ∈ (k.names mask).map String.toList, IsWord w := by
    simp only [names, List.map_append, List.map_map, List.mem_append, List.mem_map]
    rintro w (⟨f, hf, rfl⟩ | ⟨name, hname, rfl⟩)
    · exact h.isWord f (hnamed f hf)
    · split at hname
      · cases hname
      · rw [List.mem_singleton.mp hname]
        exact isWord_hexText _
  have hparts : ((k.names mask).map String.toList).foldlM
      (fun mask part => (mask ||| ·) <$> k.readPart? part) 0 = some mask := by
    have hnames := h.foldlM_readPart? hnamed 0
    rw [names, List.map_append, List.map_map, List.foldlM_append]
    simp only [Function.comp_def, hnames]
    split
    · next hzero =>
      rw [hzero, Nat.or_zero] at hcovering
      simp [hcovering]
    · simp [readPart?_hexText hleft, hcovering]
  have htext : (k.text mask).toList = " | ".toList.intercalate ((k.names mask).map String.toList) :=
    String.toList_intercalate
  unfold read?
  rw [htext]
  cases hnames : (k.names mask).map String.toList with
  | nil =>
    rw [hnames] at hparts
    simpa [trim, trimStart, trimEnd] using hparts
  | cons w ws =>
    rw [hnames] at hwords hparts
    obtain ⟨hw, hws⟩ := List.forall_mem_cons.mp hwords
    have hsplit := map_trim_splitAt_intercalate [] hw hws (by simp)
    rw [List.nil_append] at hsplit
    rw [← hsplit, List.foldlM_map] at hparts
    rw [if_neg (by simpa using hw.trim_intercalate_ne_nil ws)]
    exact hparts

end FlagKind

/-! ## Week days and months -/

theorem WeekDays.wellNamed_kind : WeekDays.kind.WellNamed :=
  ⟨by decide, by decide, by decide⟩

theorem Months.wellNamed_kind : Months.kind.WellNamed :=
  ⟨by decide, by decide, by decide⟩

theorem WeekDays.decode_toJson (s : WeekDays) : WeekDays.decode s.toJson = .ok s := by
  have hread := WeekDays.wellNamed_kind.read?_text s.mask.toNat s.mask.toNat_lt
  simp [WeekDays.decode, FlagKind.decode, WeekDays.toJson, FlagKind.toJson, Decoder.string, hread,
    Except.map]

theorem Months.decode_toJson (s : Months) : Months.decode s.toJson = .ok s := by
  have hread := Months.wellNamed_kind.read?_text s.mask.toNat s.mask.toNat_lt
  simp [Months.decode, FlagKind.decode, Months.toJson, FlagKind.toJson, Decoder.string, hread,
    Except.map]

end Almanac
