import Almanac.Text.Form
import Mathlib.Tactic.IntervalCases

/-!
# Written numbers

The digits of a number have its value, and so have the digits padded with zeros. A run of digits
is taken from the start of a text up to its limit, or up to the first character that is no digit.
Numbers that are written and followed by such a character are therefore read back, and an integer
of 64 bits is read back from its text.
-/

namespace Almanac.Text

/-! ## Digits -/

/-- A text does not go on with a digit. -/
def NoDigitHead (cs : List Char) : Prop :=
  ∀ c, cs.head? = some c → c.isDigit = false

@[simp] theorem noDigitHead_nil : NoDigitHead [] := by
  simp [NoDigitHead]

@[simp] theorem noDigitHead_cons {c : Char} {cs : List Char} :
    NoDigitHead (c :: cs) ↔ c.isDigit = false := by
  simp [NoDigitHead]

/-- A text that consists of digits, one at least. -/
structure IsRun (cs : List Char) : Prop where
  ne_nil : cs ≠ []
  isDigit : ∀ c ∈ cs, c.isDigit = true

theorem isRun_digits (n : Nat) : IsRun (digits n) :=
  ⟨Nat.toDigits_ne_nil, fun _ hc => Nat.isDigit_of_mem_toDigits (by decide) (by decide) hc⟩

@[simp] theorem valueOf_digits (n : Nat) : valueOf (digits n) = n :=
  Nat.ofDigitChars_ten_toDigits

theorem length_digits_le_iff {n k : Nat} (hk : 0 < k) : (digits n).length ≤ k ↔ n < 10 ^ k :=
  Nat.length_toDigits_le_iff (by decide) hk

/-- Only zero is written with a zero in front. -/
theorem head?_digits_ne_zero {n : Nat} (hn : 0 < n) : (digits n).head? ≠ some '0' := by
  induction n using Nat.strong_induction_on with
  | _ n ih =>
    unfold digits
    by_cases hsmall : n < 10
    · rw [Nat.toDigits_of_lt_base hsmall]
      interval_cases n <;> decide
    · obtain ⟨c, cs, hdigits⟩ := List.exists_cons_of_ne_nil (isRun_digits (n / 10)).ne_nil
      have hfirst := ih (n / 10) (by omega) (by omega)
      have happend : Nat.toDigits 10 n = digits (n / 10) ++ [(n % 10).digitChar] :=
        Nat.toDigits_of_base_le (by decide) (by omega)
      rw [hdigits] at hfirst happend
      rwa [happend]

/-! ## Padding -/

theorem padded_eq (width n : Nat) :
    padded width n = List.replicate (width - (digits n).length) '0' ++ digits n := rfl

theorem isRun_padded (width n : Nat) : IsRun (padded width n) := by
  have hdigits := isRun_digits n
  refine ⟨by simp [padded_eq, hdigits.ne_nil], fun c hc => ?_⟩
  rw [padded_eq, List.mem_append] at hc
  rcases hc with hzero | hdigit
  · rw [List.eq_of_mem_replicate hzero]
    rfl
  · exact hdigits.isDigit c hdigit

@[simp] theorem valueOf_padded (width n : Nat) : valueOf (padded width n) = n := by
  have hdigits := valueOf_digits n
  unfold valueOf at hdigits ⊢
  simp [padded_eq, Nat.ofDigitChars_append, Nat.ofDigitChars_replicate_zero, hdigits]

theorem length_padded {width n : Nat} (hwidth : 0 < width) (h : n < 10 ^ width) :
    (padded width n).length = width := by
  have hle := (length_digits_le_iff hwidth).mpr h
  simp only [padded_eq, List.length_append, List.length_replicate]
  omega

/-! ## Runs of digits at the start of a text -/

variable {run rest cs : List Char} {limit bound value : Nat} {overflow : ReadFault}

theorem takeWhile_isDigit_append (hrun : ∀ c ∈ run, c.isDigit = true) (hrest : NoDigitHead rest) :
    (run ++ rest).takeWhile Char.isDigit = run := by
  rw [List.takeWhile_append_of_pos hrun]
  cases rest with
  | nil => simp
  | cons c rest => simp [noDigitHead_cons.mp hrest]

/-- A run ends where the limit or the text that follows it says so. -/
theorem digitRun_run_append (hrun : ∀ c ∈ run, c.isDigit = true) (hlimit : run.length ≤ limit)
    (hend : run.length = limit ∨ NoDigitHead rest) :
    digitRun limit (run ++ rest) = (run, rest) := by
  have htake : ((run ++ rest).take limit).takeWhile Char.isDigit = run := by
    rw [List.take_append, List.take_of_length_le hlimit]
    apply takeWhile_isDigit_append hrun
    rcases hend with heq | hrest
    · simp [heq]
    · intro c hc
      cases rest with
      | nil => simp at hc
      | cons d rest =>
        cases hroom : limit - run.length with
        | zero => simp [hroom] at hc
        | succ room => exact hrest c (by simpa [hroom] using hc)
  unfold digitRun
  dsimp only
  rw [htake, List.drop_left]

/-! ## Integers -/

theorem le_ofDigitChars (cs : List Char) (value : Nat) : value ≤ Nat.ofDigitChars 10 cs value := by
  rw [Nat.ofDigitChars_eq_ofDigitChars_zero]
  have hpow : 0 < 10 ^ cs.length := Nat.pow_pos (by decide)
  have hle := Nat.le_mul_of_pos_left value hpow
  omega

/-- Digits are read into their number when it stays below the bound. -/
theorem readDigits_of_lt (hdigits : ∀ c ∈ cs, c.isDigit = true)
    (hlt : Nat.ofDigitChars 10 cs value < bound) :
    readDigits bound overflow value cs = .ok (Nat.ofDigitChars 10 cs value) := by
  induction cs generalizing value with
  | nil => rfl
  | cons c cs ih =>
    obtain ⟨hc, hcs⟩ := List.forall_mem_cons.mp hdigits
    have hnext : value * 10 + (c.toNat - '0'.toNat) = 10 * value + (c.toNat - '0'.toNat) := by
      rw [Nat.mul_comm]
    rw [Nat.ofDigitChars_cons, ← hnext] at hlt ⊢
    have hbound := lt_of_le_of_lt (le_ofDigitChars cs _) hlt
    simp only [readDigits, hc, hbound, if_true, Bool.not_true, Bool.false_eq_true, if_false]
    exact ih hcs hlt

/-- A number without a sign is read by its digits. -/
theorem readInteger_of_isRun (hcs : IsRun cs) :
    readInteger cs =
      (readDigits 9223372036854775808 .tooLarge 0 cs).map Int.ofNat := by
  obtain ⟨hne, hdigits⟩ := hcs
  unfold readInteger
  split
  · exact (hne rfl).elim
  · exact absurd (hdigits '+' (by simp)) (by decide)
  · exact absurd (hdigits '-' (by simp)) (by decide)
  · exact absurd (hdigits '-' (by simp)) (by decide)
  · exact absurd (hdigits '+' (by simp)) (by decide)
  · rfl

/-- A minus sign in front of digits makes the number negative. -/
theorem readInteger_neg (hcs : IsRun cs) :
    readInteger ('-' :: cs) =
      (readDigits 9223372036854775809 .tooSmall 0 cs).map fun n => -(n : Int) := by
  obtain ⟨hne, -⟩ := hcs
  cases cs with
  | nil => exact (hne rfl).elim
  | cons c cs => rfl

/-- An integer of 64 bits is read back from its text. -/
theorem readInteger_signedDigits {i : Int} (hlow : -9223372036854775808 ≤ i)
    (hhigh : i < 9223372036854775808) : readInteger (signedDigits i) = .ok i := by
  have hvalue : Nat.ofDigitChars 10 (digits i.natAbs) 0 = i.natAbs := valueOf_digits i.natAbs
  have hrun := isRun_digits i.natAbs
  unfold signedDigits
  by_cases hneg : i < 0
  · rw [if_pos hneg, readInteger_neg hrun, readDigits_of_lt hrun.isDigit (by omega), hvalue]
    have hi : -(i.natAbs : Int) = i := by omega
    exact congrArg Except.ok hi
  · rw [if_neg hneg, readInteger_of_isRun hrun, readDigits_of_lt hrun.isDigit (by omega), hvalue]
    have hi : (i.natAbs : Int) = i := by omega
    exact congrArg Except.ok hi

end Almanac.Text
