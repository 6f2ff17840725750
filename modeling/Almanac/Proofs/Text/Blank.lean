import Almanac.Proofs.Text.Digits
import Almanac.Text.Blank
import Mathlib.Data.List.TakeWhile

/-!
# Blanks around a text

Blanks are taken off both ends of a text. A text stays as it is when there are none, and a text
without any is found again between blanks.
-/

namespace Almanac.Text

variable {cs front back : List Char} {first last : Char}

theorem isBlank_of_isDigit {c : Char} (h : c.isDigit = true) : isBlank c = false := by
  simp only [Char.isDigit, Bool.and_eq_true, decide_eq_true_eq, UInt32.le_iff_toNat_le] at h
  have hlow : 48 ≤ c.toNat := h.1
  have hhigh : c.toNat ≤ 57 := h.2
  simp only [isBlank, Bool.or_eq_false_iff, Bool.and_eq_false_iff, decide_eq_false_iff_not,
    beq_eq_false_iff_ne]
  omega

theorem trimStart_cons {c : Char} (h : isBlank c = false) (cs : List Char) :
    trimStart (c :: cs) = c :: cs := by
  simp [trimStart, h]

theorem trimStart_run {run : List Char} (h : IsRun run) (rest : List Char) :
    trimStart (run ++ rest) = run ++ rest := by
  obtain ⟨c, cs, rfl⟩ := List.exists_cons_of_ne_nil h.ne_nil
  exact trimStart_cons (isBlank_of_isDigit (h.isDigit c List.mem_cons_self)) _

theorem trimEnd_append_singleton (h : isBlank last = false) (cs : List Char) :
    trimEnd (cs ++ [last]) = cs ++ [last] := by
  simp [trimEnd, h]

/-- A text with no blank at either end stays as it is. -/
theorem trim_eq_self (hfirst : cs.head? = some first) (hfirstBlank : isBlank first = false)
    (hlast : cs.getLast? = some last) (hlastBlank : isBlank last = false) : trim cs = cs := by
  obtain ⟨tail, rfl⟩ := List.head?_eq_some_iff.mp hfirst
  obtain ⟨init, hinit⟩ := List.getLast?_eq_some_iff.mp hlast
  rw [trim, trimStart_cons hfirstBlank, hinit, trimEnd_append_singleton hlastBlank]

theorem trim_cons_ne_nil (h : isBlank first = false) (cs : List Char) :
    trim (first :: cs) ≠ [] := by
  rw [trim, trimStart_cons h]
  intro hnil
  have hall := List.dropWhile_eq_nil_iff.mp (List.reverse_eq_nil_iff.mp hnil)
  rw [hall first (by simp)] at h
  cases h

/-- A text without blanks is found again between blanks. -/
theorem trim_surrounded (hne : cs ≠ []) (hcs : ∀ c ∈ cs, isBlank c = false)
    (hfront : ∀ c ∈ front, isBlank c = true) (hback : ∀ c ∈ back, isBlank c = true) :
    trim (front ++ (cs ++ back)) = cs := by
  obtain ⟨c, tail, rfl⟩ := List.exists_cons_of_ne_nil hne
  have hstart : trimStart (front ++ (c :: tail ++ back)) = c :: tail ++ back := by
    rw [trimStart, List.dropWhile_append_of_pos hfront]
    exact trimStart_cons (hcs c List.mem_cons_self) _
  have hreverse : (c :: tail).reverse.dropWhile isBlank = (c :: tail).reverse := by
    obtain ⟨last, init, hlast⟩ := List.exists_cons_of_ne_nil (List.reverse_ne_nil_iff.mpr hne)
    have hmem : last ∈ c :: tail := List.mem_reverse.mp (hlast ▸ List.mem_cons_self)
    rw [hlast, List.dropWhile_cons_of_neg (by simp [hcs last hmem])]
  have hback' : ∀ c ∈ back.reverse, isBlank c = true := fun c hc =>
    hback c (List.mem_reverse.mp hc)
  rw [trim, hstart, trimEnd, List.reverse_append, List.dropWhile_append_of_pos hback', hreverse,
    List.reverse_reverse]

end Almanac.Text
