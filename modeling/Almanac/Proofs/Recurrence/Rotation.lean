import Almanac.Recurrence.TimesOfDay
import Mathlib.Order.Basic

/-!
# Rotations of the times of day

The cursor keeps the times of day as a rotation of their ascending list: the times after a given
one come first, the others follow. Moving the first time to the end gives the rotation after that
time, so the first time of a rotation is always the next one of the day, or the first time of
another day when none is left.
-/

namespace Almanac.TimesOfDay

variable {ts : TimesOfDay} {t u v : TimeOfDay} {before after rest : List TimeOfDay}

/-- The times after one of them and the times up to it are what follows and precedes it in the
ascending list. -/
theorem rotatedAfter_of_toList (h : ts.toList = before ++ u :: after) :
    ts.rotatedAfter u = after ++ (before ++ [u]) := by
  have hsorted := ts.sorted
  rw [h, List.pairwise_append, List.pairwise_cons] at hsorted
  obtain ⟨-, ⟨hafter, -⟩, hbefore⟩ := hsorted
  have hlow : ∀ v ∈ before, v.key < u.key := fun v hv => hbefore v hv u List.mem_cons_self
  have hhigh : ∀ v ∈ after, u.key < v.key := hafter
  have hlater : ts.toList.filter (u < ·) = after := by
    have hnone : before.filter (u < ·) = [] := by
      apply List.filter_eq_nil_iff.mpr
      intro v hv
      have hvu := hlow v hv
      rw [decide_eq_true_eq, TimeOfDay.lt_iff]
      omega
    have hself : ¬decide (u < u) = true := by
      rw [decide_eq_true_eq, TimeOfDay.lt_iff]
      omega
    have hall : after.filter (u < ·) = after :=
      List.filter_eq_self.mpr fun v hv => decide_eq_true (hhigh v hv)
    rw [h, List.filter_append, hnone, List.nil_append, List.filter_cons, if_neg hself, hall]
  have hearlier : ts.toList.filter (· ≤ u) = before ++ [u] := by
    have hall : before.filter (· ≤ u) = before :=
      List.filter_eq_self.mpr fun v hv => decide_eq_true (Nat.le_of_lt (hlow v hv))
    have hself : decide (u ≤ u) = true := decide_eq_true (Nat.le_refl _)
    have hnone : after.filter (· ≤ u) = [] := by
      apply List.filter_eq_nil_iff.mpr
      intro v hv
      have huv := hhigh v hv
      rw [decide_eq_true_eq, TimeOfDay.le_iff]
      omega
    rw [h, List.filter_append, hall, List.filter_cons, if_pos hself, hnone]
  rw [rotatedAfter, hlater, hearlier]

/-- Ascending times are those up to any time, followed by those after it. -/
theorem filter_append_filter {us : List TimeOfDay} (hsorted : us.Pairwise (· < ·))
    (t : TimeOfDay) : us.filter (· ≤ t) ++ us.filter (t < ·) = us := by
  induction us with
  | nil => rfl
  | cons u rest ih =>
    obtain ⟨hu, hrest⟩ := List.pairwise_cons.mp hsorted
    by_cases hle : u ≤ t
    · have hnot : ¬decide (t < u) = true := by
        rw [TimeOfDay.le_iff] at hle
        rw [decide_eq_true_eq, TimeOfDay.lt_iff]
        omega
      rw [List.filter_cons, if_pos (decide_eq_true hle), List.filter_cons, if_neg hnot,
        List.cons_append, ih hrest]
    · have hlater : ∀ v ∈ u :: rest, t.key < v.key := by
        intro v hv
        rw [TimeOfDay.le_iff] at hle
        rcases List.mem_cons.mp hv with rfl | hv
        · omega
        · have huv := hu v hv
          rw [TimeOfDay.lt_iff] at huv
          omega
      have hnone : (u :: rest).filter (· ≤ t) = [] := by
        apply List.filter_eq_nil_iff.mpr
        intro v hv
        have htv := hlater v hv
        rw [decide_eq_true_eq, TimeOfDay.le_iff]
        omega
      rw [hnone, List.nil_append, List.filter_eq_self.mpr]
      exact fun v hv => decide_eq_true (hlater v hv)

theorem toList_eq_append (ts : TimesOfDay) (t : TimeOfDay) :
    ts.toList = ts.toList.filter (· ≤ t) ++ ts.toList.filter (t < ·) :=
  (filter_append_filter ts.sorted t).symm

/-- Where a rotation starts in the ascending list. -/
theorem toList_of_rotatedAfter (h : ts.rotatedAfter t = u :: rest) :
    ∃ before after, ts.toList = before ++ u :: after ∧ rest = after ++ before := by
  have hlist := ts.toList_eq_append t
  unfold rotatedAfter at h
  cases hlater : ts.toList.filter (t < ·) with
  | nil =>
    rw [hlater, List.nil_append] at h
    rw [hlater, h, List.append_nil] at hlist
    exact ⟨[], rest, hlist, by rw [List.append_nil]⟩
  | cons v after =>
    rw [hlater, List.cons_append, List.cons.injEq] at h
    obtain ⟨rfl, rfl⟩ := h
    rw [hlater] at hlist
    exact ⟨_, after, hlist, rfl⟩

/-- Moving the first time of a rotation to its end gives the rotation after that time. -/
theorem rotatedAfter_tail (h : ts.rotatedAfter t = u :: rest) :
    rest ++ [u] = ts.rotatedAfter u := by
  obtain ⟨before, after, hlist, rfl⟩ := toList_of_rotatedAfter h
  rw [rotatedAfter_of_toList hlist, List.append_assoc]

/-- Moving the first time of all to the end gives the rotation after it. -/
theorem rotatedAfter_of_toList_cons (h : ts.toList = u :: rest) :
    rest ++ [u] = ts.rotatedAfter u := by
  have hsplit : ts.toList = [] ++ u :: rest := h
  exact (rotatedAfter_of_toList hsplit).symm

theorem exists_rotatedAfter (ts : TimesOfDay) (t : TimeOfDay) :
    ∃ u rest, u ∈ ts.toList ∧ ts.rotatedAfter t = u :: rest := by
  obtain ⟨v, hv⟩ := List.exists_mem_of_ne_nil _ ts.ne_nil
  obtain ⟨u, rest, hqueue⟩ :=
    List.exists_cons_of_ne_nil (List.ne_nil_of_mem (mem_rotatedAfter.mpr hv))
  refine ⟨u, rest, ?_, hqueue⟩
  rw [← mem_rotatedAfter, hqueue]
  exact List.mem_cons_self

theorem exists_toList (ts : TimesOfDay) : ∃ u rest, u ∈ ts.toList ∧ ts.toList = u :: rest := by
  obtain ⟨u, rest, hlist⟩ := List.exists_cons_of_ne_nil ts.ne_nil
  refine ⟨u, rest, ?_, hlist⟩
  rw [hlist]
  exact List.mem_cons_self

theorem hasAfter_iff : ts.hasAfter t = true ↔ ∃ v ∈ ts.toList, t < v := by
  simp [hasAfter]

theorem hasAfter_eq_false_iff : ts.hasAfter t = false ↔ ∀ v ∈ ts.toList, v ≤ t := by
  rw [← Bool.not_eq_true, hasAfter_iff]
  constructor
  · intro hnone v hv
    exact Nat.le_of_not_lt fun hlt => hnone ⟨v, hv, hlt⟩
  · intro hover hafter
    obtain ⟨v, hv, hlt⟩ := hafter
    exact Nat.not_lt_of_le (hover v hv) hlt

/-- No time comes before the first one of the ascending list. -/
theorem le_of_toList_cons (h : ts.toList = u :: rest) (hv : v ∈ ts.toList) : u ≤ v := by
  have hsorted := ts.sorted
  rw [h] at hsorted hv
  rcases List.mem_cons.mp hv with rfl | hv
  · exact Nat.le_refl _
  · exact Nat.le_of_lt ((List.pairwise_cons.mp hsorted).1 v hv)

/-- The first time of a rotation is the next one of the day, if one is left. -/
theorem head_le_of_lt (h : ts.rotatedAfter t = u :: rest) (hv : v ∈ ts.toList) (htv : t < v) :
    t < u ∧ u ≤ v := by
  have hmem : v ∈ ts.toList.filter (t < ·) := List.mem_filter.mpr ⟨hv, decide_eq_true htv⟩
  have hsorted : (ts.toList.filter (t < ·)).Pairwise (· < ·) := ts.sorted.filter _
  unfold rotatedAfter at h
  cases hlater : ts.toList.filter (t < ·) with
  | nil =>
    rw [hlater] at hmem
    cases hmem
  | cons w after =>
    rw [hlater, List.cons_append, List.cons.injEq] at h
    obtain ⟨rfl, -⟩ := h
    have hw : w ∈ ts.toList.filter (t < ·) := by
      rw [hlater]
      exact List.mem_cons_self
    refine ⟨of_decide_eq_true (List.mem_filter.mp hw).2, ?_⟩
    rw [hlater] at hmem hsorted
    rcases List.mem_cons.mp hmem with rfl | hmem
    · exact Nat.le_refl _
    · exact Nat.le_of_lt ((List.pairwise_cons.mp hsorted).1 v hmem)

/-- A rotation that starts over starts with the first time of all, and the time it starts after
is the last one. -/
theorem head_le_of_ge (h : ts.rotatedAfter t = u :: rest) (hut : u ≤ t) (hv : v ∈ ts.toList) :
    u ≤ v ∧ v ≤ t := by
  have hle : v ≤ t := by
    by_contra hgt
    rw [TimeOfDay.le_iff] at hgt hut
    have htv : t < v := TimeOfDay.lt_iff.mpr (by omega)
    have htu := (head_le_of_lt h hv htv).1
    rw [TimeOfDay.lt_iff] at htu
    omega
  have hnone : ts.toList.filter (t < ·) = [] := by
    apply List.filter_eq_nil_iff.mpr
    intro w hw hlt
    have htu := (head_le_of_lt h hw (of_decide_eq_true hlt)).1
    rw [TimeOfDay.lt_iff] at htu
    rw [TimeOfDay.le_iff] at hut
    omega
  have hlist := ts.toList_eq_append t
  rw [rotatedAfter, hnone, List.nil_append] at h
  rw [hnone, List.append_nil, h] at hlist
  exact ⟨le_of_toList_cons hlist hv, hle⟩

end Almanac.TimesOfDay
