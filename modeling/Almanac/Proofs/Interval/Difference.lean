import Almanac.Proofs.Interval.Clipping
import Almanac.Proofs.Interval.Intersection
import Mathlib.Algebra.Order.BigOperators.Group.List

/-!
# The difference of two intervals

A union has no more members than the collection that it is formed from, and between them, before
them and after them there is one gap more. So at most two gaps lie around one interval. The
difference intersects them with another interval, which therefore plays the part of the limits of
a domain: it leaves a canonical collection of them. Together with the intersection they cover the
interval again, and the highest union depends on nothing else.
-/

namespace Almanac

namespace Collection

variable {α : Type} [Ord α]

/-! ## How many members there are -/

theorem length_runsFrom_le (run : Run α) (is : List (Interval α)) :
    (runsFrom run is).length ≤ is.length + 1 := by
  induction is generalizing run with
  | nil => exact le_rfl
  | cons i rest ih =>
    unfold runsFrom
    split
    · exact (ih (run.add i)).trans (Nat.le_succ _)
    · exact Nat.succ_le_succ (ih ⟨i, [], i.upper⟩)

theorem length_runs_le (is : List (Interval α)) : (runs is).length ≤ is.length := by
  cases is with
  | nil => exact le_rfl
  | cons i rest => exact length_runsFrom_le ⟨i, [], i.upper⟩ rest

/-- A union has at most one member for each one of the collection. -/
theorem length_union_highest_le (limits : Limits α) (c : Collection α) :
    (union limits .highest c).length ≤ c.length := by
  have hmerged : ∀ n ∈ (runs (swept limits c)).map fun run => run.merged.length, n ≤ 1 := by
    intro n hn
    obtain ⟨run, -, rfl⟩ := List.mem_map.mp hn
    unfold Run.merged
    cases (Interval.ofBounds run.first.lower run.reach).toOption <;> simp
  calc (union limits .highest c).length
      = ((runs (swept limits c)).map fun run => run.merged.length).sum := List.length_flatMap
    _ ≤ (runs (swept limits c)).length := by simpa using List.sum_le_card_nsmul _ _ hmerged
    _ ≤ (swept limits c).length := length_runs_le _
    _ ≤ c.length := by
      rw [swept, List.length_mergeSort]
      exact (List.length_filter_le _ _).trans_eq (List.length_map _)

/-- There is at most one gap more than there are intervals. -/
theorem length_gapsFrom_le (upmost : Bound α) (start : Option (Bound α))
    (is : List (Interval α)) : (gapsFrom upmost start is).length ≤ is.length + 1 := by
  induction is generalizing start with
  | nil =>
    cases start with
    | none => exact Nat.zero_le 1
    | some start =>
      unfold gapsFrom
      split
      · cases (Interval.ofBounds start upmost).toOption <;> simp
      · exact Nat.zero_le 1
  | cons i rest ih =>
    cases start with
    | none => exact (ih i.upper.reverse?).trans (Nat.le_succ _)
    | some start =>
      have hgap : (gapBefore start i.lower).length ≤ 1 := by
        unfold gapBefore
        split
        · cases i.lower.reverse?.bind fun stop => (Interval.ofBounds start stop).toOption <;> simp
        · exact Nat.zero_le 1
      have hrest := ih (i.upper.reverse?.map start.max)
      rw [gapsFrom_cons, List.length_append, List.length_cons]
      omega

theorem length_complement_le (limits : Limits α) (c : Collection α) :
    (complement limits c).length ≤ c.length + 1 :=
  (length_gapsFrom_le _ _ _).trans (Nat.succ_le_succ (length_union_highest_le limits c))

end Collection

namespace Interval

open Almanac.Collection (Canonical membersWithin covers_membersWithin complement_spec covers_append
  union_highest_congr)

variable {α : Type} [Ord α] [Std.TransOrd α] [Std.LawfulEqOrd α] {limits : Limits α}
  {a b : Interval α} {p : Cut α}

/-- A proper interval can be the limits of a domain. -/
theorem Proper.inForce (h : a.Proper) : Limits.InForce ⟨a.lower, a.upper⟩ := by
  have hsides : ¬(a.lower.side ≠ .lower ∨ a.upper.side ≠ .upper) := by
    simp [h.wellFormed.side_lower, h.wellFormed.side_upper]
  have horder : ¬a.lower.cutOrder a.upper ≠ .lt :=
    not_not.mpr (Bound.cutOrder_eq_lt_iff.mpr h.cut_lt)
  refine .configured h.wellFormed.valid_lower h.wellFormed.valid_upper ?_
  rw [Limits.ofBounds, if_neg hsides, if_neg horder]

/-- The difference is what an interval leaves of the gaps around another one, as limits would. -/
theorem difference_eq (hlimits : limits.InForce) (ha : a.Proper) (hb : b.WellFormed) :
    difference limits a b = membersWithin ⟨a.lower, a.upper⟩ (b.complement limits) := by
  have hgaps := (complement_spec hlimits (List.forall_mem_singleton.mpr hb)).1.proper
  rw [difference, membersWithin]
  congr 1
  exact List.map_congr_left fun i hi => intersection_comm ha.wellFormed (hgaps i hi).wellFormed

/-- The difference of two intervals is canonical and covers what the first one covers within the
limits and the second one does not. -/
theorem difference_spec (hlimits : limits.InForce) (ha : a.WellFormed) (hb : b.WellFormed) :
    Canonical (difference limits a b) ∧
      ∀ p, Collection.Covers (difference limits a b) p ↔
        (whole limits).Covers p ∧ a.Covers p ∧ ¬b.Covers p := by
  obtain ⟨hgaps, hcovers⟩ : Canonical (b.complement limits) ∧
      ∀ p, Collection.Covers (b.complement limits) p ↔
        (whole limits).Covers p ∧ ¬Collection.Covers [b] p :=
    complement_spec hlimits (List.forall_mem_singleton.mpr hb)
  rcases ha.proper_or_empty with hproper | ⟨v, rfl⟩
  · rw [difference_eq hlimits hproper hb]
    refine ⟨hgaps.membersWithin hproper.inForce, fun p => ?_⟩
    rw [covers_membersWithin hproper.inForce fun i hi => (hgaps.proper i hi).wellFormed]
    refine (and_congr_left' (hcovers p)).trans ?_
    rw [Collection.covers_singleton, and_assoc]
    exact and_congr_right' and_comm
  · have hnil : difference limits (empty v) b = [] := by
      refine List.filter_eq_nil_iff.mpr fun i hi => ?_
      obtain ⟨gap, hgap, rfl⟩ := List.mem_map.mp hi
      rw [Bool.not_eq_true', isEmpty_eq_false_iff_exists]
      intro hleft
      obtain ⟨p, hp⟩ := hleft
      have hboth := (covers_intersection ha (hgaps.proper gap hgap).wellFormed).mp hp
      exact not_covers_empty v p hboth.1
    rw [hnil]
    exact ⟨.nil, fun p => iff_of_false Collection.not_covers_nil
      fun hboth => not_covers_empty v p hboth.2.1⟩

/-- For limits in force and well-formed intervals, the difference has at most two members, which
are proper, come from left to right and neither overlap nor touch. It contains the values within
the limits that the first interval contains and the second one does not. Together with the
intersection it has the highest union of the first interval. -/
theorem difference_partitions (hlimits : limits.InForce) (ha : a.WellFormed) (hb : b.WellFormed) :
    (difference limits a b).length ≤ 2 ∧ Canonical (difference limits a b) ∧
      (∀ v, Collection.contains (difference limits a b) v = true ↔
        (whole limits).contains v = true ∧ a.contains v = true ∧ ¬b.contains v = true) ∧
      Collection.union limits .highest (difference limits a b ++ [a.intersection b]) =
        Collection.union limits .highest [a] := by
  obtain ⟨hcanonical, hcovers⟩ := difference_spec hlimits ha hb
  have hwell : ∀ i ∈ difference limits a b, i.WellFormed :=
    fun i hi => (hcanonical.proper i hi).wellFormed
  have hcommon : (a.intersection b).WellFormed := wellFormed_intersection ha.sided hb.sided
  refine ⟨?_, hcanonical, fun v => ?_, ?_⟩
  · calc (difference limits a b).length
        ≤ (b.complement limits).length :=
          (List.length_filter_le _ _).trans_eq (List.length_map _)
      _ ≤ 2 := Collection.length_complement_le limits [b]
  · rw [Collection.contains_iff hwell, hlimits.proper_whole.wellFormed.contains_iff,
      ha.contains_iff, hb.contains_iff]
    exact hcovers (.before v)
  · apply union_highest_congr hlimits
    · exact List.forall_mem_append.mpr ⟨hwell, List.forall_mem_singleton.mpr hcommon⟩
    · exact List.forall_mem_singleton.mpr ha
    · intro p hp
      rw [covers_append, hcovers, Collection.covers_singleton, Collection.covers_singleton,
        covers_intersection ha hb]
      by_cases hbp : b.Covers p <;> simp [hp, hbp]

/-- Within `[0, 9)`, the interval `(3, 5]` leaves 3 of `(-inf, 9]`, and takes 5 away. -/
theorem difference_partitions_digits :
    Collection.digits.InForce ∧
      (⟨.bottom, .upperAt .inclusive 9⟩ : Interval Int).WellFormed ∧
      (⟨.lowerAt .exclusive 3, .upperAt .inclusive 5⟩ : Interval Int).WellFormed ∧
      Canonical (difference Collection.digits ⟨.bottom, .upperAt .inclusive 9⟩
        ⟨.lowerAt .exclusive 3, .upperAt .inclusive 5⟩) ∧
      Collection.contains (difference Collection.digits ⟨.bottom, .upperAt .inclusive 9⟩
        ⟨.lowerAt .exclusive 3, .upperAt .inclusive 5⟩) 3 = true ∧
      Collection.contains (difference Collection.digits ⟨.bottom, .upperAt .inclusive 9⟩
        ⟨.lowerAt .exclusive 3, .upperAt .inclusive 5⟩) 5 = false := by
  have ha : (⟨.bottom, .upperAt .inclusive 9⟩ : Interval Int).WellFormed :=
    ⟨rfl, trivial, rfl, rfl, Or.inl rfl⟩
  have hb : (⟨.lowerAt .exclusive 3, .upperAt .inclusive 5⟩ : Interval Int).WellFormed :=
    ⟨trivial, trivial, rfl, rfl, Or.inl rfl⟩
  obtain ⟨-, hcanonical, hcontains, -⟩ := difference_partitions Collection.inForce_digits ha hb
  refine ⟨Collection.inForce_digits, ha, hb, hcanonical, ?_, ?_⟩
  · exact (hcontains 3).mpr (by decide)
  · exact Bool.eq_false_iff.mpr (mt (hcontains 5).mp (by decide))

end Interval

end Almanac
