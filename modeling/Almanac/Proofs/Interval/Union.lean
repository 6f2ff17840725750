import Almanac.Proofs.Interval.Canonical
import Mathlib.Data.List.Basic

/-!
# The highest union

The union sweeps the members within the limits from left to right. A run of the sweep spans the
interval from the lower bound of its first member to the bound that it reaches. Adding a member
that overlaps or touches the run keeps the span proper and extends what it covers by the member
alone; a member that does neither starts after the run has stopped, and so do all that follow.
Each run therefore becomes exactly one member of a canonical collection.
-/

namespace Almanac.Collection

open Almanac.Interval

variable {α : Type} [Ord α]

/-- The interval from the first member of a run to the bound that the run reaches. -/
def Run.span (r : Run α) : Interval α := ⟨r.first.lower, r.reach⟩

/-- A run with a proper span becomes that span. -/
theorem Run.merged_eq {r : Run α} (h : r.span.Proper) : r.merged = [r.span] := by
  have hok : ofBounds r.first.lower r.reach = .ok r.span := h.wellFormed.ofBounds_eq_ok
  rw [merged, hok]
  rfl

theorem sweepOrder_ne_gt_iff {a b : Interval α} :
    (sweepOrder a b != .gt) = true ↔ (sweepOrder a b).isLE := by
  rw [Ordering.isLE_iff_ne_gt, bne_iff_ne]

variable [Std.TransOrd α]

instance : Std.TransCmp (sweepOrder : Interval α → Interval α → Ordering) :=
  inferInstanceAs (Std.TransCmp (compareLex (compareOn Interval.lower) (compareOn Interval.upper)))

variable [Std.LawfulEqOrd α] {limits : Limits α} {c : Collection α} {i : Interval α} {p : Cut α}

/-- The lower bounds come from left to right. -/
def FromLeft (c : Collection α) : Prop := c.Pairwise fun i j => i.lower.cut ≤ j.lower.cut

theorem lower_le_of_sweepOrder {a b : Interval α} (h : (sweepOrder a b).isLE) :
    a.lower.cut ≤ b.lower.cut := by
  apply Bound.cut_le_of_compare_ne_gt
  intro hgt
  rw [sweepOrder, hgt] at h
  exact Bool.false_ne_true h

/-! ## The members of the sweep -/

theorem fromLeft_swept : FromLeft (swept limits c) := by
  have hsorted : (swept limits c).Pairwise fun a b => (sweepOrder a b != .gt) = true := by
    refine List.pairwise_mergeSort ?_ ?_ _
    · intro a b d hab hbd
      rw [sweepOrder_ne_gt_iff] at hab hbd ⊢
      exact Std.TransCmp.isLE_trans hab hbd
    · intro a b
      have hswap : sweepOrder b a = (sweepOrder a b).swap := Std.OrientedCmp.eq_swap
      rw [hswap]
      cases sweepOrder a b <;> rfl
  exact hsorted.imp fun h => lower_le_of_sweepOrder (sweepOrder_ne_gt_iff.mp h)

omit [Std.TransOrd α] [Std.LawfulEqOrd α] in
theorem mem_swept :
    i ∈ swept limits c ↔ (∃ j ∈ c, j.clipped limits = i) ∧ i.isEmpty = false := by
  rw [swept, List.mem_mergeSort, List.mem_filter, List.mem_map, Bool.not_eq_true']

theorem proper_of_mem_swept (hlimits : limits.InForce) (hc : ∀ j ∈ c, j.WellFormed)
    (hi : i ∈ swept limits c) : i.Proper := by
  obtain ⟨⟨j, hj, rfl⟩, hempty⟩ := mem_swept.mp hi
  exact ⟨wellFormed_clipped hlimits (hc j hj).sided, hempty⟩

/-- The sweep covers what the collection covers within the limits. -/
theorem covers_swept (hlimits : limits.InForce) (hc : ∀ j ∈ c, j.WellFormed) :
    Covers (swept limits c) p ↔ Covers c p ∧ (whole limits).Covers p := by
  constructor
  · intro hboth
    obtain ⟨i, hi, hp⟩ := hboth
    obtain ⟨⟨j, hj, rfl⟩, -⟩ := mem_swept.mp hi
    obtain ⟨hjp, hwhole⟩ := (covers_clipped hlimits (hc j hj)).mp hp
    exact ⟨⟨j, hj, hjp⟩, hwhole⟩
  · intro hboth
    obtain ⟨⟨j, hj, hjp⟩, hwhole⟩ := hboth
    have hp := (covers_clipped hlimits (hc j hj)).mpr ⟨hjp, hwhole⟩
    have hempty : (j.clipped limits).isEmpty = false := isEmpty_eq_false_iff_exists.mpr ⟨p, hp⟩
    exact ⟨j.clipped limits, mem_swept.mpr ⟨⟨j, hj, rfl⟩, hempty⟩, hp⟩

/-! ## One step of the sweep -/

namespace Run

variable {r : Run α}

theorem joins_iff : r.joins i = true ↔ i.lower.cut ≤ r.span.upper.cut := by
  rw [joins, bne_iff_ne, Bound.cutOrder_ne_gt_iff]
  rfl

omit [Std.TransOrd α] [Std.LawfulEqOrd α] in
theorem span_add : (r.add i).span = ⟨r.span.lower, i.upper.max r.span.upper⟩ := rfl

theorem proper_span_add (hr : r.span.Proper) (hi : i.Proper) : (r.add i).span.Proper := by
  apply proper_of_cut_lt
  · exact hr.wellFormed.valid_lower
  · exact Bound.max_induction hi.wellFormed.valid_upper hr.wellFormed.valid_upper
  · exact hr.wellFormed.side_lower
  · exact Bound.max_induction (p := (·.side = .upper)) hi.wellFormed.side_upper
      hr.wellFormed.side_upper
  · rw [span_add, Bound.cut_max]
    exact hr.cut_lt.trans_le le_sup_right

/-- A member that starts within the reach of a run adds what it covers to the span. -/
theorem covers_span_add (hlower : r.span.lower.cut ≤ i.lower.cut) (hjoins : r.joins i = true) :
    (r.add i).span.Covers p ↔ r.span.Covers p ∨ i.Covers p := by
  have hreach := joins_iff.mp hjoins
  rw [span_add, Interval.Covers, Bound.cut_max, lt_sup_iff]
  constructor
  · intro hboth
    obtain ⟨hp, hupper⟩ := hboth
    rcases lt_or_ge p r.span.upper.cut with hspan | hspan
    · exact Or.inl ⟨hp, hspan⟩
    · have hi : p < i.upper.cut := hupper.resolve_right hspan.not_gt
      exact Or.inr ⟨hreach.trans hspan, hi⟩
  · intro hcase
    rcases hcase with ⟨hp, hupper⟩ | ⟨hp, hupper⟩
    · exact ⟨hp, Or.inr hupper⟩
    · exact ⟨hlower.trans hp, Or.inl hupper⟩

end Run

/-! ## The whole sweep -/

/-- The spans of the runs are the members of a canonical collection that starts no earlier than
the first run. -/
theorem canonical_spans (run : Run α) {is : List (Interval α)} (hrun : run.span.Proper)
    (his : ∀ i ∈ is, i.Proper) (hsorted : FromLeft (run.span :: is)) :
    Canonical ((runsFrom run is).map Run.span) ∧
      ∀ j ∈ (runsFrom run is).map Run.span, run.span.lower.cut ≤ j.lower.cut := by
  induction is generalizing run with
  | nil => exact ⟨.singleton hrun, by simp [runsFrom]⟩
  | cons i rest ih =>
    have hi : i.Proper := his i List.mem_cons_self
    have hrest : ∀ k ∈ rest, k.Proper := fun k hk => his k (List.mem_cons_of_mem i hk)
    obtain ⟨hfirst, htail⟩ := List.pairwise_cons.mp hsorted
    unfold runsFrom
    split
    · have hlater : ∀ k ∈ rest, (run.add i).span.lower.cut ≤ k.lower.cut :=
        fun k hk => hfirst k (List.mem_cons_of_mem i hk)
      exact ih (run.add i) (Run.proper_span_add hrun hi) hrest
        (List.pairwise_cons.mpr ⟨hlater, htail.of_cons⟩)
    · next hapart =>
      rw [Run.joins_iff, not_le] at hapart
      obtain ⟨hcanonical, hlater⟩ := ih ⟨i, [], i.upper⟩ hi hrest htail
      refine ⟨hcanonical.cons hrun fun j hj => hapart.trans_le (hlater j hj), ?_⟩
      intro j hj
      rcases List.mem_cons.mp hj with rfl | hj
      · exact le_rfl
      · exact (hfirst i List.mem_cons_self).trans (hlater j hj)

/-- The spans of the runs cover what the members cover. -/
theorem covers_spans (run : Run α) {is : List (Interval α)}
    (hsorted : FromLeft (run.span :: is)) :
    Covers ((runsFrom run is).map Run.span) p ↔ Covers (run.span :: is) p := by
  induction is generalizing run with
  | nil => rfl
  | cons i rest ih =>
    obtain ⟨hfirst, htail⟩ := List.pairwise_cons.mp hsorted
    unfold runsFrom
    split
    · next hjoins =>
      have hlater : ∀ k ∈ rest, (run.add i).span.lower.cut ≤ k.lower.cut :=
        fun k hk => hfirst k (List.mem_cons_of_mem i hk)
      rw [ih (run.add i) (List.pairwise_cons.mpr ⟨hlater, htail.of_cons⟩), covers_cons, covers_cons,
        covers_cons, Run.covers_span_add (hfirst i List.mem_cons_self) hjoins, or_assoc]
    · rw [List.map_cons, covers_cons, covers_cons, ih ⟨i, [], i.upper⟩ htail]
      rfl

/-- The highest union is canonical and covers what the members cover within the limits. -/
theorem union_highest_spec (hlimits : limits.InForce) (hc : ∀ i ∈ c, i.WellFormed) :
    Canonical (union limits .highest c) ∧
      ∀ p, Covers (union limits .highest c) p ↔ Covers c p ∧ (whole limits).Covers p := by
  have hsorted : FromLeft (swept limits c) := fromLeft_swept
  have hproper : ∀ i ∈ swept limits c, i.Proper := fun i => proper_of_mem_swept hlimits hc
  have hcovers : ∀ p, Covers (swept limits c) p ↔ Covers c p ∧ (whole limits).Covers p :=
    fun p => covers_swept hlimits hc
  simp only [← hcovers]
  unfold union
  cases hswept : swept limits c with
  | nil => exact ⟨.nil, fun p => Iff.rfl⟩
  | cons i rest =>
    rw [hswept] at hsorted hproper
    have hi : i.Proper := hproper i List.mem_cons_self
    have hrest : ∀ k ∈ rest, k.Proper := fun k hk => hproper k (List.mem_cons_of_mem i hk)
    obtain ⟨hcanonical, -⟩ := canonical_spans ⟨i, [], i.upper⟩ hi hrest hsorted
    have hmerged : (runs (i :: rest)).flatMap Run.merged = (runs (i :: rest)).map Run.span := by
      rw [← List.flatMap_pure_eq_map]
      apply List.flatMap_congr
      intro run hrun
      exact Run.merged_eq (hcanonical.proper _ (List.mem_map_of_mem hrun))
    refine ⟨hmerged ▸ hcanonical, fun p => ?_⟩
    rw [hmerged]
    exact covers_spans ⟨i, [], i.upper⟩ hsorted

/-- For limits in force and well-formed members, the highest union consists of well-formed
intervals that are not empty, come from left to right and neither overlap nor touch, and it
contains the values within the limits that some member contains. -/
theorem canonical_union_highest (hlimits : limits.InForce) (hc : ∀ i ∈ c, i.WellFormed) :
    Canonical (union limits .highest c) ∧
      ∀ v, contains (union limits .highest c) v = true ↔
        contains c v = true ∧ (whole limits).contains v = true := by
  obtain ⟨hcanonical, hcovers⟩ := union_highest_spec hlimits hc
  refine ⟨hcanonical, fun v => ?_⟩
  have hproper : ∀ i ∈ union limits .highest c, i.WellFormed :=
    fun i hi => (hcanonical.proper i hi).wellFormed
  rw [contains_iff hproper, contains_iff hc, hlimits.proper_whole.wellFormed.contains_iff]
  exact hcovers (.before v)

section Sample

/-- The limits `[0, 9)`. -/
def digits : Limits Int := ⟨.lowerAt .inclusive 0, .upperAt .exclusive 9⟩

/-- The intervals `(5, 7]`, `(3, 3)`, `(-inf, 2)`, `[2, 5)` and `(7, +inf)`. -/
def ragged : Collection Int :=
  [⟨.lowerAt .exclusive 5, .upperAt .inclusive 7⟩, .empty 3, ⟨.bottom, .upperAt .exclusive 2⟩,
    ⟨.lowerAt .inclusive 2, .upperAt .exclusive 5⟩, ⟨.lowerAt .exclusive 7, .top⟩]

theorem inForce_digits : digits.InForce := by
  have hlowest : (Bound.lowerAt .inclusive (0 : Int)).Valid := trivial
  have hupmost : (Bound.upperAt .exclusive (9 : Int)).Valid := trivial
  exact .configured hlowest hupmost rfl

theorem wellFormed_of_mem_ragged : ∀ i ∈ ragged, i.WellFormed := by
  simp only [ragged, List.forall_mem_cons, List.not_mem_nil, false_implies, implies_true]
  refine ⟨?_, wellFormed_empty 3, ?_, ?_, ?_, trivial⟩
  all_goals exact ⟨by trivial, by trivial, rfl, rfl, Or.inl rfl⟩

theorem canonical_union_of_ragged :
    digits.InForce ∧ (∀ i ∈ ragged, i.WellFormed) ∧
      Canonical (union digits .highest ragged) ∧
      contains (union digits .highest ragged) 0 = true ∧
      contains (union digits .highest ragged) 5 = false ∧
      contains (union digits .highest ragged) 7 = true ∧
      contains (union digits .highest ragged) 9 = false := by
  obtain ⟨hcanonical, hcontains⟩ :=
    canonical_union_highest inForce_digits wellFormed_of_mem_ragged
  refine ⟨inForce_digits, wellFormed_of_mem_ragged, hcanonical, ?_, ?_, ?_, ?_⟩
  · exact (hcontains 0).mpr (by decide)
  · exact Bool.eq_false_iff.mpr (mt (hcontains 5).mp (by decide))
  · exact (hcontains 7).mpr (by decide)
  · exact Bool.eq_false_iff.mpr (mt (hcontains 9).mp (by decide))

end Sample

end Almanac.Collection
