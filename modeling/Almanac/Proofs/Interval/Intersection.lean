import Almanac.Interval.Collection
import Almanac.Proofs.Interval.Coverage
import Mathlib.Algebra.Order.Field.Basic
import Mathlib.Algebra.Order.Field.Rat
import Mathlib.Data.List.Induction
import Mathlib.Order.Max

/-!
# What intervals have in common

The intersection of a collection folds its members into what the limits leave. What has been
gathered covers the cuts that the limits and all members so far cover; once it covers none, it
covers none for good. Its lower bound also keeps the greatest of their lower values, whether or
not something is left, so an empty intersection lies at that value and no order of the members
shows in it.

Two intervals intersect when they cover a cut in common. A value lies at that cut only if the
line of values has no gap there, as on a dense line without a first and a last value.
-/

namespace Almanac

/-! ## Values and cuts -/

/-- There is a value between any two, and none of them is the first or the last one. -/
structure IsDenseLine (α : Type) [Ord α] : Prop where
  nonempty : Nonempty α
  exists_before (v : α) : ∃ u, compare u v = .lt
  exists_after (v : α) : ∃ w, compare v w = .lt
  exists_between {u w : α} (h : compare u w = .lt) : ∃ v, compare u v = .lt ∧ compare v w = .lt

theorem isDenseLine {α : Type} [LinearOrder α] [DenselyOrdered α] [NoMinOrder α] [NoMaxOrder α]
    [hnonempty : Nonempty α] : IsDenseLine α := by
  refine ⟨hnonempty, fun v => ?_, fun v => ?_, fun {u w} h => ?_⟩
  · obtain ⟨u, hu⟩ := exists_lt v
    exact ⟨u, compare_lt_iff_lt.mpr hu⟩
  · obtain ⟨w, hw⟩ := exists_gt v
    exact ⟨w, compare_lt_iff_lt.mpr hw⟩
  · obtain ⟨v, huv, hvw⟩ := exists_between (compare_lt_iff_lt.mp h)
    exact ⟨v, compare_lt_iff_lt.mpr huv, compare_lt_iff_lt.mpr hvw⟩

variable {α : Type} [Ord α] [Std.TransOrd α] [Std.LawfulEqOrd α]

/-- On a dense line a value lies between any two cuts. -/
theorem IsDenseLine.exists_between_cuts (hdense : IsDenseLine α) {p q : Cut α} (h : p < q) :
    ∃ v, p ≤ .before v ∧ .before v < q := by
  cases p with
  | start =>
    cases q with
    | start => exact absurd h (lt_irrefl _)
    | before w =>
      obtain ⟨u, hu⟩ := hdense.exists_before w
      exact ⟨u, Cut.start_le _, Cut.before_lt_before.mpr hu⟩
    | after w => exact ⟨w, Cut.start_le _, Cut.before_lt_after.mpr (by simp)⟩
    | stop =>
      obtain ⟨v⟩ := hdense.nonempty
      exact ⟨v, Cut.start_le _, Cut.before_lt_stop v⟩
  | before u => exact ⟨u, le_rfl, h⟩
  | after u =>
    cases q with
    | start => exact absurd h (Cut.start_le _).not_gt
    | before w =>
      obtain ⟨v, huv, hvw⟩ := hdense.exists_between (Cut.after_le_before.mp h.le)
      exact ⟨v, Cut.after_le_before.mpr huv, Cut.before_lt_before.mpr hvw⟩
    | after w =>
      obtain ⟨v, huv, hvw⟩ := hdense.exists_between (Cut.after_lt_after.mp h)
      exact ⟨v, Cut.after_le_before.mpr huv, Cut.before_lt_after.mpr (hvw ▸ nofun)⟩
    | stop =>
      obtain ⟨v, hv⟩ := hdense.exists_after u
      exact ⟨v, Cut.after_le_before.mpr hv, Cut.before_lt_stop v⟩
  | stop => exact absurd h (Cut.le_stop _).not_gt

namespace Cut

omit [Ord α] [Std.TransOrd α] [Std.LawfulEqOrd α] in
/-- The cut before the value, if the given one lies after it. -/
def floor : Cut α → Cut α
  | after v => before v
  | p => p

theorem floor_le (p : Cut α) : p.floor ≤ p := by
  cases p with
  | after v => exact (before_lt_after.mpr (by simp)).le
  | _ => exact le_rfl

theorem floor_mono : Monotone (floor : Cut α → Cut α) := by
  intro p q hpq
  cases q with
  | after w =>
    have hbefore : ∀ v, before v ≤ p → before v ≤ before w := fun v hv =>
      before_le_before.mpr (before_lt_after.mp ((hv.trans hpq).lt_of_ne nofun))
    cases p with
    | start => exact start_le _
    | before v => exact hbefore v le_rfl
    | after v => exact hbefore v (floor_le (after v))
    | stop => exact absurd (le_antisymm hpq (le_stop _)) nofun
  | _ => exact (floor_le p).trans hpq

end Cut

omit [Ord α] [Std.TransOrd α] [Std.LawfulEqOrd α] in
theorem Bound.floor_cut {b : Bound α} {v : α} (h : b.value = .finite v) :
    b.cut.floor = .before v := by
  obtain ⟨side, direction, value⟩ := b
  cases h
  cases side <;> cases direction <;> rfl

namespace Interval

variable {a b w m n i : Interval α} {c d : List (Interval α)}

/-! ## Two intervals -/

/-- A well-formed interval is proper or the empty one at a value. -/
theorem WellFormed.proper_or_empty (h : i.WellFormed) : i.Proper ∨ ∃ v, i = empty v := by
  rcases lt_or_ge i.lower.cut i.upper.cut with hlt | hge
  · exact Or.inl ⟨h, isEmpty_eq_false_iff.mpr hlt⟩
  · obtain ⟨⟨side, direction, value⟩, ⟨side', direction', value'⟩⟩ := i
    obtain ⟨hlower, hupper, hsideLower, hsideUpper, horder⟩ := h
    dsimp only at hsideLower hsideUpper horder
    subst hsideLower hsideUpper
    rcases horder with hlt | ⟨heq, rfl⟩
    · have hcut : Bound.cutOrder ⟨.lower, direction, value⟩ ⟨.upper, direction', value'⟩ = .lt := by
        rw [Bound.cutOrder, hlt]
        rfl
      exact absurd (Bound.cutOrder_eq_lt_iff.mp hcut) hge.not_gt
    · cases value <;> cases value' <;> try cases heq
      · exact hupper.elim
      · next u v =>
        obtain rfl : u = v := Std.LawfulEqOrd.eq_of_compare heq
        cases direction with
        | exclusive => exact Or.inr ⟨u, rfl⟩
        | inclusive => exact absurd (Cut.before_lt_after.mpr (by simp)) hge.not_gt
      · exact hlower.elim

/-- A well-formed interval is determined by the cuts that it covers and by its lower value. -/
theorem WellFormed.eq_of_covers_iff (hm : m.WellFormed) (hn : n.WellFormed)
    (hcovers : ∀ p, m.Covers p ↔ n.Covers p)
    (hfloor : m.lower.cut.floor = n.lower.cut.floor) : m = n := by
  rcases hm.proper_or_empty with hproper | ⟨v, rfl⟩
  · rcases hn.proper_or_empty with hproper' | ⟨v', rfl⟩
    · exact hproper.eq_of_covers_iff hproper' hcovers
    · exact absurd ((hcovers _).mp ⟨le_rfl, hproper.cut_lt⟩) (not_covers_empty v' _)
  · rcases hn.proper_or_empty with hproper' | ⟨v', rfl⟩
    · exact absurd ((hcovers _).mpr ⟨le_rfl, hproper'.cut_lt⟩) (not_covers_empty v _)
    · have hvalue : Cut.before v = .before v' := hfloor
      rw [Cut.before.inj hvalue]

/-- Whether or not something is left, an intersection has the greater of the two lower values. -/
theorem floor_lower_intersection (ha : a.Sided) (hb : b.Sided) :
    (a.intersection b).lower.cut.floor = a.lower.cut.floor ⊔ b.lower.cut.floor := by
  rw [← Cut.floor_mono.map_sup, ← Bound.cut_max]
  rcases intersection_cases ha hb with hkept | hempty
  · rw [hkept.2]
  · obtain ⟨-, v, hvalue, h⟩ := hempty
    rw [h, Bound.floor_cut hvalue]
    rfl

theorem intersection_comm (ha : a.WellFormed) (hb : b.WellFormed) :
    a.intersection b = b.intersection a := by
  apply (wellFormed_intersection ha.sided hb.sided).eq_of_covers_iff
    (wellFormed_intersection hb.sided ha.sided)
  · intro p
    rw [covers_intersection ha hb, covers_intersection hb ha, and_comm]
  · rw [floor_lower_intersection ha.sided hb.sided, floor_lower_intersection hb.sided ha.sided,
      sup_comm]

theorem intersects_iff (ha : a.WellFormed) (hb : b.WellFormed) :
    a.intersects b = true ↔ ∃ p, a.Covers p ∧ b.Covers p := by
  simp only [← covers_intersection ha hb]
  rw [intersects, Bool.not_eq_true', isEmpty_eq_false_iff_exists]

/-! ## All members -/

/-- An interval covers what another one and all members cover, and has the greatest of their lower
values. -/
structure Meets (w : Interval α) (c : List (Interval α)) (m : Interval α) : Prop where
  wellFormed : m.WellFormed
  covers_iff : ∀ p, m.Covers p ↔ w.Covers p ∧ ∀ i ∈ c, i.Covers p
  floor_le_iff : ∀ q,
    m.lower.cut.floor ≤ q ↔ w.lower.cut.floor ≤ q ∧ ∀ i ∈ c, i.lower.cut.floor ≤ q

namespace Meets

theorem start (hw : w.WellFormed) : Meets w [] w := ⟨hw, by simp, by simp⟩

/-- One more member. -/
theorem add (h : Meets w c m) (hi : i.WellFormed) : Meets w (c ++ [i]) (m.intersection i) := by
  have hmember : ∀ {q : Interval α → Prop}, (∀ j ∈ c ++ [i], q j) ↔ (∀ j ∈ c, q j) ∧ q i := by
    simp [or_imp, forall_and]
  refine ⟨wellFormed_intersection h.wellFormed.sided hi.sided, fun p => ?_, fun q => ?_⟩
  · rw [covers_intersection h.wellFormed hi, h.covers_iff, hmember, and_assoc]
  · rw [floor_lower_intersection h.wellFormed.sided hi.sided, sup_le_iff, h.floor_le_iff, hmember,
      and_assoc]

theorem foldl (hw : w.WellFormed) (hc : ∀ i ∈ c, i.WellFormed) :
    Meets w c (c.foldl intersection w) := by
  induction c using List.reverseRecOn with
  | nil => exact start hw
  | append_singleton rest i ih =>
    obtain ⟨hrest, hi⟩ := List.forall_mem_append.mp hc
    rw [List.foldl_append]
    exact (ih hrest).add (hi i List.mem_cons_self)

/-- The order of the members does not show, nor does their number. -/
theorem unique (hm : Meets w c m) (hn : Meets w d n) (hsame : ∀ i, i ∈ c ↔ i ∈ d) : m = n := by
  apply hm.wellFormed.eq_of_covers_iff hn.wellFormed
  · intro p
    rw [hm.covers_iff, hn.covers_iff]
    simp only [hsame]
  · refine eq_of_forall_ge_iff fun q => ?_
    rw [hm.floor_le_iff, hn.floor_le_iff]
    simp only [hsame]

end Meets

end Interval

namespace Collection

open Almanac.Interval

variable {limits : Limits α} {c : Collection α}

theorem meets_intersection (hlimits : limits.InForce) (hc : ∀ i ∈ c, i.WellFormed) :
    Meets (whole limits) c (intersection limits c) :=
  .foldl hlimits.proper_whole.wellFormed hc

/-- For limits in force and well-formed members, an intersection contains the values within the
limits that all members contain, and permuting the members does not change it, even if it is
empty. Two intervals that do not intersect have no value in common, and two that do have one if
the line is dense. -/
theorem intersection_common (hlimits : limits.InForce) (hc : ∀ i ∈ c, i.WellFormed) :
    (∀ v, (intersection limits c).contains v = true ↔
      (whole limits).contains v = true ∧ ∀ i ∈ c, i.contains v = true) ∧
    (∀ d, d.Perm c → intersection limits d = intersection limits c) ∧
    ∀ a b : Interval α, a.WellFormed → b.WellFormed →
      (a.intersects b = false → ∀ v, ¬(a.contains v = true ∧ b.contains v = true)) ∧
      (IsDenseLine α → a.intersects b = true →
        ∃ v, a.contains v = true ∧ b.contains v = true) := by
  have hmeets := meets_intersection hlimits hc
  refine ⟨fun v => ?_, fun d hperm => ?_, fun a b ha hb => ⟨fun hapart v => ?_, fun hdense h => ?_⟩⟩
  · rw [hmeets.wellFormed.contains_iff, hmeets.covers_iff,
      hlimits.proper_whole.wellFormed.contains_iff]
    exact and_congr_right' (forall₂_congr fun i hi => (hc i hi).contains_iff.symm)
  · have hd : ∀ i ∈ d, i.WellFormed := fun i hi => hc i (hperm.mem_iff.mp hi)
    exact (meets_intersection hlimits hd).unique hmeets fun i => hperm.mem_iff
  · rw [ha.contains_iff, hb.contains_iff]
    intro hboth
    rw [(intersects_iff ha hb).mpr ⟨_, hboth⟩] at hapart
    cases hapart
  · rw [intersects, Bool.not_eq_true', isEmpty_eq_false_iff] at h
    obtain ⟨v, hv⟩ := hdense.exists_between_cuts h
    have hcovers : a.Covers (.before v) ∧ b.Covers (.before v) := (covers_intersection ha hb).mp hv
    rw [← ha.contains_iff, ← hb.contains_iff] at hcovers
    exact ⟨v, hcovers⟩

/-- The intervals `[0, 4)`, `(1, +inf)` and `(-inf, 2]`. -/
def overlapping : Collection ℚ :=
  [⟨.lowerAt .inclusive 0, .upperAt .exclusive 4⟩, ⟨.lowerAt .exclusive 1, .top⟩,
    ⟨.bottom, .upperAt .inclusive 2⟩]

theorem wellFormed_of_mem_overlapping : ∀ i ∈ overlapping, i.WellFormed := by
  simp only [overlapping, List.forall_mem_cons, List.not_mem_nil, false_implies, implies_true]
  refine ⟨?_, ?_, ?_, trivial⟩
  all_goals exact ⟨by trivial, by trivial, rfl, rfl, Or.inl (by decide)⟩

theorem intersection_common_of_overlapping :
    Limits.InForce (.unlimited : Limits ℚ) ∧ (∀ i ∈ overlapping, i.WellFormed) ∧
      (intersection .unlimited overlapping).contains 2 = true ∧
      (intersection .unlimited overlapping).contains 1 = false ∧
      intersection .unlimited overlapping.reverse = intersection .unlimited overlapping ∧
      IsDenseLine ℚ ∧
      ∃ v : ℚ, (⟨.lowerAt .exclusive 1, .top⟩ : Interval ℚ).contains v = true ∧
        (⟨.bottom, .upperAt .inclusive 2⟩ : Interval ℚ).contains v = true := by
  have hinForce : Limits.InForce (.unlimited : Limits ℚ) := .cleared
  obtain ⟨hcontains, hperm, hpairs⟩ :=
    intersection_common hinForce wellFormed_of_mem_overlapping
  have hleft := wellFormed_of_mem_overlapping ⟨.lowerAt .exclusive 1, .top⟩ (by decide)
  have hright :=
    wellFormed_of_mem_overlapping ⟨.bottom, .upperAt .inclusive 2⟩ (by decide)
  refine ⟨hinForce, wellFormed_of_mem_overlapping, ?_, ?_, ?_, isDenseLine, ?_⟩
  · exact (hcontains 2).mpr (by decide)
  · exact Bool.eq_false_iff.mpr (mt (hcontains 1).mp (by decide))
  · exact hperm _ (List.reverse_perm overlapping)
  · exact (hpairs _ _ hleft hright).2 isDenseLine (by decide)

end Collection

end Almanac
