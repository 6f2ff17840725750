import Almanac.Interval.Basic
import Almanac.Proofs.Interval.Cut

/-!
# What an interval covers

An interval covers the cuts from its lower bound on and before its upper bound. It contains a
value exactly when it covers the cut just before that value, so coverage determines membership;
unlike membership it also tells an interval between neighbouring values from an empty one.
Intersections and clippings are described by the cuts that they cover.
-/

namespace Almanac

namespace Interval

variable {α : Type} [Ord α]

/-- Well-formed, and not empty. -/
structure Proper (i : Interval α) : Prop where
  wellFormed : i.WellFormed
  isEmpty_eq_false : i.isEmpty = false

omit [Ord α] in
/-- A valid lower bound and a valid upper bound, in any order. -/
structure Sided (i : Interval α) : Prop where
  valid_lower : i.lower.Valid
  valid_upper : i.upper.Valid
  side_lower : i.lower.side = .lower
  side_upper : i.upper.side = .upper

section WellFormed

variable {i : Interval α}

theorem WellFormed.valid_lower (h : i.WellFormed) : i.lower.Valid := h.1

theorem WellFormed.valid_upper (h : i.WellFormed) : i.upper.Valid := h.2.1

theorem WellFormed.side_lower (h : i.WellFormed) : i.lower.side = .lower := h.2.2.1

theorem WellFormed.side_upper (h : i.WellFormed) : i.upper.side = .upper := h.2.2.2.1

theorem WellFormed.sided (h : i.WellFormed) : i.Sided :=
  ⟨h.valid_lower, h.valid_upper, h.side_lower, h.side_upper⟩

/-- The bounds of a well-formed interval are accepted as they are. -/
theorem WellFormed.ofBounds_eq_ok (h : i.WellFormed) :
    ofBounds i.lower i.upper = .ok i := by
  obtain ⟨-, -, hlower, hupper, horder⟩ := h
  unfold ofBounds
  rw [if_neg (by simp [hlower, hupper])]
  rcases horder with hlt | ⟨heq, hdirection⟩
  · rw [hlt]
  · simp [heq, hdirection]

end WellFormed

variable [Std.TransOrd α] [Std.LawfulEqOrd α]

/-- The cut lies at the lower bound or after it, and before the upper bound. -/
def Covers (i : Interval α) (p : Cut α) : Prop := i.lower.cut ≤ p ∧ p < i.upper.cut

theorem isEmpty_eq_false_iff {i : Interval α} :
    i.isEmpty = false ↔ i.lower.cut < i.upper.cut := by
  rw [← Bound.cutOrder_eq_lt_iff, isEmpty]
  simp

/-- An interval is not empty exactly when it covers a cut. -/
theorem isEmpty_eq_false_iff_exists {i : Interval α} : i.isEmpty = false ↔ ∃ p, i.Covers p := by
  rw [isEmpty_eq_false_iff]
  constructor
  · exact fun hlt => ⟨i.lower.cut, le_rfl, hlt⟩
  · intro hsome
    obtain ⟨p, hlower, hupper⟩ := hsome
    exact hlower.trans_lt hupper

theorem Proper.cut_lt {i : Interval α} (h : i.Proper) : i.lower.cut < i.upper.cut :=
  isEmpty_eq_false_iff.mp h.isEmpty_eq_false

omit [Ord α] [Std.TransOrd α] [Std.LawfulEqOrd α] in
/-- A lower bound that cuts before a value and an upper bound that cuts after it include it. -/
theorem direction_eq_of_cutsAfter_lt {a b : Bound α} (ha : a.side = .lower)
    (hb : b.side = .upper) (h : compare a.cutsAfter b.cutsAfter = .lt) :
    a.direction = b.direction := by
  obtain ⟨sideA, directionA, valueA⟩ := a
  obtain ⟨sideB, directionB, valueB⟩ := b
  subst ha hb
  cases directionA <;> cases directionB
  · rfl
  · cases h
  · cases h
  · rfl

/-- Valid bounds whose cuts are in order make a well-formed interval. -/
theorem proper_of_cut_lt {i : Interval α} (hlower : i.lower.Valid) (hupper : i.upper.Valid)
    (hsideLower : i.lower.side = .lower) (hsideUpper : i.upper.side = .upper)
    (hcut : i.lower.cut < i.upper.cut) : i.Proper := by
  refine ⟨⟨hlower, hupper, hsideLower, hsideUpper, ?_⟩, isEmpty_eq_false_iff.mpr hcut⟩
  rw [← Bound.cutOrder_eq_lt_iff, Bound.cutOrder, Ordering.then_eq_lt] at hcut
  rcases hcut with hlt | ⟨heq, hrank⟩
  · exact Or.inl hlt
  · refine Or.inr ⟨heq, ?_⟩
    split at hrank
    · exact direction_eq_of_cutsAfter_lt hsideLower hsideUpper hrank
    · cases hrank

omit [Std.TransOrd α] [Std.LawfulEqOrd α] in
/-- Proper intervals are determined by the cuts at which they start and stop. -/
theorem Proper.eq_of_cut_eq {i j : Interval α} (hi : i.Proper) (hj : j.Proper)
    (hlower : i.lower.cut = j.lower.cut) (hupper : i.upper.cut = j.upper.cut) : i = j := by
  obtain ⟨lower, upper⟩ := i
  obtain ⟨lower', upper'⟩ := j
  rw [Interval.mk.injEq]
  exact ⟨hi.wellFormed.valid_lower.eq_of_cut_eq hj.wellFormed.valid_lower
      (hi.wellFormed.side_lower.trans hj.wellFormed.side_lower.symm) hlower,
    hi.wellFormed.valid_upper.eq_of_cut_eq hj.wellFormed.valid_upper
      (hi.wellFormed.side_upper.trans hj.wellFormed.side_upper.symm) hupper⟩

/-- A proper interval that covers nothing beyond another one lies within its bounds. -/
theorem Proper.within {i w : Interval α} (hi : i.Proper)
    (hcovers : ∀ p, i.Covers p → w.Covers p) :
    w.lower.cut ≤ i.lower.cut ∧ i.upper.cut ≤ w.upper.cut := by
  have hlower := hcovers _ ⟨le_rfl, hi.cut_lt⟩
  refine ⟨hlower.1, ?_⟩
  by_contra hgt
  rw [not_le] at hgt
  have hupper := hcovers w.upper.cut ⟨hlower.2.le, hgt⟩
  exact lt_irrefl _ hupper.2

/-- Proper intervals are determined by the cuts that they cover. -/
theorem Proper.eq_of_covers_iff {i j : Interval α} (hi : i.Proper) (hj : j.Proper)
    (h : ∀ p, i.Covers p ↔ j.Covers p) : i = j := by
  obtain ⟨hlower, hupper⟩ := hi.within fun p => (h p).mp
  obtain ⟨hlower', hupper'⟩ := hj.within fun p => (h p).mpr
  exact hi.eq_of_cut_eq hj (le_antisymm hlower' hlower) (le_antisymm hupper hupper')

/-- A well-formed interval contains a value when it covers the cut before it. -/
theorem WellFormed.contains_iff {i : Interval α} (h : i.WellFormed) {v : α} :
    i.contains v = true ↔ i.Covers (.before v) := by
  rw [contains, Bool.and_eq_true, h.valid_lower.admits_lower_iff h.side_lower,
    h.valid_upper.admits_upper_iff h.side_upper, Covers]

omit [Std.TransOrd α] in
theorem wellFormed_empty (v : α) : (empty v).WellFormed := by
  have heq : compare v v = .eq := Std.compare_self
  exact ⟨trivial, trivial, rfl, rfl, Or.inr ⟨heq, rfl⟩⟩

omit [Std.TransOrd α] in
theorem wellFormed_singleton (v : α) : (singleton v).WellFormed := by
  have heq : compare v v = .eq := Std.compare_self
  exact ⟨trivial, trivial, rfl, rfl, Or.inr ⟨heq, rfl⟩⟩

theorem not_covers_empty (v : α) (p : Cut α) : ¬(empty v).Covers p := by
  intro hboth
  obtain ⟨hlower, hupper⟩ := hboth
  have hcut : Cut.after v < Cut.before v := lt_of_le_of_lt hlower hupper
  exact absurd (Cut.before_lt_after.mpr (by simp)) hcut.not_gt

theorem isEmpty_empty (v : α) : (empty v).isEmpty = true := by
  by_contra hproper
  obtain ⟨p, hp⟩ := isEmpty_eq_false_iff_exists.mp (Bool.not_eq_true _ ▸ hproper)
  exact not_covers_empty v p hp

/-! ## Intersection -/

section Intersection

variable {a b : Interval α}

omit [Std.TransOrd α] [Std.LawfulEqOrd α] in
theorem valid_max_lower (ha : a.Sided) (hb : b.Sided) :
    (a.lower.max b.lower).Valid ∧ (a.lower.max b.lower).side = .lower :=
  Bound.max_induction (p := fun c => c.Valid ∧ c.side = .lower)
    ⟨ha.valid_lower, ha.side_lower⟩ ⟨hb.valid_lower, hb.side_lower⟩

omit [Std.TransOrd α] [Std.LawfulEqOrd α] in
theorem valid_min_upper (ha : a.Sided) (hb : b.Sided) :
    (a.upper.min b.upper).Valid ∧ (a.upper.min b.upper).side = .upper :=
  Bound.min_induction (p := fun c => c.Valid ∧ c.side = .upper)
    ⟨ha.valid_upper, ha.side_upper⟩ ⟨hb.valid_upper, hb.side_upper⟩

/-- An intersection keeps its two inner bounds while their cuts are in order, and is otherwise
empty at the value of the lower one. -/
theorem intersection_cases (ha : a.Sided) (hb : b.Sided) :
    (a.lower.cut ⊔ b.lower.cut < a.upper.cut ⊓ b.upper.cut ∧
        a.intersection b = ⟨a.lower.max b.lower, a.upper.min b.upper⟩) ∨
      (a.upper.cut ⊓ b.upper.cut ≤ a.lower.cut ⊔ b.lower.cut ∧
        ∃ v, (a.lower.max b.lower).value = .finite v ∧ a.intersection b = empty v) := by
  obtain ⟨hlower, hsideLower⟩ := valid_max_lower ha hb
  obtain ⟨hupper, hsideUpper⟩ := valid_min_upper ha hb
  unfold intersection
  simp only [Bound.cutOrder_eq_lt_iff, Bound.cut_max, Bound.cut_min]
  split
  · next hlt => exact Or.inl ⟨hlt, rfl⟩
  · next hge =>
    rw [not_lt] at hge
    refine Or.inr ⟨hge, ?_⟩
    cases hvalue : (a.lower.max b.lower).value? with
    | some v => exact ⟨v, Bound.value?_eq_some_iff.mp hvalue, rfl⟩
    | none =>
      -- Without a value the inner lower bound is the infinity below all upper bounds.
      have hstart : (a.lower.max b.lower).cut = .start := hlower.cut_eq_start hsideLower hvalue
      rw [← Bound.cut_max, ← Bound.cut_min, hstart] at hge
      exact absurd (le_antisymm hge (Cut.start_le _)) (hupper.cut_ne_start hsideUpper)

/-- An intersection is well-formed even if the bounds that it is formed from are not in order. -/
theorem wellFormed_intersection (ha : a.Sided) (hb : b.Sided) :
    (a.intersection b).WellFormed := by
  rcases intersection_cases ha hb with ⟨hcut, h⟩ | ⟨-, v, -, h⟩
  · rw [h]
    rw [← Bound.cut_max, ← Bound.cut_min] at hcut
    obtain ⟨hlower, hsideLower⟩ := valid_max_lower ha hb
    obtain ⟨hupper, hsideUpper⟩ := valid_min_upper ha hb
    have hproper : Proper ⟨a.lower.max b.lower, a.upper.min b.upper⟩ :=
      proper_of_cut_lt hlower hupper hsideLower hsideUpper hcut
    exact hproper.wellFormed
  · rw [h]
    exact wellFormed_empty v

/-- An intersection covers what both intervals cover. -/
theorem covers_intersection (ha : a.WellFormed) (hb : b.WellFormed) {p : Cut α} :
    (a.intersection b).Covers p ↔ a.Covers p ∧ b.Covers p := by
  have hinner : (a.Covers p ∧ b.Covers p) ↔
      a.lower.cut ⊔ b.lower.cut ≤ p ∧ p < a.upper.cut ⊓ b.upper.cut := by
    rw [sup_le_iff, lt_inf_iff]
    exact and_and_and_comm
  rw [hinner]
  rcases intersection_cases ha.sided hb.sided with ⟨-, h⟩ | ⟨hcut, v, -, h⟩
  · rw [h, Covers, Bound.cut_max, Bound.cut_min]
  · rw [h]
    refine iff_of_false (not_covers_empty v p) ?_
    intro hboth
    obtain ⟨hlower, hupper⟩ := hboth
    exact (hcut.trans hlower).not_gt hupper

end Intersection

end Interval

/-! ## The limits of a domain -/

namespace Limits

variable {α : Type} [Ord α]

/-- Limits that a domain can have: none, or two bounds that were accepted. -/
inductive InForce : Limits α → Prop
  | cleared : InForce unlimited
  | configured {lowest upmost : Bound α} {limits : Limits α} (hlowest : lowest.Valid)
      (hupmost : upmost.Valid) (h : ofBounds lowest upmost = .ok limits) : InForce limits

variable [Std.TransOrd α] [Std.LawfulEqOrd α]

/-- The limits in force leave a proper interval of values. -/
theorem InForce.proper_whole {limits : Limits α} (h : limits.InForce) :
    (Interval.whole limits).Proper := by
  cases h with
  | cleared =>
    exact Interval.proper_of_cut_lt rfl rfl rfl rfl (compare_lt_iff_lt.mp rfl)
  | @configured lowest upmost _ hlowest hupmost h =>
    unfold ofBounds at h
    split at h
    · cases h
    · next hsides =>
      simp only [ne_eq, not_or, not_not] at hsides
      split at h
      · cases h
      · next hcut =>
        rw [not_not, Bound.cutOrder_eq_lt_iff] at hcut
        cases h
        exact Interval.proper_of_cut_lt hlowest hupmost hsides.1 hsides.2 hcut

end Limits

namespace Interval

variable {α : Type} [Ord α] [Std.TransOrd α] [Std.LawfulEqOrd α] {limits : Limits α}
  {i : Interval α}

theorem wellFormed_clipped (hlimits : limits.InForce) (h : i.Sided) :
    (i.clipped limits).WellFormed :=
  wellFormed_intersection h hlimits.proper_whole.wellFormed.sided

theorem covers_clipped (hlimits : limits.InForce) (h : i.WellFormed) {p : Cut α} :
    (i.clipped limits).Covers p ↔ i.Covers p ∧ (whole limits).Covers p :=
  covers_intersection h hlimits.proper_whole.wellFormed

/-- An interval that covers nothing beyond the limits is not changed by them. -/
theorem clipped_eq_self (hlimits : limits.InForce) (h : i.Proper)
    (hcovers : ∀ p, i.Covers p → (whole limits).Covers p) : i.clipped limits = i := by
  have hiff : ∀ p, (i.clipped limits).Covers p ↔ i.Covers p := fun p =>
    (covers_clipped hlimits h.wellFormed).trans (and_iff_left_of_imp (hcovers p))
  obtain ⟨hlower, hupper⟩ := (hiff i.lower.cut).mpr ⟨le_rfl, h.cut_lt⟩
  have hproper : (i.clipped limits).Proper :=
    ⟨wellFormed_clipped hlimits h.wellFormed.sided,
      isEmpty_eq_false_iff.mpr (hlower.trans_lt hupper)⟩
  exact hproper.eq_of_covers_iff h hiff

end Interval

end Almanac
