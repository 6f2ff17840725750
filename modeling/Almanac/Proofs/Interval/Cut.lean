import Almanac.Interval.Bound
import Mathlib.Order.Std
import Mathlib.Order.Lattice

/-!
# Cuts of the line of values

A bound matters to an interval through its side and the place where it cuts the line of values.
The places form a linear order of their own: one below all values, one just before and one just
after every value, and one above all values. The order of bounds refines the order of their cuts,
and a value lies on the inner side of a bound exactly when the cut before it does.
-/

namespace Almanac

/-- A place where the line of values can be cut. -/
inductive Cut (α : Type)
  | start
  | before (v : α)
  | after (v : α)
  | stop

namespace Cut

variable {α : Type}

/-- Below all values, at a value, or above all values. -/
def level : Cut α → Nat
  | start => 0
  | before _ | after _ => 1
  | stop => 2

/-- The value that a cut lies next to. -/
def value? : Cut α → Option α
  | before v | after v => some v
  | _ => none

/-- The cut lies just after its value. -/
def isAfter : Cut α → Bool
  | after _ => true
  | _ => false

variable [Ord α]

instance : Ord (Cut α) :=
  ⟨compareLex (compareOn level) (compareLex (compareOn value?) (compareOn isAfter))⟩

instance [Std.TransOrd α] : Std.TransOrd (Cut α) :=
  inferInstanceAs
    (Std.TransCmp
      (compareLex (compareOn level) (compareLex (compareOn value?) (compareOn isAfter))))

theorem compare_eq_eq_iff [Std.LawfulEqOrd α] {a b : Cut α} : compare a b = .eq ↔ a = b := by
  change compareLex (compareOn level) (compareLex (compareOn value?) (compareOn isAfter)) a b =
    .eq ↔ _
  rw [compareLex_eq_eq, compareLex_eq_eq]
  unfold compareOn
  rw [Std.compare_eq_iff_eq, Std.compare_eq_iff_eq, Std.compare_eq_iff_eq]
  constructor
  · intro hboth
    obtain ⟨hlevel, hvalue, hafter⟩ := hboth
    cases a <;> cases b <;> simp_all [level, value?, isAfter]
  · rintro rfl
    exact ⟨rfl, rfl, rfl⟩

instance [Std.LawfulEqOrd α] : Std.LawfulEqOrd (Cut α) where
  compare_self := compare_eq_eq_iff.mpr rfl
  eq_of_compare := compare_eq_eq_iff.mp

instance [Std.TransOrd α] [Std.LawfulEqOrd α] : LinearOrder (Cut α) := .ofStd (Cut α)

/-! ## Comparing two cuts -/

theorem compare_before_before (a b : α) : compare (before a) (before b) = compare a b := by
  change (compare a b).then .eq = _
  cases compare a b <;> rfl

theorem compare_before_after (a b : α) :
    compare (before a) (after b) = (compare a b).then .lt := rfl

theorem compare_after_before (a b : α) :
    compare (after a) (before b) = (compare a b).then .gt := rfl

variable [Std.TransOrd α] [Std.LawfulEqOrd α]

theorem before_le_before {a b : α} : before a ≤ before b ↔ compare a b ≠ .gt := by
  rw [← compare_le_iff_le, compare_before_before]

theorem before_lt_before {a b : α} : before a < before b ↔ compare a b = .lt := by
  rw [← compare_lt_iff_lt, compare_before_before]

theorem after_le_before {a b : α} : after a ≤ before b ↔ compare a b = .lt := by
  rw [← compare_le_iff_le, compare_after_before]
  cases compare a b <;> simp

theorem before_lt_after {a b : α} : before a < after b ↔ compare a b ≠ .gt := by
  rw [← compare_lt_iff_lt, compare_before_after]
  cases compare a b <;> simp

theorem after_lt_after {a b : α} : after a < after b ↔ compare a b = .lt := by
  have hafter : compare (after a) (after b) = (compare a b).then .eq := rfl
  rw [← compare_lt_iff_lt, hafter]
  cases compare a b <;> simp

theorem start_le (p : Cut α) : start ≤ p := by
  rw [← compare_le_iff_le]
  cases p <;> exact nofun

theorem le_stop (p : Cut α) : p ≤ stop := by
  rw [← compare_le_iff_le]
  cases p <;> exact nofun

theorem before_lt_stop (v : α) : before v < stop :=
  compare_lt_iff_lt.mp rfl

end Cut

instance : Std.TransOrd Side where
  eq_swap {a b} := by cases a <;> cases b <;> rfl
  isLE_trans {a b c} := by cases a <;> cases b <;> cases c <;> decide

instance : Std.TransOrd Direction where
  eq_swap {a b} := by cases a <;> cases b <;> rfl
  isLE_trans {a b c} := by cases a <;> cases b <;> cases c <;> decide

namespace Bound

variable {α : Type}

/-- The place where a bound cuts the line of values. -/
def cut (b : Bound α) : Cut α :=
  match b.value with
  | .negInfinity => .start
  | .posInfinity => .stop
  | .finite v => if b.cutsAfter then .after v else .before v

theorem valid_lowerAt (direction : Direction) (v : α) : (lowerAt direction v).Valid := trivial

theorem valid_upperAt (direction : Direction) (v : α) : (upperAt direction v).Valid := trivial

/-- Valid bounds of one side are determined by their cuts. -/
theorem Valid.eq_of_cut_eq {a b : Bound α} (ha : a.Valid) (hb : b.Valid)
    (hside : a.side = b.side) (hcut : a.cut = b.cut) : a = b := by
  obtain ⟨sideA, directionA, valueA⟩ := a
  obtain ⟨sideB, directionB, valueB⟩ := b
  subst hside
  cases valueA <;> cases valueB <;> cases sideA <;> cases directionA <;> cases directionB <;>
    simp_all [Valid, cut, cutsAfter]

theorem reverse?_eq_some_iff {a b : Bound α} :
    a.reverse? = some b ↔
      ∃ v, a.value = .finite v ∧ b = ⟨a.side.reverse, a.direction.reverse, .finite v⟩ := by
  obtain ⟨side, direction, value⟩ := a
  cases value <;> simp [reverse?, eq_comm]

theorem valid_of_reverse? {a b : Bound α} (h : a.reverse? = some b) : b.Valid := by
  obtain ⟨v, -, rfl⟩ := reverse?_eq_some_iff.mp h
  trivial

theorem side_of_reverse? {a b : Bound α} (h : a.reverse? = some b) :
    b.side = a.side.reverse := by
  obtain ⟨v, -, rfl⟩ := reverse?_eq_some_iff.mp h
  rfl

/-- Reversing a bound keeps its cut. -/
theorem cut_of_reverse? {a b : Bound α} (h : a.reverse? = some b) : b.cut = a.cut := by
  obtain ⟨side, direction, value⟩ := a
  obtain ⟨v, hvalue, rfl⟩ := reverse?_eq_some_iff.mp h
  cases hvalue
  cases side <;> cases direction <;> rfl

theorem exists_reverse? {a : Bound α} (hstart : a.cut ≠ .start) (hstop : a.cut ≠ .stop) :
    ∃ b, a.reverse? = some b := by
  obtain ⟨side, direction, value⟩ := a
  cases value with
  | negInfinity => exact (hstart rfl).elim
  | finite v => exact ⟨_, rfl⟩
  | posInfinity => exact (hstop rfl).elim

theorem reverse?_eq_none_iff {a : Bound α} : a.reverse? = none ↔ a.value? = none := by
  obtain ⟨side, direction, value⟩ := a
  cases value <;> simp [reverse?, value?, Extended.toOption]

theorem value?_eq_some_iff {a : Bound α} {v : α} : a.value? = some v ↔ a.value = .finite v := by
  obtain ⟨side, direction, value⟩ := a
  cases value <;> simp [value?, Extended.toOption]

/-- A valid lower bound without a value lies below all values. -/
theorem Valid.cut_eq_start {a : Bound α} (ha : a.Valid) (hside : a.side = .lower)
    (h : a.value? = none) : a.cut = .start := by
  obtain ⟨side, direction, value⟩ := a
  subst hside
  cases value with
  | negInfinity => rfl
  | finite v => simp [value?, Extended.toOption] at h
  | posInfinity => exact ha.elim

/-- A valid upper bound without a value lies above all values. -/
theorem Valid.cut_eq_stop {a : Bound α} (ha : a.Valid) (hside : a.side = .upper)
    (h : a.value? = none) : a.cut = .stop := by
  obtain ⟨side, direction, value⟩ := a
  subst hside
  cases value with
  | negInfinity => exact ha.elim
  | finite v => simp [value?, Extended.toOption] at h
  | posInfinity => rfl

theorem Valid.cut_ne_stop {a : Bound α} (ha : a.Valid) (hside : a.side = .lower) :
    a.cut ≠ .stop := by
  obtain ⟨side, direction, value⟩ := a
  subst hside
  cases value with
  | negInfinity => exact nofun
  | finite v => cases direction <;> exact nofun
  | posInfinity => exact ha.elim

theorem Valid.cut_ne_start {a : Bound α} (ha : a.Valid) (hside : a.side = .upper) :
    a.cut ≠ .start := by
  obtain ⟨side, direction, value⟩ := a
  subst hside
  cases value with
  | negInfinity => exact ha.elim
  | finite v => cases direction <;> exact nofun
  | posInfinity => exact nofun

/-- A valid bound has one of either side at its cut, apart from the two infinities. -/
theorem Valid.exists_onSide? {a : Bound α} (ha : a.Valid) (side : Side)
    (hstart : side = .upper → a.cut ≠ .start) (hstop : side = .lower → a.cut ≠ .stop) :
    ∃ b, a.onSide? side = some b ∧ b.Valid ∧ b.side = side ∧ b.cut = a.cut := by
  by_cases hside : a.side = side
  · exact ⟨a, if_pos hside, ha, hside, rfl⟩
  · have hreverse : a.side.reverse = side := by
      cases hsideA : a.side <;> cases side <;> simp_all [Side.reverse]
    have hends : a.cut ≠ .start ∧ a.cut ≠ .stop := by
      cases side with
      | lower => exact ⟨ha.cut_ne_start (by cases h : a.side <;> simp_all), hstop rfl⟩
      | upper => exact ⟨hstart rfl, ha.cut_ne_stop (by cases h : a.side <;> simp_all)⟩
    obtain ⟨b, hb⟩ := exists_reverse? hends.1 hends.2
    exact ⟨b, (if_neg hside).trans hb, valid_of_reverse? hb,
      (side_of_reverse? hb).trans hreverse, cut_of_reverse? hb⟩

section Order

variable [Ord α]

/-- Bounds are compared by their cuts. -/
theorem cutOrder_eq_compare (a b : Bound α) : a.cutOrder b = compare a.cut b.cut := by
  obtain ⟨sideA, directionA, valueA⟩ := a
  obtain ⟨sideB, directionB, valueB⟩ := b
  cases valueA with
  | negInfinity =>
    cases valueB with
    | finite w => cases sideB <;> cases directionB <;> rfl
    | _ => rfl
  | posInfinity =>
    cases valueB with
    | finite w => cases sideB <;> cases directionB <;> rfl
    | _ => rfl
  | finite v =>
    cases valueB with
    | finite w =>
      change (compare v w).then _ = _
      cases sideA <;> cases directionA <;> cases sideB <;> cases directionB <;> rfl
    | _ => cases sideA <;> cases directionA <;> rfl

/-- The order of bounds refines the order of their cuts. -/
theorem compare_eq_compareLex :
    (compare : Bound α → Bound α → Ordering) =
      compareLex (compareOn cut) (compareLex (compareOn side) (compareOn direction)) := by
  funext a b
  change (a.cutOrder b).then _ = _
  rw [cutOrder_eq_compare]
  rfl

variable [Std.TransOrd α]

instance : Std.TransOrd (Bound α) := by
  rw [Std.TransOrd, compare_eq_compareLex]
  infer_instance

variable [Std.LawfulEqOrd α] {a b : Bound α}

theorem cutOrder_eq_lt_iff : a.cutOrder b = .lt ↔ a.cut < b.cut := by
  rw [cutOrder_eq_compare, compare_lt_iff_lt]

theorem cutOrder_ne_gt_iff : a.cutOrder b ≠ .gt ↔ a.cut ≤ b.cut := by
  rw [cutOrder_eq_compare, compare_le_iff_le]

theorem cut_le_of_compare_ne_gt (h : compare a b ≠ .gt) : a.cut ≤ b.cut := by
  rw [← cutOrder_ne_gt_iff]
  intro hgt
  apply h
  change (a.cutOrder b).then _ = _
  rw [hgt]
  rfl

theorem cut_le_of_compare_eq_gt (h : compare a b = .gt) : b.cut ≤ a.cut := by
  apply cut_le_of_compare_ne_gt
  rw [Std.OrientedOrd.eq_swap, h]
  decide

omit [Std.TransOrd α] [Std.LawfulEqOrd α] in
theorem max_eq_or (a b : Bound α) : a.max b = a ∨ a.max b = b := by
  unfold max
  split
  · exact Or.inl rfl
  · exact Or.inr rfl

omit [Std.TransOrd α] [Std.LawfulEqOrd α] in
theorem min_eq_or (a b : Bound α) : a.min b = a ∨ a.min b = b := by
  unfold min
  split
  · exact Or.inr rfl
  · exact Or.inl rfl

omit [Std.TransOrd α] [Std.LawfulEqOrd α] in
/-- What two bounds have in common, the upper of them has. -/
theorem max_induction {p : Bound α → Prop} (ha : p a) (hb : p b) : p (a.max b) := by
  rcases max_eq_or a b with h | h <;> rw [h] <;> assumption

omit [Std.TransOrd α] [Std.LawfulEqOrd α] in
/-- What two bounds have in common, the lower of them has. -/
theorem min_induction {p : Bound α → Prop} (ha : p a) (hb : p b) : p (a.min b) := by
  rcases min_eq_or a b with h | h <;> rw [h] <;> assumption

@[simp] theorem cut_max (a b : Bound α) : (a.max b).cut = a.cut ⊔ b.cut := by
  unfold max
  split
  · next h => rw [sup_eq_left.mpr (cut_le_of_compare_eq_gt h)]
  · next h => rw [sup_eq_right.mpr (cut_le_of_compare_ne_gt h)]

@[simp] theorem cut_min (a b : Bound α) : (a.min b).cut = a.cut ⊓ b.cut := by
  unfold min
  split
  · next h => rw [inf_eq_right.mpr (cut_le_of_compare_eq_gt h)]
  · next h => rw [inf_eq_left.mpr (cut_le_of_compare_ne_gt h)]

/-- A valid lower bound admits the values that its cut lies before. -/
theorem Valid.admits_lower_iff (ha : a.Valid) (hside : a.side = .lower) {v : α} :
    a.admits v = true ↔ a.cut ≤ .before v := by
  obtain ⟨side, direction, value⟩ := a
  subst hside
  cases value with
  | negInfinity => exact iff_of_true rfl (Cut.start_le _)
  | posInfinity => exact ha.elim
  | finite w =>
    cases direction with
    | inclusive =>
      change _ ↔ Cut.before w ≤ Cut.before v
      rw [Cut.before_le_before, Std.OrientedOrd.eq_swap]
      cases h : compare v w <;> simp [admits, isInclusive, h]
    | exclusive =>
      change _ ↔ Cut.after w ≤ Cut.before v
      rw [Cut.after_le_before, Std.OrientedOrd.eq_swap]
      cases h : compare v w <;> simp [admits, isInclusive, h]

/-- A valid upper bound admits the values that its cut lies after. -/
theorem Valid.admits_upper_iff (ha : a.Valid) (hside : a.side = .upper) {v : α} :
    a.admits v = true ↔ .before v < a.cut := by
  obtain ⟨side, direction, value⟩ := a
  subst hside
  cases value with
  | negInfinity => exact ha.elim
  | posInfinity => exact iff_of_true rfl (Cut.before_lt_stop v)
  | finite w =>
    cases direction with
    | inclusive =>
      change _ ↔ Cut.before v < Cut.after w
      rw [Cut.before_lt_after]
      cases h : compare v w <;> simp [admits, isInclusive, h]
    | exclusive =>
      change _ ↔ Cut.before v < Cut.before w
      rw [Cut.before_lt_before]
      cases h : compare v w <;> simp [admits, isInclusive, h]

end Order

end Bound

end Almanac
