import Almanac.Proofs.Interval.Accepted

/-!
# The order of bounds

Bounds are compared by their cuts first, and two bounds at one cut by side and direction. What the
order says about two bounds follows from their cuts: of two bounds of one side the wider one admits
more, a bound and the one on the other side of its cut share the values between them, and a lower
bound that does not cut before an upper one leaves nothing between the two. The sides and directions
only tell apart what the cuts do not.
-/

namespace Almanac

namespace Side

theorem reverse_ne (s : Side) : s.reverse ≠ s := by
  cases s <;> decide

theorem eq_reverse_of_ne {s t : Side} (h : s ≠ t) : s = t.reverse := by
  cases s <;> cases t <;> first | rfl | exact (h rfl).elim

@[simp] theorem reverse_reverse (s : Side) : s.reverse.reverse = s := by
  cases s <;> rfl

instance : Std.LawfulEqOrd Side where
  compare_self {s} := by cases s <;> rfl
  eq_of_compare {s t} := by cases s <;> cases t <;> decide

end Side

namespace Direction

@[simp] theorem reverse_reverse (d : Direction) : d.reverse.reverse = d := by
  cases d <;> rfl

instance : Std.LawfulEqOrd Direction where
  compare_self {d} := by cases d <;> rfl
  eq_of_compare {d e} := by cases d <;> cases e <;> decide

end Direction

namespace Bound

variable {α : Type} {a b : Bound α} {v : α}

/-- The checking constructor gives the bound for its own parts. -/
def IsAccepted (b : Bound α) : Prop := ofParts b.side b.direction b.value = .ok b

theorem isAccepted_iff : b.IsAccepted ↔ b.Valid :=
  ofParts_eq_ok_iff.trans (and_iff_right rfl)

/-- Reversing twice gives the bound back. -/
theorem reverse?_of_reverse? (h : a.reverse? = some b) : b.reverse? = some a := by
  obtain ⟨side, direction, value⟩ := a
  obtain ⟨v, hvalue, rfl⟩ := reverse?_eq_some_iff.mp h
  dsimp only at hvalue
  subst hvalue
  rw [reverse?_eq_some_iff]
  exact ⟨v, rfl, by simp⟩

theorem exists_reverse?_of_value? (h : a.value? = some v) : ∃ b, a.reverse? = some b :=
  Option.ne_none_iff_exists'.mp fun hnone => by simp [reverse?_eq_none_iff.mp hnone] at h

/-- Bounds are determined by their cuts, sides and directions, be they valid or not. -/
theorem eq_of_cut_eq (hcut : a.cut = b.cut) (hside : a.side = b.side)
    (hdirection : a.direction = b.direction) : a = b := by
  obtain ⟨side, direction, valueA⟩ := a
  obtain ⟨_, _, valueB⟩ := b
  subst hside hdirection
  have hvalue : valueA = valueB := by
    cases valueA <;> cases valueB <;> cases side <;> cases direction <;>
      simp_all [cut, cutsAfter]
  rw [hvalue]

variable [Ord α]

theorem compare_eq_lt_of_cutOrder (h : a.cutOrder b = .lt) : compare a b = .lt := by
  change (a.cutOrder b).then _ = _
  rw [h]
  rfl

/-- The order of the cuts takes two bounds for one when they are at one cut, whatever their sides
and directions. -/
theorem transCmp_cutOrder [Std.TransOrd α] :
    Std.TransCmp (cutOrder : Bound α → Bound α → Ordering) := by
  have heq : (cutOrder : Bound α → Bound α → Ordering) = compareOn cut := by
    funext a b
    exact cutOrder_eq_compare a b
  rw [heq]
  infer_instance

variable [Std.LawfulEqOrd α]

/-- Bounds that compare equal are the same. -/
theorem compare_eq_eq_iff : compare a b = .eq ↔ a = b := by
  rw [compare_eq_compareLex, compareLex_eq_eq, compareLex_eq_eq]
  unfold compareOn
  rw [Std.compare_eq_iff_eq, Std.compare_eq_iff_eq, Std.compare_eq_iff_eq]
  constructor
  · rintro ⟨hcut, hside, hdirection⟩
    exact eq_of_cut_eq hcut hside hdirection
  · rintro rfl
    exact ⟨rfl, rfl, rfl⟩

theorem cutOrder_eq_eq_iff : a.cutOrder b = .eq ↔ a.cut = b.cut := by
  rw [cutOrder_eq_compare, Std.compare_eq_iff_eq]

/-- A cut has one valid bound on each side. -/
theorem Valid.eq_reverse?_iff (hb : b.Valid) {c : Bound α} (h : a.reverse? = some c)
    (hside : b.side ≠ a.side) : a.cutOrder b = .eq ↔ b = c := by
  rw [cutOrder_eq_eq_iff, ← cut_of_reverse? h]
  constructor
  · intro hcut
    refine hb.eq_of_cut_eq (valid_of_reverse? h) ?_ hcut.symm
    rw [side_of_reverse? h]
    exact Side.eq_reverse_of_ne hside
  · rintro rfl
    rfl

variable [Std.TransOrd α]

/-- The earlier of two lower bounds admits what the later one admits. -/
theorem Valid.admits_of_lower (ha : a.Valid) (hb : b.Valid) (hsideA : a.side = .lower)
    (hsideB : b.side = .lower) (hle : a.cut ≤ b.cut) (h : b.admits v = true) :
    a.admits v = true := by
  rw [hb.admits_lower_iff hsideB] at h
  rw [ha.admits_lower_iff hsideA]
  exact hle.trans h

/-- The later of two upper bounds admits what the earlier one admits. -/
theorem Valid.admits_of_upper (ha : a.Valid) (hb : b.Valid) (hsideA : a.side = .upper)
    (hsideB : b.side = .upper) (hle : a.cut ≤ b.cut) (h : a.admits v = true) :
    b.admits v = true := by
  rw [ha.admits_upper_iff hsideA] at h
  rw [hb.admits_upper_iff hsideB]
  exact h.trans_le hle

/-- The two bounds at one cut share the values between them. -/
theorem Valid.admits_reverse? (ha : a.Valid) (h : a.reverse? = some b) :
    b.admits v = !a.admits v := by
  have hb := valid_of_reverse? h
  have hside := side_of_reverse? h
  have hcut := cut_of_reverse? h
  rw [Bool.eq_iff_iff, Bool.not_eq_true', ← Bool.not_eq_true]
  cases hsideA : a.side with
  | lower =>
    rw [hsideA] at hside
    rw [hb.admits_upper_iff hside, ha.admits_lower_iff hsideA, hcut, not_le]
  | upper =>
    rw [hsideA] at hside
    rw [hb.admits_lower_iff hside, ha.admits_upper_iff hsideA, hcut, not_lt]

/-- Nothing lies between a lower bound and an upper one that does not cut after it. -/
theorem Valid.not_admits_both (ha : a.Valid) (hb : b.Valid) (hsideA : a.side = .lower)
    (hsideB : b.side = .upper) (h : a.cutOrder b ≠ .lt) :
    ¬(a.admits v = true ∧ b.admits v = true) := by
  rw [ne_eq, cutOrder_eq_lt_iff] at h
  rw [ha.admits_lower_iff hsideA, hb.admits_upper_iff hsideB]
  rintro ⟨hafter, hbefore⟩
  exact h (hafter.trans_lt hbefore)

/-- A finite bound and its reverse: another side, the other values, and back again. No other bound
of that side is at the same cut. -/
theorem Valid.exists_opposite (ha : a.Valid) (hvalue : a.value? = some v) :
    ∃ b, a.reverse? = some b ∧ b.Valid ∧ b.side ≠ a.side ∧
      (∀ w, b.admits w = !a.admits w) ∧ b.reverse? = some a ∧
      ∀ c : Bound α, c.Valid → c.side ≠ a.side → (a.cutOrder c = .eq ↔ c = b) := by
  obtain ⟨b, hb⟩ := exists_reverse?_of_value? hvalue
  have hside : b.side ≠ a.side := by
    rw [side_of_reverse? hb]
    exact a.side.reverse_ne
  exact ⟨b, hb, valid_of_reverse? hb, hside, fun _ => ha.admits_reverse? hb,
    reverse?_of_reverse? hb, fun _ hc => hc.eq_reverse?_iff hb⟩

/-! ## The laws together -/

/-- The comparison of bounds is a linear order. The order of the cuts is a total preorder, and what
it puts first the comparison puts first. Two bounds of one side are in the order of what they leave
out below, or let in above. A finite bound has one bound opposite to it, with the other values. A
lower bound that does not cut before an upper one shares no value with it. -/
theorem order_refines_cuts :
    (Std.TransOrd (Bound α) ∧ ∀ a b : Bound α, compare a b = .eq ↔ a = b) ∧
    (Std.TransCmp (cutOrder : Bound α → Bound α → Ordering) ∧
      ∀ a b : Bound α, a.cutOrder b = .lt → compare a b = .lt) ∧
    (∀ a b : Bound α, a.IsAccepted → b.IsAccepted → a.side = b.side → compare a b ≠ .gt → ∀ v,
      (a.side = .lower → b.admits v = true → a.admits v = true) ∧
      (a.side = .upper → a.admits v = true → b.admits v = true)) ∧
    (∀ a : Bound α, a.IsAccepted → ∀ v, a.value? = some v →
      ∃ b, a.reverse? = some b ∧ b.IsAccepted ∧ b.side ≠ a.side ∧
        (∀ w, b.admits w = !a.admits w) ∧ b.reverse? = some a ∧
        ∀ c : Bound α, c.IsAccepted → c.side ≠ a.side → (a.cutOrder c = .eq ↔ c = b)) ∧
    ∀ a b : Bound α, a.IsAccepted → b.IsAccepted → a.side = .lower → b.side = .upper →
      a.cutOrder b ≠ .lt → ∀ v, ¬(a.admits v = true ∧ b.admits v = true) := by
  simp only [isAccepted_iff]
  refine ⟨⟨inferInstance, fun _ _ => compare_eq_eq_iff⟩,
    ⟨transCmp_cutOrder, fun _ _ => compare_eq_lt_of_cutOrder⟩, ?_, ?_, ?_⟩
  · intro a b ha hb hside hle v
    have hcut := cut_le_of_compare_ne_gt hle
    constructor
    · intro hlower
      exact ha.admits_of_lower hb hlower (hside ▸ hlower) hcut
    · intro hupper
      exact ha.admits_of_upper hb hupper (hside ▸ hupper) hcut
  · intro a ha v hvalue
    exact ha.exists_opposite hvalue
  · intro a b ha hb hsideA hsideB hcut v
    exact ha.not_admits_both hb hsideA hsideB hcut

section Sample

/-- Over the integers: `[3` admits what `(3` admits, `3)` is the only upper bound at the cut of
`[3`, and it shares no integer with `(3`. -/
theorem order_refines_cuts_at_three :
    (∀ v : Int, (lowerAt .exclusive (3 : Int)).admits v = true →
      (lowerAt .inclusive (3 : Int)).admits v = true) ∧
    (∀ c : Bound Int, c.IsAccepted → c.side = .upper →
      ((lowerAt .inclusive (3 : Int)).cutOrder c = .eq ↔ c = upperAt .exclusive 3)) ∧
    ∀ v : Int, ¬((lowerAt .exclusive (3 : Int)).admits v = true ∧
      (upperAt .exclusive (3 : Int)).admits v = true) := by
  obtain ⟨-, -, hnested, hopposite, hdisjoint⟩ := @order_refines_cuts Int _ _ _
  refine ⟨fun v => (hnested (lowerAt .inclusive 3) (lowerAt .exclusive 3) rfl rfl rfl
      (by decide) v).1 rfl, ?_,
    hdisjoint (lowerAt .exclusive 3) (upperAt .exclusive 3) rfl rfl rfl rfl (by decide)⟩
  obtain ⟨b, hreverse, -, -, -, -, hunique⟩ :=
    hopposite (lowerAt .inclusive (3 : Int)) rfl 3 rfl
  cases hreverse
  intro c hc hside
  exact hunique c hc (by rw [hside]; decide)

end Sample

end Bound

end Almanac
