import Almanac.Interval.Collection
import Almanac.Proofs.Interval.Coverage
import Mathlib.Data.List.Basic
import Mathlib.Data.List.Pairwise

/-!
# Divisions

The members of a division are proper and come from left to right without overlap; unlike those of
a canonical collection they may touch. The cuts at which they start and stop are the boundaries of
the collection. A boundary never lies inside a member of a division, so a division is determined
by the cuts that it covers and its boundaries: the first member starts at the first covered cut
and stops at the next boundary.
-/

namespace Almanac

namespace Interval

variable {α : Type} [Ord α]

/-- One of the intervals stops no later than the other one starts. -/
def Apart (a b : Interval α) : Prop :=
  a.upper.cutOrder b.lower ≠ .gt ∨ b.upper.cutOrder a.lower ≠ .gt

/-- The interval starts no earlier and stops no later than another one. -/
def Inside (a b : Interval α) : Prop :=
  b.lower.cutOrder a.lower ≠ .gt ∧ a.upper.cutOrder b.upper ≠ .gt

variable [Std.TransOrd α] [Std.LawfulEqOrd α] {a b : Interval α}

/-- Intervals of which one stops before the other one starts have nothing in common. -/
theorem intersects_eq_false (ha : a.WellFormed) (hb : b.WellFormed)
    (h : a.upper.cut ≤ b.lower.cut) : a.intersects b = false := by
  have hempty : (a.intersection b).isEmpty = true := by
    by_contra hproper
    rw [Bool.not_eq_true] at hproper
    have hlt := isEmpty_eq_false_iff.mp hproper
    obtain ⟨-, hinside⟩ := (covers_intersection ha hb).mp ⟨le_rfl, hlt⟩
    obtain ⟨hinside', -⟩ := (covers_intersection ha hb).mp ⟨le_rfl, hlt⟩
    exact (hinside'.2.trans_le h).not_ge hinside.1
  rw [intersects, hempty]
  rfl

end Interval

namespace Collection

open Almanac.Interval

variable {α : Type} [Ord α]

/-- The members are proper, and each one stops no later than the following ones start. -/
structure Division (c : Collection α) : Prop where
  proper : ∀ i ∈ c, i.Proper
  ordered : c.Pairwise fun i j => i.upper.cutOrder j.lower ≠ .gt

/-- The cuts at which members start or stop. -/
def boundaries (c : Collection α) : Set (Cut α) :=
  {p | ∃ i ∈ c, p = i.lower.cut ∨ p = i.upper.cut}

variable {c d : Collection α} {i j : Interval α} {p : Cut α}

omit [Ord α] in
theorem not_mem_boundaries_nil : p ∉ boundaries ([] : Collection α) := by
  simp [boundaries]

omit [Ord α] in
theorem lower_mem_boundaries (hi : i ∈ c) : i.lower.cut ∈ boundaries c :=
  ⟨i, hi, Or.inl rfl⟩

omit [Ord α] in
theorem upper_mem_boundaries (hi : i ∈ c) : i.upper.cut ∈ boundaries c :=
  ⟨i, hi, Or.inr rfl⟩

omit [Ord α] in
theorem mem_boundaries_cons :
    p ∈ boundaries (i :: c) ↔ (p = i.lower.cut ∨ p = i.upper.cut) ∨ p ∈ boundaries c := by
  simp [boundaries]

section Covers

variable [Std.TransOrd α] [Std.LawfulEqOrd α]

/-- Some member covers the cut. -/
def Covers (c : Collection α) (p : Cut α) : Prop := ∃ i ∈ c, i.Covers p

theorem covers_cons : Covers (i :: c) p ↔ i.Covers p ∨ Covers c p := by
  simp [Covers]

theorem not_covers_nil : ¬Covers ([] : Collection α) p := by
  simp [Covers]

theorem covers_singleton : Covers [i] p ↔ i.Covers p := by
  simp [Covers]

/-- Well-formed members contain a value when one of them covers the cut before it. -/
theorem contains_iff (h : ∀ i ∈ c, i.WellFormed) {v : α} :
    contains c v = true ↔ Covers c (.before v) := by
  rw [contains, List.any_eq_true, Covers]
  constructor
  · intro hboth
    obtain ⟨i, hi, hv⟩ := hboth
    exact ⟨i, hi, (h i hi).contains_iff.mp hv⟩
  · intro hboth
    obtain ⟨i, hi, hv⟩ := hboth
    exact ⟨i, hi, (h i hi).contains_iff.mpr hv⟩

end Covers

namespace Division

theorem nil : Division ([] : Collection α) :=
  ⟨by simp, .nil⟩

theorem tail (h : Division (i :: c)) : Division c :=
  ⟨fun j hj => h.proper j (List.mem_cons_of_mem i hj), h.ordered.tail⟩

theorem proper_head (h : Division (i :: c)) : i.Proper :=
  h.proper i List.mem_cons_self

variable [Std.TransOrd α] [Std.LawfulEqOrd α]

/-- A proper interval before all members of a division extends it. -/
theorem cons (hi : i.Proper) (hle : ∀ j ∈ c, i.upper.cut ≤ j.lower.cut) (hc : Division c) :
    Division (i :: c) := by
  refine ⟨List.forall_mem_cons.mpr ⟨hi, hc.proper⟩, List.pairwise_cons.mpr ⟨?_, hc.ordered⟩⟩
  exact fun j hj => Bound.cutOrder_ne_gt_iff.mpr (hle j hj)

/-- Divisions one after the other make a division. -/
theorem append (hc : Division c) (hd : Division d)
    (hle : ∀ i ∈ c, ∀ j ∈ d, i.upper.cut ≤ j.lower.cut) : Division (c ++ d) := by
  refine ⟨?_, List.pairwise_append.mpr ⟨hc.ordered, hd.ordered, ?_⟩⟩
  · intro i hi
    exact (List.mem_append.mp hi).elim (hc.proper i) (hd.proper i)
  · exact fun i hi j hj => Bound.cutOrder_ne_gt_iff.mpr (hle i hi j hj)

/-- The first member stops before every other one starts. -/
theorem upper_le_lower (h : Division (i :: c)) : ∀ j ∈ c, i.upper.cut ≤ j.lower.cut :=
  fun j hj => Bound.cutOrder_ne_gt_iff.mp ((List.pairwise_cons.mp h.ordered).1 j hj)

/-- No two members have anything in common. -/
theorem pairwise_intersects (h : Division c) : c.Pairwise fun i j => i.intersects j = false := by
  refine h.ordered.imp_of_mem fun hi hj hij => ?_
  exact intersects_eq_false (h.proper _ hi).wellFormed (h.proper _ hj).wellFormed
    (Bound.cutOrder_ne_gt_iff.mp hij)

/-- Nothing before the first member is covered. -/
theorem lower_le_of_covers (h : Division (i :: c)) (hp : Covers (i :: c) p) :
    i.lower.cut ≤ p := by
  rcases covers_cons.mp hp with hi | ⟨j, hj, hjp⟩
  · exact hi.1
  · calc
      i.lower.cut ≤ i.upper.cut := h.proper_head.cut_lt.le
      _ ≤ j.lower.cut := h.upper_le_lower j hj
      _ ≤ p := hjp.1

omit [Std.TransOrd α] [Std.LawfulEqOrd α] in
/-- Two different members lie apart. -/
theorem apart_of_ne (h : Division c) (hi : i ∈ c) (hj : j ∈ c) (hne : i ≠ j) : i.Apart j := by
  have hsymmetric : Std.Symm (Apart : Interval α → Interval α → Prop) := ⟨fun _ _ => Or.symm⟩
  have hpairwise : c.Pairwise Apart := h.ordered.imp Or.inl
  exact hpairwise.forall hi hj hne

/-- A boundary does not lie inside a member. -/
theorem le_or_le_of_mem_boundaries (h : Division c) (hi : i ∈ c) (hp : p ∈ boundaries c) :
    p ≤ i.lower.cut ∨ i.upper.cut ≤ p := by
  obtain ⟨j, hj, hjp⟩ := hp
  have hlt := (h.proper j hj).cut_lt
  by_cases heq : i = j
  · subst heq
    rcases hjp with rfl | rfl
    · exact Or.inl le_rfl
    · exact Or.inr le_rfl
  · rcases h.apart_of_ne hi hj heq with hij | hji
    · rw [Bound.cutOrder_ne_gt_iff] at hij
      rcases hjp with rfl | rfl
      · exact Or.inr hij
      · exact Or.inr (hij.trans hlt.le)
    · rw [Bound.cutOrder_ne_gt_iff] at hji
      rcases hjp with rfl | rfl
      · exact Or.inl (hlt.le.trans hji)
      · exact Or.inl hji

/-! ## What determines a division -/

/-- The first member starts at the first covered cut. -/
theorem lower_eq (hc : Division (i :: c)) (hd : Division (j :: d))
    (hcover : ∀ p, Covers (i :: c) p ↔ Covers (j :: d) p) : i.lower.cut = j.lower.cut := by
  have hi := hc.proper_head.cut_lt
  have hj := hd.proper_head.cut_lt
  apply le_antisymm
  · apply hc.lower_le_of_covers
    exact (hcover _).mpr (covers_cons.mpr (Or.inl ⟨le_rfl, hj⟩))
  · apply hd.lower_le_of_covers
    exact (hcover _).mp (covers_cons.mpr (Or.inl ⟨le_rfl, hi⟩))

/-- Of two divisions with one first cut and the same boundaries, the first member of one stops no
earlier than that of the other. -/
theorem upper_le (hc : Division (i :: c)) (hd : Division (j :: d))
    (hboundaries : ∀ p, p ∈ boundaries (i :: c) → p ∈ boundaries (j :: d))
    (hlower : i.lower.cut = j.lower.cut) : j.upper.cut ≤ i.upper.cut := by
  have hmem : i.upper.cut ∈ boundaries (j :: d) :=
    hboundaries _ (upper_mem_boundaries List.mem_cons_self)
  refine (hd.le_or_le_of_mem_boundaries List.mem_cons_self hmem).resolve_left ?_
  rw [← hlower, not_le]
  exact hc.proper_head.cut_lt

/-- Covering the same cuts with the same first member, the other members cover the same cuts. -/
theorem covers_tail (hc : Division (i :: c)) (hcover : Covers (i :: c) p → Covers (i :: d) p)
    (hp : Covers c p) : Covers d p := by
  obtain ⟨k, hk, hkp⟩ := hp
  rcases covers_cons.mp (hcover (covers_cons.mpr (Or.inr ⟨k, hk, hkp⟩))) with hi | hd
  · exact absurd (hi.2.trans_le (hc.upper_le_lower k hk)) hkp.1.not_gt
  · exact hd

/-- The boundaries of the other members come after the start of the first one. The cut at which
the first one stops is one of them exactly when it is covered. -/
theorem boundaries_tail (hc : Division (i :: c)) (hd : Division (i :: d))
    (hcover : ∀ p, Covers c p → Covers d p)
    (hboundaries : ∀ p, p ∈ boundaries (i :: c) → p ∈ boundaries (i :: d))
    (hp : p ∈ boundaries c) : p ∈ boundaries d := by
  have hi : i.lower.cut < i.upper.cut := hc.proper_head.cut_lt
  rcases mem_boundaries_cons.mp (hboundaries p (mem_boundaries_cons.mpr (Or.inr hp))) with
    (rfl | rfl) | hmem
  · obtain ⟨k, hk, hkp⟩ := hp
    have hik := hc.upper_le_lower k hk
    have hlt := (hc.tail.proper k hk).cut_lt
    rcases hkp with heq | heq
    · exact absurd (heq ▸ hik) hi.not_ge
    · exact absurd (heq ▸ (hik.trans hlt.le)) hi.not_ge
  · obtain ⟨k, hk, hkp⟩ := hp
    have hik := hc.upper_le_lower k hk
    have hlt := (hc.tail.proper k hk).cut_lt
    have hstart : k.lower.cut ≤ i.upper.cut := by
      rcases hkp with heq | heq
      · exact heq.ge
      · exact absurd (heq ▸ (hik.trans_lt hlt)) (lt_irrefl _)
    have hcovered : Covers c i.upper.cut := ⟨k, hk, hstart, hik.trans_lt hlt⟩
    obtain ⟨m, hm, hmp⟩ := hcover _ hcovered
    exact ⟨m, hm, Or.inl (le_antisymm (hd.upper_le_lower m hm) hmp.1)⟩
  · exact hmem

/-- A division is determined by the cuts that it covers and its boundaries. -/
theorem eq_of_covers_iff (hc : Division c) (hd : Division d)
    (hcover : ∀ p, Covers c p ↔ Covers d p)
    (hboundaries : ∀ p, p ∈ boundaries c ↔ p ∈ boundaries d) : c = d := by
  induction c generalizing d with
  | nil =>
    cases d with
    | nil => rfl
    | cons j d =>
      have hmem := (hboundaries _).mpr (lower_mem_boundaries (List.mem_cons_self : j ∈ j :: d))
      exact (not_mem_boundaries_nil hmem).elim
  | cons i c ih =>
    cases d with
    | nil =>
      have hmem := (hboundaries _).mp (lower_mem_boundaries (List.mem_cons_self : i ∈ i :: c))
      exact (not_mem_boundaries_nil hmem).elim
    | cons j d =>
      have hi := hc.proper_head
      have hj := hd.proper_head
      have hlower : i.lower.cut = j.lower.cut := hc.lower_eq hd hcover
      have hupper : i.upper.cut = j.upper.cut := le_antisymm
        (upper_le hd hc (fun p => (hboundaries p).mpr) hlower.symm)
        (upper_le hc hd (fun p => (hboundaries p).mp) hlower)
      have hij : i = j := hi.eq_of_cut_eq hj hlower hupper
      subst hij
      have htail : ∀ p, Covers c p ↔ Covers d p := fun p =>
        ⟨covers_tail hc (hcover p).mp, covers_tail hd (hcover p).mpr⟩
      rw [ih hc.tail hd.tail htail fun p =>
        ⟨boundaries_tail hc hd (fun p => (htail p).mp) (fun p => (hboundaries p).mp),
          boundaries_tail hd hc (fun p => (htail p).mpr) (fun p => (hboundaries p).mpr)⟩]

end Division

end Collection

end Almanac
