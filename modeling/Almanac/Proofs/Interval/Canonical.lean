import Almanac.Proofs.Interval.Division
import Mathlib.Data.List.Chain

/-!
# Canonical collections

A collection is canonical when its members are proper, come from left to right and neither
overlap nor touch. Every set of cuts is covered by at most one canonical collection: the first
member starts at the first covered cut and stops at the first cut after it that is not covered.
Equalities between collections are therefore equalities between what they cover.
-/

namespace Almanac.Collection

open Almanac.Interval

variable {α : Type} [Ord α]

/-- The members are proper, and each one stops strictly before the next one starts. -/
structure Canonical (c : Collection α) : Prop where
  proper : ∀ i ∈ c, i.Proper
  apart : c.IsChain fun i j => i.upper.cutOrder j.lower = .lt

variable {c d : Collection α} {i j : Interval α} {p : Cut α}

namespace Canonical

theorem nil : Canonical ([] : Collection α) :=
  ⟨by simp, .nil⟩

theorem tail (h : Canonical (i :: c)) : Canonical c :=
  ⟨fun j hj => h.proper j (List.mem_cons_of_mem i hj), h.apart.tail⟩

theorem proper_head (h : Canonical (i :: c)) : i.Proper :=
  h.proper i List.mem_cons_self

variable [Std.TransOrd α] [Std.LawfulEqOrd α]

/-- A proper interval before all members of a canonical collection extends it. -/
theorem cons (hi : i.Proper) (hlt : ∀ j ∈ c, i.upper.cut < j.lower.cut) (hc : Canonical c) :
    Canonical (i :: c) := by
  refine ⟨?_, ?_⟩
  · intro j hj
    rcases List.mem_cons.mp hj with rfl | hj
    · exact hi
    · exact hc.proper j hj
  · cases c with
    | nil => exact .singleton i
    | cons j rest =>
      refine List.isChain_cons_cons.mpr ⟨?_, hc.apart⟩
      exact Bound.cutOrder_eq_lt_iff.mpr (hlt j List.mem_cons_self)

theorem singleton (hi : i.Proper) : Canonical [i] :=
  cons hi (by simp) nil

/-- The first member stops before every other one starts. -/
theorem upper_lt_lower (h : Canonical (i :: c)) : ∀ j ∈ c, i.upper.cut < j.lower.cut := by
  induction c generalizing i with
  | nil => simp
  | cons k rest ih =>
    have hik : i.upper.cut < k.lower.cut :=
      Bound.cutOrder_eq_lt_iff.mp (List.isChain_cons_cons.mp h.apart).1
    intro j hj
    rcases List.mem_cons.mp hj with rfl | hj
    · exact hik
    · have hk : k.lower.cut < k.upper.cut := h.tail.proper_head.cut_lt
      exact hik.trans (hk.trans (ih h.tail j hj))

/-- Each member stops before every later one starts. -/
theorem pairwise (h : Canonical c) : c.Pairwise fun i j => i.upper.cut < j.lower.cut := by
  induction c with
  | nil => exact .nil
  | cons i rest ih => exact List.pairwise_cons.mpr ⟨h.upper_lt_lower, ih h.tail⟩

/-- The members of a canonical collection make a division. -/
theorem division (h : Canonical c) : Division c := by
  induction c with
  | nil => exact .nil
  | cons i rest ih => exact (ih h.tail).cons h.proper_head fun j hj => (h.upper_lt_lower j hj).le

/-- The cut at which the first member stops is not covered. -/
theorem not_covers_upper (h : Canonical (i :: c)) : ¬Covers (i :: c) i.upper.cut := by
  intro hp
  rcases covers_cons.mp hp with hi | ⟨j, hj, hjp⟩
  · exact lt_irrefl _ hi.2
  · exact (h.upper_lt_lower j hj).not_ge hjp.1

/-- A first member that starts where another one does stops no later, if the other collection
covers no more. -/
theorem upper_le (hd : Canonical (j :: d))
    (hcover : ∀ p, Covers (i :: c) p → Covers (j :: d) p)
    (hlower : i.lower.cut = j.lower.cut) : i.upper.cut ≤ j.upper.cut := by
  by_contra hlt
  rw [not_le] at hlt
  apply hd.not_covers_upper
  apply hcover
  refine covers_cons.mpr (Or.inl ⟨?_, hlt⟩)
  rw [hlower]
  exact hd.proper_head.cut_lt.le

/-- A canonical collection is determined by the cuts that it covers. -/
theorem eq_of_covers_iff (hc : Canonical c) (hd : Canonical d)
    (hcover : ∀ p, Covers c p ↔ Covers d p) : c = d := by
  induction c generalizing d with
  | nil =>
    cases d with
    | nil => rfl
    | cons j d =>
      have hj := hd.proper_head.cut_lt
      have hcovers : Covers (j :: d) j.lower.cut := covers_cons.mpr (Or.inl ⟨le_rfl, hj⟩)
      exact (not_covers_nil ((hcover _).mpr hcovers)).elim
  | cons i c ih =>
    cases d with
    | nil =>
      have hi := hc.proper_head.cut_lt
      have hcovers : Covers (i :: c) i.lower.cut := covers_cons.mpr (Or.inl ⟨le_rfl, hi⟩)
      exact (not_covers_nil ((hcover _).mp hcovers)).elim
    | cons j d =>
      have hi := hc.proper_head
      have hj := hd.proper_head
      have hlower : i.lower.cut = j.lower.cut := hc.division.lower_eq hd.division hcover
      have hupper : i.upper.cut = j.upper.cut := le_antisymm
        (upper_le hd (fun p => (hcover p).mp) hlower)
        (upper_le hc (fun p => (hcover p).mpr) hlower.symm)
      have hij : i = j := hi.eq_of_cut_eq hj hlower hupper
      subst hij
      rw [ih hc.tail hd.tail fun p =>
        ⟨hc.division.covers_tail (hcover p).mp, hd.division.covers_tail (hcover p).mpr⟩]

end Canonical

end Almanac.Collection
