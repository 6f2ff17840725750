import Almanac.Proofs.Interval.Complement
import Almanac.Proofs.Interval.Regrouping
import Mathlib.Data.Set.Finite.Lemmas
import Mathlib.Data.Set.Finite.List

/-!
# Limits only clip

A union or a complement within limits is the one of the whole line, clipped afterwards. Clipping
keeps the members of a collection in order and apart, and covers what they cover within the
limits; this settles the highest union and the complement. A division needs its boundaries too.
Those strictly between the limits are boundaries without limits, the lower limit is one exactly
when it is covered, and the upper limit is one exactly when what lies right before it is covered.
So the boundaries within limits depend on boundaries and coverage alone.
-/

namespace Almanac

namespace Interval

variable {α : Type} [Ord α] [Std.TransOrd α] [Std.LawfulEqOrd α] {limits : Limits α}
  {i : Interval α}

/-- The limits leave something of an interval exactly when the inner cuts are in order, which
then are the cuts of what they leave. -/
theorem clipped_cases (hlimits : limits.InForce) (h : i.WellFormed) :
    (i.lower.cut ⊔ limits.lowest.cut < i.upper.cut ⊓ limits.upmost.cut ∧
        (i.clipped limits).isEmpty = false ∧
        (i.clipped limits).lower.cut = i.lower.cut ⊔ limits.lowest.cut ∧
        (i.clipped limits).upper.cut = i.upper.cut ⊓ limits.upmost.cut) ∨
      (i.upper.cut ⊓ limits.upmost.cut ≤ i.lower.cut ⊔ limits.lowest.cut ∧
        (i.clipped limits).isEmpty = true) := by
  rcases intersection_cases h.sided hlimits.proper_whole.wellFormed.sided with
    ⟨hlt, heq⟩ | ⟨hle, v, -, heq⟩
  · have hlower : (i.clipped limits).lower.cut = i.lower.cut ⊔ limits.lowest.cut := by
      rw [clipped, heq, Bound.cut_max]
      rfl
    have hupper : (i.clipped limits).upper.cut = i.upper.cut ⊓ limits.upmost.cut := by
      rw [clipped, heq, Bound.cut_min]
      rfl
    refine Or.inl ⟨hlt, ?_, hlower, hupper⟩
    rw [isEmpty_eq_false_iff, hlower, hupper]
    exact hlt
  · refine Or.inr ⟨hle, ?_⟩
    rw [clipped, heq, isEmpty_empty]

end Interval

namespace Collection

open Almanac.Interval

variable {α : Type} [Ord α] [Std.TransOrd α] [Std.LawfulEqOrd α] {limits : Limits α}
  {c c' : Collection α} {i j : Interval α} {p q : Cut α}

/-! ## The order of what is left -/

/-- The members within the limits keep every relation between the stop of one member and the
start of a later one that persists when the first stops earlier and the other starts later. -/
theorem pairwise_membersWithin {R : Cut α → Cut α → Prop}
    (hR : ∀ p p' q q', p' ≤ p → q ≤ q' → R p q → R p' q')
    (hlimits : limits.InForce) (hc : ∀ i ∈ c, i.WellFormed)
    (h : c.Pairwise fun i j => R i.upper.cut j.lower.cut) :
    (membersWithin limits c).Pairwise fun i j => R i.upper.cut j.lower.cut := by
  rw [membersWithin, List.pairwise_filter, List.pairwise_map]
  refine h.imp_of_mem fun {i j} hi hj hij hleft hright => ?_
  rw [Bool.not_eq_true'] at hleft hright
  rcases clipped_cases hlimits (hc i hi) with ⟨-, -, -, hupper⟩ | ⟨-, hempty⟩
  · rcases clipped_cases hlimits (hc j hj) with ⟨-, -, hlower, -⟩ | ⟨-, hempty⟩
    · rw [hupper, hlower]
      exact hR _ _ _ _ inf_le_left le_sup_left hij
    · rw [hempty] at hright
      cases hright
  · rw [hempty] at hleft
    cases hleft

theorem proper_of_mem_membersWithin (hlimits : limits.InForce) (hc : ∀ i ∈ c, i.WellFormed)
    (hi : i ∈ membersWithin limits c) : i.Proper :=
  proper_of_mem_swept hlimits hc (mem_membersWithin.mp hi)

/-- The limits leave a division of a division. -/
theorem Division.membersWithin (hlimits : limits.InForce) (h : Division c) :
    Division (membersWithin limits c) := by
  have hc : ∀ i ∈ c, i.WellFormed := fun i hi => (h.proper i hi).wellFormed
  refine ⟨fun i => proper_of_mem_membersWithin hlimits hc, ?_⟩
  simp only [Bound.cutOrder_ne_gt_iff]
  refine pairwise_membersWithin (R := (· ≤ ·)) ?_ hlimits hc ?_
  · intro p p' q q' hp hq hle
    exact hp.trans (hle.trans hq)
  · exact h.ordered.imp Bound.cutOrder_ne_gt_iff.mp

/-- The limits leave a canonical collection of a canonical one. -/
theorem Canonical.membersWithin (hlimits : limits.InForce) (h : Canonical c) :
    Canonical (membersWithin limits c) := by
  have hc : ∀ i ∈ c, i.WellFormed := fun i hi => (h.proper i hi).wellFormed
  refine ⟨fun i => proper_of_mem_membersWithin hlimits hc, List.Pairwise.isChain ?_⟩
  simp only [Bound.cutOrder_eq_lt_iff]
  refine pairwise_membersWithin (R := (· < ·)) ?_ hlimits hc h.pairwise
  intro p p' q q' hp hq hlt
  exact hp.trans_lt (hlt.trans_le hq)

/-! ## The boundaries of what is left -/

theorem mem_boundaries_membersWithin (hlimits : limits.InForce) (hc : ∀ i ∈ c, i.WellFormed) :
    p ∈ boundaries (membersWithin limits c) ↔
      ∃ i ∈ c, i.lower.cut ⊔ limits.lowest.cut < i.upper.cut ⊓ limits.upmost.cut ∧
        (p = i.lower.cut ⊔ limits.lowest.cut ∨ p = i.upper.cut ⊓ limits.upmost.cut) := by
  constructor
  · intro hboth
    obtain ⟨j, hj, hp⟩ := hboth
    obtain ⟨⟨i, hi, rfl⟩, hproper⟩ := mem_swept.mp (mem_membersWithin.mp hj)
    rcases clipped_cases hlimits (hc i hi) with ⟨hlt, -, hlower, hupper⟩ | ⟨-, hempty⟩
    · rw [hlower, hupper] at hp
      exact ⟨i, hi, hlt, hp⟩
    · rw [hempty] at hproper
      cases hproper
  · intro hboth
    obtain ⟨i, hi, hlt, hp⟩ := hboth
    rcases clipped_cases hlimits (hc i hi) with ⟨-, hproper, hlower, hupper⟩ | ⟨hle, -⟩
    · rw [← hlower, ← hupper] at hp
      exact ⟨_, mem_membersWithin.mpr (mem_swept.mpr ⟨⟨i, hi, rfl⟩, hproper⟩), hp⟩
    · exact absurd hlt hle.not_gt

/-- Without limits the boundaries are those of the members that are not empty. -/
theorem mem_boundaries_membersWithin_unlimited (hc : ∀ i ∈ c, i.WellFormed) :
    p ∈ boundaries (membersWithin .unlimited c) ↔
      ∃ i ∈ c, i.lower.cut < i.upper.cut ∧ (p = i.lower.cut ∨ p = i.upper.cut) := by
  have hlowest : (Limits.unlimited : Limits α).lowest.cut = .start := rfl
  have hupmost : (Limits.unlimited : Limits α).upmost.cut = .stop := rfl
  simp only [mem_boundaries_membersWithin .cleared hc, hlowest, hupmost,
    sup_eq_left.mpr (Cut.start_le _), inf_eq_left.mpr (Cut.le_stop _)]

/-- Some member starts before the cut and stops there or later. -/
def Reaches (c : Collection α) (q : Cut α) : Prop := ∃ i ∈ c, i.lower.cut < q ∧ q ≤ i.upper.cut

/-- A member reaches a cut when everything from an earlier cut on and before it is covered. -/
theorem reaches_iff : Reaches c q ↔ ∃ p < q, ∀ x, p ≤ x → x < q → Covers c x := by
  constructor
  · intro hboth
    obtain ⟨i, hi, hlower, hupper⟩ := hboth
    exact ⟨i.lower.cut, hlower, fun x hx hxq => ⟨i, hi, hx, hxq.trans_le hupper⟩⟩
  · intro hboth
    obtain ⟨p, hpq, hcovered⟩ := hboth
    obtain ⟨i, hi, hip⟩ := hcovered p le_rfl hpq
    have hfinite : {k | k ∈ c ∧ k.lower.cut < q}.Finite :=
      (List.finite_toSet c).subset fun k hk => hk.1
    -- Of the members that start before the cut, the one that stops last cannot stop before it.
    obtain ⟨k, ⟨hk, hkq⟩, hlast⟩ := Set.exists_max_image _ (fun k : Interval α => k.upper.cut)
      hfinite ⟨i, hi, hip.1.trans_lt hpq⟩
    refine ⟨k, hk, hkq, ?_⟩
    by_contra hbefore
    rw [not_le] at hbefore
    have hpk : p < k.upper.cut := hip.2.trans_le (hlast i ⟨hi, hip.1.trans_lt hpq⟩)
    obtain ⟨m, hm, hmk⟩ := hcovered k.upper.cut hpk.le hbefore
    exact (hlast m ⟨hm, hmk.1.trans_lt hbefore⟩).not_gt hmk.2

/-- A boundary within the limits is one without limits that lies strictly between them, the lower
limit if it is covered, or the upper limit if a member reaches it. -/
theorem mem_boundaries_membersWithin_iff (hlimits : limits.InForce)
    (hc : ∀ i ∈ c, i.WellFormed) :
    p ∈ boundaries (membersWithin limits c) ↔
      (p ∈ boundaries (membersWithin .unlimited c) ∧
        limits.lowest.cut < p ∧ p < limits.upmost.cut) ∨
      (p = limits.lowest.cut ∧ Covers c p) ∨ (p = limits.upmost.cut ∧ Reaches c p) := by
  have hroom : limits.lowest.cut < limits.upmost.cut := hlimits.proper_whole.cut_lt
  rw [mem_boundaries_membersWithin hlimits hc, mem_boundaries_membersWithin_unlimited hc]
  simp only [sup_lt_iff, lt_inf_iff]
  constructor
  · intro hboth
    obtain ⟨i, hi, ⟨⟨hproper, hafter⟩, hbefore, -⟩, rfl | rfl⟩ := hboth
    · rcases lt_or_ge limits.lowest.cut i.lower.cut with hinner | houter
      · rw [sup_eq_left.mpr hinner.le]
        exact Or.inl ⟨⟨i, hi, hproper, Or.inl rfl⟩, hinner, hbefore⟩
      · rw [sup_eq_right.mpr houter]
        exact Or.inr (Or.inl ⟨rfl, i, hi, houter, hafter⟩)
    · rcases lt_or_ge i.upper.cut limits.upmost.cut with hinner | houter
      · rw [inf_eq_left.mpr hinner.le]
        exact Or.inl ⟨⟨i, hi, hproper, Or.inr rfl⟩, hafter, hinner⟩
      · rw [inf_eq_right.mpr houter]
        exact Or.inr (Or.inr ⟨rfl, i, hi, hbefore, houter⟩)
  · intro hcases
    rcases hcases with ⟨⟨i, hi, hproper, rfl | rfl⟩, hlower, hupper⟩ |
      ⟨rfl, i, hi, hstart, hstop⟩ | ⟨rfl, i, hi, hstart, hstop⟩
    · exact ⟨i, hi, ⟨⟨hproper, hlower.trans hproper⟩, hupper, hroom⟩,
        Or.inl (sup_eq_left.mpr hlower.le).symm⟩
    · exact ⟨i, hi, ⟨⟨hproper, hlower⟩, hproper.trans hupper, hroom⟩,
        Or.inr (inf_eq_left.mpr hupper.le).symm⟩
    · exact ⟨i, hi, ⟨⟨hstart.trans_lt hstop, hstop⟩, hstart.trans_lt hroom, hroom⟩,
        Or.inl (sup_eq_right.mpr hstart).symm⟩
    · exact ⟨i, hi, ⟨⟨hstart.trans_le hstop, hroom.trans_le hstop⟩, hstart, hroom⟩,
        Or.inr (inf_eq_right.mpr hstop).symm⟩

/-- The boundaries within the limits depend on the boundaries without limits and on what is
covered. -/
theorem boundaries_membersWithin_congr (hlimits : limits.InForce) (hc : ∀ i ∈ c, i.WellFormed)
    (hc' : ∀ i ∈ c', i.WellFormed) (hcovers : ∀ p, Covers c p ↔ Covers c' p)
    (hboundaries :
      boundaries (membersWithin .unlimited c) = boundaries (membersWithin .unlimited c')) :
    boundaries (membersWithin limits c) = boundaries (membersWithin limits c') := by
  ext p
  rw [mem_boundaries_membersWithin_iff hlimits hc, mem_boundaries_membersWithin_iff hlimits hc',
    hboundaries, reaches_iff, reaches_iff]
  simp only [hcovers]

/-! ## Unions and complements -/

/-- Members cover nothing beyond the whole line. -/
theorem covers_whole_unlimited (hp : Covers c p) : (whole (.unlimited : Limits α)).Covers p := by
  obtain ⟨i, -, -, hupper⟩ := hp
  exact ⟨Cut.start_le p, hupper.trans_le (Cut.le_stop _)⟩

/-- Under every limits in force, a union or a complement is the one of the whole line with each
member clipped and the empty ones left out. -/
theorem union_eq_membersWithin (hlimits : limits.InForce) (hc : ∀ i ∈ c, i.WellFormed) :
    (∀ d, union limits d c = membersWithin limits (union .unlimited d c)) ∧
      complement limits c = membersWithin limits (complement .unlimited c) := by
  have hfree : ∀ d p, Covers (union .unlimited d c) p ↔ Covers c p := fun d p =>
    ((union_spec .cleared hc d).2 p).trans (and_iff_left_of_imp covers_whole_unlimited)
  refine ⟨fun d => ?_, ?_⟩
  · have hwell : ∀ i ∈ union .unlimited d c, i.WellFormed :=
      fun i hi => ((union_spec .cleared hc d).1 i hi).wellFormed
    have hcovers : ∀ p, Covers (union limits d c) p ↔
        Covers (membersWithin limits (union .unlimited d c)) p := by
      intro p
      rw [covers_membersWithin hlimits hwell, hfree]
      exact (union_spec hlimits hc d).2 p
    cases d with
    | highest =>
      have hcanonical := (union_highest_spec .cleared hc).1
      exact (union_highest_spec hlimits hc).1.eq_of_covers_iff
        (hcanonical.membersWithin hlimits) hcovers
    | lowest =>
      obtain ⟨hdivision, -, hboundaries⟩ := union_lowest_spec .cleared hc
      obtain ⟨hlimited, -, hboundariesLimited⟩ := union_lowest_spec hlimits hc
      refine hlimited.eq_of_covers_iff (hdivision.membersWithin hlimits) hcovers fun p => ?_
      rw [hboundariesLimited]
      have hsame : boundaries (membersWithin limits c) =
          boundaries (membersWithin limits (union .unlimited .lowest c)) := by
        apply boundaries_membersWithin_congr hlimits hc hwell
        · exact fun p => (hfree .lowest p).symm
        · rw [membersWithin_eq_self .cleared hdivision.proper
            fun p => covers_whole_unlimited, hboundaries]
      rw [hsame]
  · obtain ⟨hcanonical, hcovers⟩ := complement_spec .cleared hc
    obtain ⟨hlimited, hcoversLimited⟩ := complement_spec hlimits hc
    apply hlimited.eq_of_covers_iff (hcanonical.membersWithin hlimits)
    intro p
    have hwell : ∀ i ∈ complement .unlimited c, i.WellFormed :=
      fun i hi => (hcanonical.proper i hi).wellFormed
    rw [covers_membersWithin hlimits hwell, hcovers, hcoversLimited]
    constructor
    · intro hboth
      obtain ⟨hp, hout⟩ := hboth
      exact ⟨⟨⟨Cut.start_le p, hp.2.trans_le (Cut.le_stop _)⟩, hout⟩, hp⟩
    · intro hboth
      obtain ⟨⟨-, hout⟩, hp⟩ := hboth
      exact ⟨hp, hout⟩

theorem union_eq_membersWithin_of_ragged :
    digits.InForce ∧ (∀ i ∈ ragged, i.WellFormed) ∧
      union digits .highest ragged =
        membersWithin digits (union .unlimited .highest ragged) ∧
      union digits .lowest ragged = membersWithin digits (union .unlimited .lowest ragged) ∧
      complement digits ragged = membersWithin digits (complement .unlimited ragged) := by
  obtain ⟨hunion, hcomplement⟩ := union_eq_membersWithin inForce_digits wellFormed_of_mem_ragged
  exact ⟨inForce_digits, wellFormed_of_mem_ragged, hunion .highest, hunion .lowest, hcomplement⟩

end Collection

end Almanac
