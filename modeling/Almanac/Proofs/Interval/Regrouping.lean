import Almanac.Proofs.Interval.Partition

/-!
# Regrouping members

What a union depends on is small: the highest union is the one canonical collection that covers
what the members cover within the limits, and the lowest union is the one division that has also
their boundaries there. Neither the order of the members nor their number enters, an empty member
covers nothing and has no boundary, and a part of the members may be replaced by a union of it
wherever only the covered cuts matter.
-/

namespace Almanac.Collection

open Almanac.Interval

variable {α : Type} [Ord α] {limits : Limits α} {c c' c₁ c₂ es : Collection α} {i : Interval α}
  {p : Cut α}

/-! ## What the limits leave of the members -/

theorem membersWithin_append (c c' : Collection α) :
    membersWithin limits (c ++ c') = membersWithin limits c ++ membersWithin limits c' := by
  simp only [membersWithin, List.map_append, List.filter_append]

theorem mem_membersWithin_congr (hsame : ∀ j, j ∈ c ↔ j ∈ c') :
    i ∈ membersWithin limits c ↔ i ∈ membersWithin limits c' := by
  simp only [mem_membersWithin, mem_swept, hsame]

variable [Std.TransOrd α] [Std.LawfulEqOrd α]

theorem covers_append : Covers (c ++ c') p ↔ Covers c p ∨ Covers c' p := by
  simp only [Covers, List.mem_append, or_and_right, exists_or]

theorem covers_membersWithin (hlimits : limits.InForce) (hc : ∀ i ∈ c, i.WellFormed) :
    Covers (membersWithin limits c) p ↔ Covers c p ∧ (whole limits).Covers p := by
  rw [← covers_swept hlimits hc]
  exact exists_congr fun i => and_congr_left' mem_membersWithin

/-- The limits leave nothing of an empty interval. -/
theorem membersWithin_eq_nil (hlimits : limits.InForce)
    (hes : ∀ e ∈ es, e.WellFormed ∧ e.isEmpty = true) : membersWithin limits es = [] := by
  refine List.eq_nil_iff_forall_not_mem.mpr fun i hi => ?_
  obtain ⟨⟨e, he, rfl⟩, hproper⟩ := mem_swept.mp (mem_membersWithin.mp hi)
  obtain ⟨hwell, hempty⟩ := hes e he
  obtain ⟨p, hp⟩ := isEmpty_eq_false_iff_exists.mp hproper
  have hcovers : e.Covers p := ((covers_clipped hlimits hwell).mp hp).1
  rw [isEmpty_eq_false_iff_exists.mpr ⟨p, hcovers⟩] at hempty
  exact Bool.false_ne_true hempty

/-! ## What determines a union -/

/-- The highest union depends on what the members cover alone. -/
theorem union_highest_congr (hlimits : limits.InForce) (hc : ∀ i ∈ c, i.WellFormed)
    (hc' : ∀ i ∈ c', i.WellFormed)
    (hcovers : ∀ p, (whole limits).Covers p → (Covers c p ↔ Covers c' p)) :
    union limits .highest c = union limits .highest c' := by
  obtain ⟨hcanonical, hunion⟩ := union_highest_spec hlimits hc
  obtain ⟨hcanonical', hunion'⟩ := union_highest_spec hlimits hc'
  refine hcanonical.eq_of_covers_iff hcanonical' fun p => ?_
  rw [hunion, hunion']
  exact and_congr_left (hcovers p)

/-- Neither union depends on more than which intervals the limits leave. -/
theorem union_congr (hlimits : limits.InForce) (hc : ∀ i ∈ c, i.WellFormed)
    (hc' : ∀ i ∈ c', i.WellFormed)
    (hmembers : ∀ i, i ∈ membersWithin limits c ↔ i ∈ membersWithin limits c')
    (d : Denominator) : union limits d c = union limits d c' := by
  have hcovers : ∀ p, Covers c p ∧ (whole limits).Covers p ↔
      Covers c' p ∧ (whole limits).Covers p := by
    intro p
    rw [← covers_membersWithin hlimits hc, ← covers_membersWithin hlimits hc']
    exact exists_congr fun i => and_congr_left' (hmembers i)
  cases d with
  | highest =>
    exact union_highest_congr hlimits hc hc' fun p hp =>
      ⟨fun h => ((hcovers p).mp ⟨h, hp⟩).1, fun h => ((hcovers p).mpr ⟨h, hp⟩).1⟩
  | lowest =>
    obtain ⟨hdivision, hunion, hboundaries⟩ := union_lowest_spec hlimits hc
    obtain ⟨hdivision', hunion', hboundaries'⟩ := union_lowest_spec hlimits hc'
    refine hdivision.eq_of_covers_iff hdivision' (fun p => ?_) fun p => ?_
    · rw [hunion, hunion']
      exact hcovers p
    · rw [hboundaries, hboundaries']
      exact exists_congr fun i => and_congr_left' (hmembers i)

/-- A union covers what its members cover within the limits, however finely it is divided. -/
theorem union_spec (hlimits : limits.InForce) (hc : ∀ i ∈ c, i.WellFormed) (d : Denominator) :
    (∀ i ∈ union limits d c, i.Proper) ∧
      ∀ p, Covers (union limits d c) p ↔ Covers c p ∧ (whole limits).Covers p := by
  cases d with
  | highest =>
    obtain ⟨hcanonical, hcovers⟩ := union_highest_spec hlimits hc
    exact ⟨hcanonical.proper, hcovers⟩
  | lowest =>
    obtain ⟨hdivision, hcovers, -⟩ := union_lowest_spec hlimits hc
    exact ⟨hdivision.proper, hcovers⟩

/-- A union is its own union: its members have its boundaries, and cover what it covers. -/
theorem union_union (hlimits : limits.InForce) (hc : ∀ i ∈ c, i.WellFormed) (d : Denominator) :
    union limits d (union limits d c) = union limits d c := by
  obtain ⟨hproper, hcovers⟩ := union_spec hlimits hc d
  have hunion : ∀ i ∈ union limits d c, i.WellFormed := fun i hi => (hproper i hi).wellFormed
  cases d with
  | highest =>
    refine union_highest_congr hlimits hunion hc fun p hp => ?_
    rw [hcovers, and_iff_left hp]
  | lowest =>
    obtain ⟨hdivision, -, -⟩ := union_lowest_spec hlimits hc
    obtain ⟨htwice, hcoversTwice, hboundaries⟩ := union_lowest_spec hlimits hunion
    have hwithin : ∀ p, Covers (union limits .lowest c) p → (whole limits).Covers p :=
      fun p hp => ((hcovers p).mp hp).2
    rw [membersWithin_eq_self hlimits hproper hwithin] at hboundaries
    refine htwice.eq_of_covers_iff hdivision (fun p => ?_) fun p => by rw [hboundaries]
    rw [hcoversTwice, and_iff_left_of_imp (hwithin p)]

/-- For limits in force and well-formed members, a highest union may be formed from unions of
parts, and neither union changes when the members are permuted, when one of them is repeated or
when empty intervals are added. -/
theorem union_regrouped (hlimits : limits.InForce) (hc₁ : ∀ i ∈ c₁, i.WellFormed)
    (hc₂ : ∀ i ∈ c₂, i.WellFormed) :
    (∀ d₁ d₂, union limits .highest (c₁ ++ c₂) =
      union limits .highest (union limits d₁ c₁ ++ union limits d₂ c₂)) ∧
      ∀ d,
        (∀ c, c.Perm c₁ → union limits d c = union limits d c₁) ∧
        (∀ i ∈ c₁, union limits d (i :: c₁) = union limits d c₁) ∧
        ∀ es, (∀ e ∈ es, e.WellFormed ∧ e.isEmpty = true) →
          union limits d (es ++ c₁) = union limits d c₁ := by
  refine ⟨fun d₁ d₂ => ?_, fun d => ⟨fun c hperm => ?_, fun i hi => ?_, fun es hes => ?_⟩⟩
  · obtain ⟨hproper₁, hcovers₁⟩ := union_spec hlimits hc₁ d₁
    obtain ⟨hproper₂, hcovers₂⟩ := union_spec hlimits hc₂ d₂
    apply union_highest_congr hlimits
    · exact List.forall_mem_append.mpr ⟨hc₁, hc₂⟩
    · exact List.forall_mem_append.mpr
        ⟨fun i hi => (hproper₁ i hi).wellFormed, fun i hi => (hproper₂ i hi).wellFormed⟩
    · intro p hp
      rw [covers_append, covers_append, hcovers₁, hcovers₂, and_iff_left hp, and_iff_left hp]
  · have hc : ∀ i ∈ c, i.WellFormed := fun i hi => hc₁ i (hperm.mem_iff.mp hi)
    exact union_congr hlimits hc hc₁ (fun i => mem_membersWithin_congr fun j => hperm.mem_iff) d
  · have hrepeated : ∀ j ∈ i :: c₁, j.WellFormed := List.forall_mem_cons.mpr ⟨hc₁ i hi, hc₁⟩
    have hsame : ∀ j, j ∈ i :: c₁ ↔ j ∈ c₁ :=
      fun j => List.mem_cons.trans (or_iff_right_of_imp fun heq => heq ▸ hi)
    exact union_congr hlimits hrepeated hc₁ (fun j => mem_membersWithin_congr hsame) d
  · have hadded : ∀ j ∈ es ++ c₁, j.WellFormed :=
      List.forall_mem_append.mpr ⟨fun e he => (hes e he).1, hc₁⟩
    refine union_congr hlimits hadded hc₁ (fun j => ?_) d
    rw [membersWithin_append, membersWithin_eq_nil hlimits hes, List.nil_append]

theorem union_regrouped_of_ragged :
    digits.InForce ∧ (∀ i ∈ ragged, i.WellFormed) ∧
      (∀ i ∈ ragged.reverse, i.WellFormed) ∧
      union digits .highest (ragged ++ ragged.reverse) =
        union digits .highest
          (union digits .lowest ragged ++ union digits .highest ragged.reverse) ∧
      union digits .lowest ragged.reverse = union digits .lowest ragged ∧
      union digits .lowest (.empty 8 :: ragged) = union digits .lowest ragged ∧
      union digits .lowest (.empty 3 :: ragged) = union digits .lowest ragged := by
  have hreversed : ∀ i ∈ ragged.reverse, i.WellFormed :=
    fun i hi => wellFormed_of_mem_ragged i (List.mem_reverse.mp hi)
  obtain ⟨hparts, hmembers⟩ :=
    union_regrouped inForce_digits wellFormed_of_mem_ragged hreversed
  obtain ⟨hpermuted, hrepeated, hadded⟩ := hmembers .lowest
  refine ⟨inForce_digits, wellFormed_of_mem_ragged, hreversed, hparts .lowest .highest, ?_, ?_, ?_⟩
  · exact hpermuted _ (List.reverse_perm ragged)
  · refine hadded [.empty 8] fun e he => ?_
    rw [List.mem_singleton.mp he]
    exact ⟨wellFormed_empty 8, by decide⟩
  · exact hrepeated (.empty 3) (by decide)

end Almanac.Collection
