import Almanac.Proofs.Interval.Union

/-!
# The complement

The complement walks through the highest union and keeps the lower bound at which the next gap
starts. A gap is the part between that bound and the next member, or the upmost limit; it is left
out when nothing lies between the two cuts. The walk of a canonical collection gives a canonical
one again, and since both are determined by what they cover, the complement of the complement is
the highest union itself.
-/

namespace Almanac.Collection

open Almanac.Interval

variable {α : Type} [Ord α]

/-- The gap from a lower bound to the next member of a collection, if there is room for one. -/
def gapBefore (start lower : Bound α) : List (Interval α) :=
  if start.cutOrder lower = .lt then
    (lower.reverse?.bind fun stop => (Interval.ofBounds start stop).toOption).toList
  else []

theorem gapsFrom_cons (upmost start : Bound α) (i : Interval α) (rest : List (Interval α)) :
    gapsFrom upmost (some start) (i :: rest) =
      gapBefore start i.lower ++ gapsFrom upmost (i.upper.reverse?.map start.max) rest := rfl

variable [Std.TransOrd α] [Std.LawfulEqOrd α] {limits : Limits α} {c : Collection α}
  {i : Interval α} {start upmost : Bound α}

/-- A gap before a member is one proper interval, unless the member starts at the gap. -/
theorem gapBefore_cases (hstart : start.Valid) (hside : start.side = .lower) (hi : i.Proper)
    (hle : start.cut ≤ i.lower.cut) :
    (start.cut = i.lower.cut ∧ gapBefore start i.lower = []) ∨
      ∃ g : Interval α, g.Proper ∧ g.lower = start ∧ g.upper.cut = i.lower.cut ∧
        gapBefore start i.lower = [g] := by
  unfold gapBefore
  by_cases hlt : start.cut < i.lower.cut
  · rw [if_pos (Bound.cutOrder_eq_lt_iff.mpr hlt)]
    have hne_start : i.lower.cut ≠ .start := ((Cut.start_le _).trans_lt hlt).ne'
    have hne_stop : i.lower.cut ≠ .stop :=
      hi.wellFormed.valid_lower.cut_ne_stop hi.wellFormed.side_lower
    obtain ⟨stop, hstop⟩ := Bound.exists_reverse? hne_start hne_stop
    have hcut : stop.cut = i.lower.cut := Bound.cut_of_reverse? hstop
    have hupper : stop.side = .upper := by
      rw [Bound.side_of_reverse? hstop, hi.wellFormed.side_lower]
      rfl
    have hproper : (⟨start, stop⟩ : Interval α).Proper :=
      proper_of_cut_lt hstart (Bound.valid_of_reverse? hstop) hside hupper (hcut ▸ hlt)
    refine Or.inr ⟨⟨start, stop⟩, hproper, rfl, hcut, ?_⟩
    have hok : ofBounds start stop = .ok ⟨start, stop⟩ := hproper.wellFormed.ofBounds_eq_ok
    rw [hstop, Option.bind_some, hok]
    rfl
  · rw [if_neg (mt Bound.cutOrder_eq_lt_iff.mp hlt)]
    exact Or.inl ⟨le_antisymm hle (not_lt.mp hlt), rfl⟩

/-- The next gap starts where the member stops. -/
theorem cut_max_of_reverse? {next : Bound α} (hnext : i.upper.reverse? = some next)
    (hi : i.Proper) (hle : start.cut ≤ i.lower.cut) : (start.max next).cut = i.upper.cut := by
  have hcut : next.cut = i.upper.cut := Bound.cut_of_reverse? hnext
  rw [Bound.cut_max, hcut]
  exact sup_eq_right.mpr (hle.trans hi.cut_lt.le)

/-- An interval that stops at the upper infinity is the last one of a canonical collection. -/
theorem Canonical.eq_nil_of_reverse? (h : Canonical (i :: c)) (hupper : i.upper.reverse? = none) :
    i.upper.cut = .stop ∧ c = [] := by
  have hi := h.proper_head.wellFormed
  have hstop : i.upper.cut = .stop :=
    hi.valid_upper.cut_eq_stop hi.side_upper (Bound.reverse?_eq_none_iff.mp hupper)
  refine ⟨hstop, List.eq_nil_iff_forall_not_mem.mpr fun j hj => ?_⟩
  have hlt := h.upper_lt_lower j hj
  rw [hstop] at hlt
  exact hlt.not_ge (Cut.le_stop _)

/-- A canonical collection of what lies from one cut to another outside a collection. -/
structure IsGaps (low high : Cut α) (c gaps : Collection α) : Prop where
  canonical : Canonical gaps
  le_lower : ∀ j ∈ gaps, low ≤ j.lower.cut
  covers_iff : ∀ p, Covers gaps p ↔ (low ≤ p ∧ p < high) ∧ ¬Covers c p

namespace IsGaps

variable {low high : Cut α} {gaps : Collection α} {g : Interval α}

theorem of_le (h : high ≤ low) : IsGaps low high c [] := by
  refine ⟨.nil, by simp, fun p => iff_of_false not_covers_nil ?_⟩
  intro hboth
  obtain ⟨⟨hp, hph⟩, -⟩ := hboth
  exact (hp.trans_lt hph).not_ge h

theorem single (hg : g.Proper) : IsGaps g.lower.cut g.upper.cut [] [g] := by
  refine ⟨.singleton hg, ?_, fun p => ?_⟩
  · intro j hj
    rw [List.mem_singleton.mp hj]
  · simp [Covers, Interval.Covers]

/-- Before a member that starts at the first cut there is no gap. -/
theorem skip (hc : Canonical (i :: c)) (h : IsGaps i.upper.cut high c gaps) :
    IsGaps i.lower.cut high (i :: c) gaps := by
  have hi : i.lower.cut ≤ i.upper.cut := hc.proper_head.cut_lt.le
  refine ⟨h.canonical, fun j hj => hi.trans (h.le_lower j hj), fun p => ?_⟩
  rw [h.covers_iff, covers_cons, Interval.Covers]
  constructor
  · intro hboth
    obtain ⟨⟨hp, hph⟩, hout⟩ := hboth
    refine ⟨⟨hi.trans hp, hph⟩, ?_⟩
    intro hcase
    rcases hcase with ⟨-, hin⟩ | hin
    · exact hin.not_ge hp
    · exact hout hin
  · intro hboth
    obtain ⟨⟨hp, hph⟩, hout⟩ := hboth
    rw [not_or, not_and, not_lt] at hout
    exact ⟨⟨hout.1 hp, hph⟩, hout.2⟩

/-- A gap that stops where the first member starts. -/
theorem cons (hc : Canonical (i :: c)) (hg : g.Proper) (hgap : g.upper.cut = i.lower.cut)
    (hhigh : i.upper.cut ≤ high) (h : IsGaps i.upper.cut high c gaps) :
    IsGaps g.lower.cut high (i :: c) (g :: gaps) := by
  have hi : i.lower.cut < i.upper.cut := hc.proper_head.cut_lt
  have hlt : g.lower.cut < i.lower.cut := hgap ▸ hg.cut_lt
  have hskip : IsGaps i.lower.cut high (i :: c) gaps := h.skip hc
  refine ⟨h.canonical.cons hg fun j hj => ?_, ?_, fun p => ?_⟩
  · rw [hgap]
    exact hi.trans_le (h.le_lower j hj)
  · intro j hj
    rcases List.mem_cons.mp hj with rfl | hj
    · exact le_rfl
    · exact hlt.le.trans (hskip.le_lower j hj)
  · rw [covers_cons, hskip.covers_iff, Interval.Covers, hgap]
    constructor
    · intro hcase
      rcases hcase with ⟨hp, hpl⟩ | ⟨⟨hp, hph⟩, hout⟩
      · refine ⟨⟨hp, (hpl.trans hi).trans_le hhigh⟩, fun hin => ?_⟩
        exact hpl.not_ge (hc.division.lower_le_of_covers hin)
      · exact ⟨⟨hlt.le.trans hp, hph⟩, hout⟩
    · intro hboth
      obtain ⟨⟨hp, hph⟩, hout⟩ := hboth
      rcases lt_or_ge p i.lower.cut with hpl | hpl
      · exact Or.inl ⟨hp, hpl⟩
      · exact Or.inr ⟨⟨hpl, hph⟩, hout⟩

end IsGaps

/-- The walk through a canonical collection finds its gaps up to the upmost limit. -/
theorem isGaps_gapsFrom (hupmost : upmost.Valid) (hupper : upmost.side = .upper)
    (hstart : start.Valid) (hlower : start.side = .lower) (hc : Canonical c)
    (hafter : ∀ i ∈ c, start.cut ≤ i.lower.cut) (hwithin : ∀ i ∈ c, i.upper.cut ≤ upmost.cut) :
    IsGaps start.cut upmost.cut c (gapsFrom upmost (some start) c) := by
  induction c generalizing start with
  | nil =>
    unfold gapsFrom
    by_cases hlt : start.cut < upmost.cut
    · have hproper : (⟨start, upmost⟩ : Interval α).Proper :=
        proper_of_cut_lt hstart hupmost hlower hupper hlt
      have hok : ofBounds start upmost = .ok ⟨start, upmost⟩ := hproper.wellFormed.ofBounds_eq_ok
      rw [if_pos (Bound.cutOrder_eq_lt_iff.mpr hlt), hok]
      exact .single hproper
    · rw [if_neg (mt Bound.cutOrder_eq_lt_iff.mp hlt)]
      exact .of_le (not_lt.mp hlt)
  | cons i rest ih =>
    have hi : i.Proper := hc.proper_head
    have hle : start.cut ≤ i.lower.cut := hafter i List.mem_cons_self
    have hiu : i.upper.cut ≤ upmost.cut := hwithin i List.mem_cons_self
    have hrest : IsGaps i.upper.cut upmost.cut rest
        (gapsFrom upmost (i.upper.reverse?.map start.max) rest) := by
      cases hnext : i.upper.reverse? with
      | none =>
        obtain ⟨hstop, rfl⟩ := hc.eq_nil_of_reverse? hnext
        exact .of_le (hstop ▸ Cut.le_stop _)
      | some next =>
        have hcut := cut_max_of_reverse? hnext hi hle
        have hside : next.side = .lower := by
          rw [Bound.side_of_reverse? hnext, hi.wellFormed.side_upper]
          rfl
        have hvalid : (start.max next).Valid :=
          Bound.max_induction hstart (Bound.valid_of_reverse? hnext)
        have hmax : (start.max next).side = .lower :=
          Bound.max_induction (p := (·.side = .lower)) hlower hside
        rw [Option.map_some, ← hcut]
        refine ih hvalid hmax hc.tail (fun k hk => ?_)
          (fun k hk => hwithin k (List.mem_cons_of_mem i hk))
        rw [hcut]
        exact (hc.upper_lt_lower k hk).le
    rw [gapsFrom_cons]
    rcases gapBefore_cases hstart hlower hi hle with ⟨heq, hgap⟩ | ⟨g, hg, hgl, hgu, hgap⟩
    · rw [hgap, List.nil_append, heq]
      exact hrest.skip hc
    · subst hgl
      rw [hgap, List.singleton_append]
      exact hrest.cons hc hg hgu hiu

/-- The members of a canonical collection that covers nothing beyond a proper interval lie within
its bounds. -/
theorem Canonical.within (h : Canonical c) {w : Interval α}
    (hcovers : ∀ p, Covers c p → w.Covers p) (hi : i ∈ c) :
    w.lower.cut ≤ i.lower.cut ∧ i.upper.cut ≤ w.upper.cut :=
  (h.proper i hi).within fun p hp => hcovers p ⟨i, hi, hp⟩

/-- The complement is canonical and covers what the collection leaves out within the limits. -/
theorem complement_spec (hlimits : limits.InForce) (hc : ∀ i ∈ c, i.WellFormed) :
    Canonical (complement limits c) ∧
      ∀ p, Covers (complement limits c) p ↔ (whole limits).Covers p ∧ ¬Covers c p := by
  obtain ⟨hunion, hcovers⟩ := union_highest_spec hlimits hc
  have hwhole := hlimits.proper_whole.wellFormed
  have hwithin := fun i => hunion.within (i := i) fun p hp => ((hcovers p).mp hp).2
  have hgaps : IsGaps (whole limits).lower.cut (whole limits).upper.cut
      (union limits .highest c) (complement limits c) :=
    isGaps_gapsFrom hwhole.valid_upper hwhole.side_upper hwhole.valid_lower hwhole.side_lower
      hunion (fun i hi => (hwithin i hi).1) (fun i hi => (hwithin i hi).2)
  refine ⟨hgaps.canonical, fun p => (hgaps.covers_iff p).trans ?_⟩
  rw [hcovers]
  constructor
  · intro hboth
    obtain ⟨hp, hout⟩ := hboth
    exact ⟨hp, fun hin => hout ⟨hin, hp⟩⟩
  · intro hboth
    obtain ⟨hp, hout⟩ := hboth
    exact ⟨hp, fun hin => hout hin.1⟩

/-- For limits in force and well-formed members, the complement is canonical, contains the values
within the limits that no member contains, and has the highest union as its own complement. -/
theorem canonical_complement (hlimits : limits.InForce) (hc : ∀ i ∈ c, i.WellFormed) :
    Canonical (complement limits c) ∧
      (∀ v, contains (complement limits c) v = true ↔
        (whole limits).contains v = true ∧ ¬contains c v = true) ∧
      complement limits (complement limits c) = union limits .highest c := by
  obtain ⟨hcanonical, hcovers⟩ := complement_spec hlimits hc
  obtain ⟨hunion, hcoversUnion⟩ := union_highest_spec hlimits hc
  have hproper : ∀ i ∈ complement limits c, i.WellFormed :=
    fun i hi => (hcanonical.proper i hi).wellFormed
  obtain ⟨htwice, hcoversTwice⟩ := complement_spec hlimits hproper
  refine ⟨hcanonical, fun v => ?_, ?_⟩
  · rw [contains_iff hproper, contains_iff hc, hlimits.proper_whole.wellFormed.contains_iff]
    exact hcovers (.before v)
  · apply htwice.eq_of_covers_iff hunion
    intro p
    rw [hcoversTwice, hcovers, hcoversUnion]
    constructor
    · intro hboth
      obtain ⟨hp, hout⟩ := hboth
      refine ⟨?_, hp⟩
      by_contra hin
      exact hout ⟨hp, hin⟩
    · intro hboth
      obtain ⟨hin, hp⟩ := hboth
      exact ⟨hp, fun hout => hout.2 hin⟩

theorem canonical_complement_of_ragged :
    digits.InForce ∧ (∀ i ∈ ragged, i.WellFormed) ∧
      Canonical (complement digits ragged) ∧
      contains (complement digits ragged) 4 = false ∧
      contains (complement digits ragged) 5 = true ∧
      contains (complement digits ragged) 9 = false ∧
      complement digits (complement digits ragged) = union digits .highest ragged := by
  obtain ⟨hcanonical, hcontains, htwice⟩ :=
    canonical_complement inForce_digits wellFormed_of_mem_ragged
  refine ⟨inForce_digits, wellFormed_of_mem_ragged, hcanonical, ?_, ?_, ?_, htwice⟩
  · exact Bool.eq_false_iff.mpr (mt (hcontains 4).mp (by decide))
  · exact (hcontains 5).mpr (by decide)
  · exact Bool.eq_false_iff.mpr (mt (hcontains 9).mp (by decide))

end Almanac.Collection
