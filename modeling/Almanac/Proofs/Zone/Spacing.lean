import Almanac.Zone.Basic
import Mathlib.Data.Int.Order.Basic
import Mathlib.Data.List.Chain
import Mathlib.Order.Basic

/-!
# Zones with changes far apart

The changes of most zones lie months apart. It is enough that neighbouring ones lie more than two
days apart: offsets are less than a day, so everything that happens to local readings around one
change happens within two days of it, where no other change interferes. Two instants at most two
days apart then have one offset, or there is a single change between them.
-/

namespace Almanac

/-- More than two days pass between an older change and a newer one. -/
def OffsetChange.FarAfter (newer older : OffsetChange) : Prop :=
  older.since + 172800 < newer.since

instance (newer older : OffsetChange) : Decidable (newer.FarAfter older) :=
  inferInstanceAs (Decidable (_ < _))

instance : Trans OffsetChange.FarAfter OffsetChange.FarAfter OffsetChange.FarAfter where
  trans {a b c} hab hbc := by
    unfold OffsetChange.FarAfter at hab hbc ⊢
    omega

namespace Zone

/-- Neighbouring changes lie more than two days apart. -/
def Spaced (z : Zone) : Prop := z.changes.IsChain OffsetChange.FarAfter

instance (z : Zone) : Decidable z.Spaced :=
  inferInstanceAs (Decidable (z.changes.IsChain OffsetChange.FarAfter))

/-- The clocks change at an instant, and at no other within two days of it. -/
structure SwitchesAt (z : Zone) (instant before after : Int) : Prop where
  offsetAt_of_lt : ∀ w, instant - 172800 ≤ w → w < instant → z.offsetAt w = before
  offsetAt_of_le : ∀ w, instant ≤ w → w ≤ instant + 172800 → z.offsetAt w = after

/-- Clocks jump forward over a reading by an amount, both in seconds. -/
def JumpsOver (z : Zone) (reading delta : Int) : Prop :=
  ∃ instant before, z.SwitchesAt instant before (before + delta) ∧ 0 < delta ∧
    instant + before ≤ reading ∧ reading < instant + before + delta

/-- Two changes of a clock within two days of each other are one. -/
theorem SwitchesAt.eq_of_near {z : Zone} {instant before after instant' before' after' : Int}
    (h : z.SwitchesAt instant before after) (h' : z.SwitchesAt instant' before' after')
    (hne : before ≠ after) (hne' : before' ≠ after') (hnear : instant - 172800 ≤ instant')
    (hnear' : instant' - 172800 ≤ instant) :
    instant = instant' ∧ before = before' ∧ after = after' := by
  -- Right before a change and at it the offset is the one before and the one after.
  have hbefore := h.offsetAt_of_lt (instant - 1) (by omega) (by omega)
  have hafter := h.offsetAt_of_le instant le_rfl (by omega)
  have hbefore' := h'.offsetAt_of_lt (instant' - 1) (by omega) (by omega)
  have hafter' := h'.offsetAt_of_le instant' le_rfl (by omega)
  rcases lt_trichotomy instant instant' with hfirst | rfl | hlast
  · rw [h.offsetAt_of_le (instant' - 1) (by omega) (by omega)] at hbefore'
    rw [h.offsetAt_of_le instant' hfirst.le (by omega)] at hafter'
    exact (hne' (hbefore'.symm.trans hafter')).elim
  · exact ⟨rfl, hbefore.symm.trans hbefore', hafter.symm.trans hafter'⟩
  · rw [h'.offsetAt_of_le (instant - 1) (by omega) (by omega)] at hbefore
    rw [h'.offsetAt_of_le instant hlast.le (by omega)] at hafter
    exact (hne (hbefore.symm.trans hafter)).elim

theorem Spaced.pairwise {z : Zone} (h : z.Spaced) : z.changes.Pairwise OffsetChange.FarAfter :=
  List.isChain_iff_pairwise.mp h

theorem Spaced.ordered {z : Zone} (h : z.Spaced) : z.Ordered := by
  refine h.pairwise.imp fun hfar => ?_
  unfold OffsetChange.FarAfter at hfar
  omega

/-! ## The offset in a list of changes -/

/-- The offset of the latest of some changes that has been made by an instant. -/
def offsetIn (initial instant : Int) (cs : List OffsetChange) : Int :=
  ((cs.find? (·.since ≤ instant)).map (·.offset)).getD initial

theorem offsetIn_cons_of_le {initial instant : Int} {c : OffsetChange} {cs : List OffsetChange}
    (h : c.since ≤ instant) : offsetIn initial instant (c :: cs) = c.offset := by
  simp [offsetIn, h]

theorem offsetIn_cons_of_lt {initial instant : Int} {c : OffsetChange} {cs : List OffsetChange}
    (h : instant < c.since) : offsetIn initial instant (c :: cs) = offsetIn initial instant cs := by
  have hnot : ¬c.since ≤ instant := by omega
  simp [offsetIn, hnot]

/-- After all changes of a list the latest offset holds. -/
theorem offsetIn_of_forall_le {initial instant : Int} {cs : List OffsetChange}
    (h : ∀ c ∈ cs, c.since ≤ instant) : offsetIn initial instant cs = latestOffset initial cs := by
  cases cs with
  | nil => rfl
  | cons c rest => exact offsetIn_cons_of_le (h c List.mem_cons_self)

/-- Two instants at most two days apart, with different offsets, have one change between them
that rules both of its sides for two days. -/
theorem exists_switch_in {initial u v : Int} {cs : List OffsetChange}
    (hcs : cs.Pairwise OffsetChange.FarAfter)
    (huv : u ≤ v) (hnear : v ≤ u + 172800)
    (hne : offsetIn initial u cs ≠ offsetIn initial v cs) :
    ∃ c ∈ cs, u < c.since ∧ c.since ≤ v ∧
      (∀ w, c.since - 172800 ≤ w → w < c.since → offsetIn initial w cs = offsetIn initial u cs) ∧
      ∀ w, c.since ≤ w → w ≤ c.since + 172800 →
        offsetIn initial w cs = offsetIn initial v cs := by
  induction cs with
  | nil => exact (hne rfl).elim
  | cons c older ih =>
    obtain ⟨hc, holder⟩ := List.pairwise_cons.mp hcs
    by_cases hcu : c.since ≤ u
    · rw [offsetIn_cons_of_le hcu, offsetIn_cons_of_le (by omega)] at hne
      exact (hne rfl).elim
    · by_cases hcv : c.since ≤ v
      · -- The latest change lies between the two, and older ones lie far before it.
        have hquiet : ∀ w, c.since - 172800 ≤ w → w < c.since →
            offsetIn initial w (c :: older) = latestOffset initial older := by
          intro w hw hwc
          rw [offsetIn_cons_of_lt hwc]
          apply offsetIn_of_forall_le
          intro d hd
          have hfar : d.since + 172800 < c.since := hc d hd
          omega
        refine ⟨c, List.mem_cons_self, by omega, hcv, ?_, ?_⟩
        · intro w hw hwc
          rw [hquiet w hw hwc, hquiet u (by omega) (by omega)]
        · intro w hcw _
          rw [offsetIn_cons_of_le hcw, offsetIn_cons_of_le hcv]
      · have hu : u < c.since := by omega
        have hv : v < c.since := by omega
        rw [offsetIn_cons_of_lt hu, offsetIn_cons_of_lt hv] at hne ⊢
        obtain ⟨d, hd, hud, hdv, hbefore, hafter⟩ := ih holder hne
        have hfar : d.since + 172800 < c.since := hc d hd
        refine ⟨d, List.mem_cons_of_mem c hd, hud, hdv, ?_, ?_⟩
        · intro w hw hwd
          rw [offsetIn_cons_of_lt (by omega), hbefore w hw hwd]
        · intro w hdw hw
          rw [offsetIn_cons_of_lt (by omega), hafter w hdw hw]

variable {z : Zone}

theorem Spaced.offsetAt_eq (h : z.Spaced) (instant : Int) :
    z.offsetAt instant = offsetIn z.initial instant z.changes :=
  offsetAt_of_ordered h.ordered instant

/-- In a spaced zone, different offsets at most two days apart have a single switch between
them. -/
theorem Spaced.exists_switch (h : z.Spaced) {u v : Int} (huv : u ≤ v) (hnear : v ≤ u + 172800)
    (hne : z.offsetAt u ≠ z.offsetAt v) :
    ∃ t, u < t ∧ t ≤ v ∧ z.SwitchesAt t (z.offsetAt u) (z.offsetAt v) := by
  simp only [h.offsetAt_eq] at hne
  obtain ⟨c, -, huc, hcv, hbefore, hafter⟩ := exists_switch_in h.pairwise huv hnear hne
  refine ⟨c.since, huc, hcv, ?_, ?_⟩
  · intro w hw hwc
    rw [h.offsetAt_eq, h.offsetAt_eq, hbefore w hw hwc]
  · intro w hcw hw
    rw [h.offsetAt_eq, h.offsetAt_eq, hafter w hcw hw]

/-- Every offset of the zone is less than a day. -/
theorem HasDayOffsets.offsetAt_mem (h : z.HasDayOffsets) (instant : Int) :
    -86400 < z.offsetAt instant ∧ z.offsetAt instant < 86400 := by
  unfold offsetAt
  split
  · exact h.1
  · split
    · next c hc => exact h.2 c (List.mem_of_find?_eq_some hc)
    · exact h.1

/-- Both offsets of a change are in force, right before it and from it on. -/
theorem SwitchesAt.offsets_mem {instant before after : Int}
    (h : z.SwitchesAt instant before after) (hday : z.HasDayOffsets) :
    (-86400 < before ∧ before < 86400) ∧ -86400 < after ∧ after < 86400 := by
  have hbefore := h.offsetAt_of_lt (instant - 1) (by omega) (by omega)
  have hafter := h.offsetAt_of_le instant le_rfl (by omega)
  rw [← hbefore, ← hafter]
  exact ⟨hday.offsetAt_mem _, hday.offsetAt_mem _⟩

end Zone

end Almanac
