import Almanac.Proofs.Zone.Conversion
import Almanac.Proofs.Zone.Sampling

/-!
# Gaps and overlaps

Whether clocks skip a reading or show it twice can be read off the spans of the zone, and it can be
found by looking for a transition near the reading whose window holds it. In a spaced zone both
say the same. Clocks skip a reading exactly when a single change moves them forward over it, and
show it twice exactly when a single change moves them back over it. Such a change lies within a day
of the reading, where the search finds it in its very second and with the fraction of the reading,
so that the bounds of the window can be compared in seconds.
-/

namespace Almanac

namespace Zone

/-- A change moves clocks over a reading, forward or back. -/
structure MovesOver (z : Zone) (forward : Bool) (reading instant before after : Int) : Prop where
  switchesAt : z.SwitchesAt instant before after
  before_ne_after : before ≠ after
  before_lt_after_iff : before < after ↔ forward = true
  min_le : instant + min before after ≤ reading
  lt_max : reading < instant + max before after

variable {z : Zone} {reading instant before after u v : Int}

/-- A change that moves clocks forward over a reading leaves no instant to show it. -/
theorem MovesOver.not_shows (h : z.MovesOver true reading instant before after)
    (hday : z.HasDayOffsets) (u : Int) : ¬z.Shows u reading := by
  intro hshown
  have hlt := h.before_lt_after_iff.mpr rfl
  have hlower := h.min_le
  have hupper := h.lt_max
  have hoffsets := h.switchesAt.offsets_mem hday
  have hoffset := hday.offsetAt_mem u
  unfold Shows at hshown
  by_cases hearly : u < instant
  · have hold := h.switchesAt.offsetAt_of_lt u (by omega) hearly
    omega
  · have hnew := h.switchesAt.offsetAt_of_le u (by omega) (by omega)
    omega

/-- Clocks show a reading that a change moves them back over before the change and after it. -/
theorem MovesOver.shows_twice (h : z.MovesOver false reading instant before after)
    (hday : z.HasDayOffsets) :
    z.Shows (reading - before) reading ∧ z.Shows (reading - after) reading ∧ after < before := by
  have hnot : ¬before < after := fun hlt => Bool.false_ne_true (h.before_lt_after_iff.mp hlt)
  have hne := h.before_ne_after
  have hlower := h.min_le
  have hupper := h.lt_max
  have hoffsets := h.switchesAt.offsets_mem hday
  unfold Shows
  refine ⟨?_, ?_, by omega⟩
  · rw [h.switchesAt.offsetAt_of_lt (reading - before) (by omega) (by omega)]
    omega
  · rw [h.switchesAt.offsetAt_of_le (reading - after) (by omega) (by omega)]
    omega

/-- A single change moves clocks over a reading. -/
theorem MovesOver.unique {forward forward' : Bool} {instant' before' after' : Int}
    (h : z.MovesOver forward reading instant before after)
    (h' : z.MovesOver forward' reading instant' before' after') (hday : z.HasDayOffsets) :
    instant = instant' ∧ before = before' ∧ after = after' := by
  have hoffsets := h.switchesAt.offsets_mem hday
  have hoffsets' := h'.switchesAt.offsets_mem hday
  have hlower := h.min_le
  have hlower' := h'.min_le
  have hupper := h.lt_max
  have hupper' := h'.lt_max
  exact h.switchesAt.eq_of_near h'.switchesAt h.before_ne_after h'.before_ne_after (by omega)
    (by omega)

/-- When no instant shows a reading, a change moves clocks forward over it. -/
theorem Spaced.movesOver_of_forall_not (hspaced : z.Spaced) (hday : z.HasDayOffsets)
    (h : ∀ u, ¬z.Shows u reading) :
    ∃ instant before after, z.MovesOver true reading instant before after := by
  have hfirst := hday.offsetAt_mem (reading - 86400)
  -- Clocks that kept the offset of a day before would show the reading at this instant.
  have hne : z.offsetAt (reading - 86400) ≠
      z.offsetAt (reading - z.offsetAt (reading - 86400)) := by
    intro heq
    apply h (reading - z.offsetAt (reading - 86400))
    unfold Shows
    omega
  obtain ⟨instant, hlo, hhi, hswitch⟩ := hspaced.exists_switch (by omega) (by omega) hne
  have hlast := hswitch.offsets_mem hday
  have hupper : reading <
      instant + z.offsetAt (reading - z.offsetAt (reading - 86400)) := by
    -- Otherwise clocks would show the reading under the new offset.
    by_contra hnot
    have hnew := hswitch.offsetAt_of_le
      (reading - z.offsetAt (reading - z.offsetAt (reading - 86400))) (by omega) (by omega)
    apply h (reading - z.offsetAt (reading - z.offsetAt (reading - 86400)))
    unfold Shows
    omega
  refine ⟨instant, _, _, hswitch, hne, ?_, ?_, ?_⟩
  · refine iff_of_true ?_ rfl
    omega
  · omega
  · omega

/-- When two instants show a reading, a change moves clocks back over it. -/
theorem Spaced.movesOver_of_shows_twice (hspaced : z.Spaced) (hday : z.HasDayOffsets)
    (hu : z.Shows u reading) (hv : z.Shows v reading) (huv : u < v) :
    ∃ instant before after, z.MovesOver false reading instant before after := by
  have hoffset := hday.offsetAt_mem u
  have hoffset' := hday.offsetAt_mem v
  unfold Shows at hu hv
  have hne : z.offsetAt u ≠ z.offsetAt v := by omega
  obtain ⟨instant, hlo, hhi, hswitch⟩ := hspaced.exists_switch huv.le (by omega) hne
  refine ⟨instant, _, _, hswitch, hne, ?_, ?_, ?_⟩
  · refine iff_of_false ?_ Bool.false_ne_true
    omega
  · omega
  · omega

end Zone

namespace Reading

/-- Two days before the reading and two days after it belong to the calendar. -/
def IsAmid (r : Reading) : Prop :=
  InCalendar (r.seconds - 172800) ∧ InCalendar (r.seconds + 172800)

/-- Three days before the reading and three days after it belong to the calendar. -/
def IsInner (r : Reading) : Prop :=
  firstDay + 3 ≤ r.date.day ∧ r.date.day + 3 ≤ lastDay

variable {r start stop u : Reading} {seconds : Int}

theorem IsAmid.inCalendar (h : r.IsAmid) (hlower : r.seconds - 172800 ≤ seconds)
    (hupper : seconds ≤ r.seconds + 172800) : InCalendar seconds := by
  unfold IsAmid InCalendar at h
  unfold InCalendar
  omega

theorem IsInner.isAmid (h : r.IsInner) : r.IsAmid := by
  have hsecond := r.time.second_lt
  unfold IsInner at h
  unfold IsAmid InCalendar Reading.seconds
  omega

/-- The two ends of a search around an ordinary reading. -/
theorem IsOrdinary.isAmid (hr : r.IsOrdinary) (hstart : r.add? (Duration.ofDays (-2)) = some start)
    (hstop : r.add? (Duration.ofDays 2) = some stop) : r.IsAmid := by
  have hfirst := start.inCalendar
  have hlast := stop.inCalendar
  rw [(hr.add_seconds? hstart).2] at hfirst
  rw [(hr.add_seconds? hstop).2] at hlast
  exact ⟨hfirst, hlast⟩

/-- Between two shifts of a reading with the same fraction by less than a day lie the seconds
between the shifts. -/
theorem IsAmid.between_shifts_iff {s s' : Int} (h : r.IsAmid) (hnano : u.time.nano = r.time.nano)
    (hs : -86400 < s) (hs' : s' < 86400) (hle : s ≤ s') :
    u.shift s ≤ r ∧ r < u.shift s' ↔ u.seconds + s ≤ r.seconds ∧ r.seconds < u.seconds + s' := by
  constructor
  · intro hboth
    obtain ⟨hlower, hupper⟩ := hboth
    have hfirst := key_le_of_shift_le hle hlower (hlower.trans_lt hupper)
    have hlast := key_lt_of_lt_shift hupper
    rw [key_eq, key_eq] at hfirst hlast
    omega
  · intro hboth
    obtain ⟨hlower, hupper⟩ := hboth
    have hfirst : InCalendar (u.seconds + s) := h.inCalendar (by omega) (by omega)
    have hlast : InCalendar (u.seconds + s') := h.inCalendar (by omega) (by omega)
    rw [le_iff_key, lt_iff_key, key_shift hfirst, key_shift hlast, key_eq, key_eq]
    omega

end Reading

namespace LocalClock

variable {c : LocalClock} {r : Reading} {t : Transition} {window : Interval Reading}
  {forward : Bool} {instant before after : Int}

theorem not_isSkipped_and_isRepeated : ¬(c.isSkipped r = true ∧ c.isRepeated r = true) := by
  unfold isSkipped isRepeated
  cases c.offsetsOf r <;> simp

section Lookup

variable (hspaced : c.zone.Spaced) (hday : c.zone.HasDayOffsets)

include hspaced hday

/-- By the spans of the zone, a reading is skipped when a change moves clocks forward over it. -/
theorem isSkipped_iff : c.isSkipped r = true ↔
    ∃ instant before after, c.zone.MovesOver true r.seconds instant before after := by
  constructor
  · intro hskipped
    exact hspaced.movesOver_of_forall_not hday (not_shows_of_isSkipped hspaced hday hskipped)
  · intro hmoves
    obtain ⟨instant, before, after, hmoves⟩ := hmoves
    have hnone := hmoves.not_shows hday
    have hdescribes := describes_offsetsOf hspaced hday r
    unfold isSkipped
    generalize c.offsetsOf r = offsets at hdescribes ⊢
    cases offsets with
    | skipped => rfl
    | single offset => exact (hnone _ ((hdescribes _).mpr rfl)).elim
    | repeated earlier later => exact (hnone _ ((hdescribes.2 _).mpr (Or.inl rfl))).elim

/-- By the spans of the zone, a reading is repeated when a change moves clocks back over it. -/
theorem isRepeated_iff : c.isRepeated r = true ↔
    ∃ instant before after, c.zone.MovesOver false r.seconds instant before after := by
  have hdescribes := describes_offsetsOf hspaced hday r
  unfold isRepeated
  generalize c.offsetsOf r = offsets at hdescribes ⊢
  constructor
  · intro hrepeated
    cases offsets with
    | skipped => cases hrepeated
    | single offset => cases hrepeated
    | repeated earlier later =>
      obtain ⟨hlt, hiff⟩ := hdescribes
      exact hspaced.movesOver_of_shows_twice hday ((hiff _).mpr (Or.inl rfl))
        ((hiff _).mpr (Or.inr rfl)) (by omega)
  · intro hmoves
    obtain ⟨instant, before, after, hmoves⟩ := hmoves
    obtain ⟨hbefore, hafter, hlt⟩ := hmoves.shows_twice hday
    cases offsets with
    | skipped => exact (hdescribes _ hbefore).elim
    | single offset =>
      have hfirst := (hdescribes _).mp hbefore
      have hlast := (hdescribes _).mp hafter
      omega
    | repeated earlier later => rfl

end Lookup

/-! ## The search -/

/-- Transitions are the changes within two days of a reading, each with its fraction. -/
structure EnumeratesAround (c : LocalClock) (r : Reading) (ts : List Transition) : Prop where
  makes : ∀ t ∈ ts, c.Makes t
  after_start : ∀ t ∈ ts, r.seconds - 172800 < t.utc.seconds
  by_stop : ∀ t ∈ ts, t.utc.seconds ≤ r.seconds + 172800
  nano_eq : ∀ t ∈ ts, t.utc.time.nano = r.time.nano
  exists_mem : ∀ instant, r.seconds - 172800 < instant → instant ≤ r.seconds + 172800 →
    c.zone.ChangesAt instant → ∃ t ∈ ts, t.utc.seconds = instant

/-- The search for a window looks through the changes around the reading. -/
theorem exists_windowAround?_eq (hspaced : c.zone.Spaced) (hr : r.IsOrdinary) (hamid : r.IsAmid)
    (forward : Bool) :
    ∃ ts : List Transition, c.EnumeratesAround r ts ∧
      c.windowAround? r forward =
        ((ts.filter (·.isForward == forward)).find? (·.window.contains r)).map
          fun t => (t, t.window) := by
  have hfirst : InCalendar (r.seconds + -2 * 86400) := hamid.inCalendar (by omega) (by omega)
  have hlast : InCalendar (r.seconds + 2 * 86400) := hamid.inCalendar (by omega) (by omega)
  obtain ⟨start, hstart, hstartOrdinary, hstartNano, hstartSeconds⟩ := hr.exists_add_days? hfirst
  obtain ⟨stop, hstop, hstopOrdinary, hstopNano, hstopSeconds⟩ := hr.exists_add_days? hlast
  have hroom : Transition.HasRoom stop start :=
    Or.inr ⟨4, by omega, hstartNano.trans hstopNano.symm⟩
  have hall := enumerates_of_hasRoom hspaced.sparse hstartOrdinary hstopOrdinary hroom
  refine ⟨c.transitionsBetween start stop, ⟨hall.makes, ?_, ?_, ?_, ?_⟩, ?_⟩
  · intro t ht
    have hafter := hall.after_start t ht
    omega
  · intro t ht
    have hby := hall.by_stop t ht
    omega
  · intro t ht
    have hnano := hall.nano_mem t ht
    omega
  · intro instant hlower hupper
    exact hall.exists_mem instant (by omega) (by omega)
  · unfold windowAround?
    rw [hstart, hstop, Option.map_eq_bind]
    rfl

/-- A transition that lies in the second of a change moves clocks over the readings between its two
offsets, in its direction. -/
theorem Makes.movesOver_iff {reading : Int} (hspaced : c.zone.Spaced) (h : c.Makes t) :
    c.zone.MovesOver forward reading t.utc.seconds t.before t.after ↔
      t.isForward = forward ∧ t.utc.seconds + min t.before t.after ≤ reading ∧
        reading < t.utc.seconds + max t.before t.after := by
  have hswitch := hspaced.switchesAt_of_changesAt h.changesAt
  rw [← h.before_eq, ← h.after_eq] at hswitch
  have hne : t.before ≠ t.after := by
    rw [h.before_eq, h.after_eq]
    exact h.changesAt
  rw [Bool.eq_iff_iff, Transition.isForward_iff]
  constructor
  · intro hmoves
    exact ⟨hmoves.before_lt_after_iff, hmoves.min_le, hmoves.lt_max⟩
  · intro hbounds
    obtain ⟨hdirection, hlower, hupper⟩ := hbounds
    exact ⟨hswitch, hne, hdirection, hlower, hupper⟩

section Search

variable (hspaced : c.zone.Spaced) (hday : c.zone.HasDayOffsets)

include hday

/-- Around the reading no window is cut off, and its bounds can be compared in seconds. -/
theorem EnumeratesAround.contains_window_iff {ts : List Transition}
    (h : c.EnumeratesAround r ts) (hamid : r.IsAmid) (ht : t ∈ ts) :
    t.window.contains r = true ↔
      t.utc.seconds + min t.before t.after ≤ r.seconds ∧
        r.seconds < t.utc.seconds + max t.before t.after := by
  have hnano := h.nano_eq t ht
  have hbefore := hday.offsetAt_mem (t.utc.seconds - 1)
  have hafter := hday.offsetAt_mem t.utc.seconds
  rw [← (h.makes t ht).before_eq] at hbefore
  rw [← (h.makes t ht).after_eq] at hafter
  rw [Transition.contains_window_iff]
  by_cases hforward : t.isForward = true
  · have hle := (Transition.isForward_iff.mp hforward).le
    rw [if_pos hforward, if_pos hforward, min_eq_left hle, max_eq_right hle]
    exact hamid.between_shifts_iff hnano hbefore.1 hafter.2 hle
  · have hle := not_lt.mp (mt Transition.isForward_iff.mpr hforward)
    rw [if_neg hforward, if_neg hforward, min_eq_right hle, max_eq_left hle]
    exact hamid.between_shifts_iff hnano hafter.1 hbefore.2 hle

include hspaced

/-- A transition around the reading moves clocks over it when it has the direction and its window
holds the reading. -/
theorem EnumeratesAround.movesOver_iff {ts : List Transition} (h : c.EnumeratesAround r ts)
    (hamid : r.IsAmid) (ht : t ∈ ts) :
    c.zone.MovesOver forward r.seconds t.utc.seconds t.before t.after ↔
      t.isForward = forward ∧ t.window.contains r = true := by
  rw [h.contains_window_iff hday hamid ht]
  exact (h.makes t ht).movesOver_iff hspaced

/-- A window that is found is the one of a change that moves clocks over the reading, and its
transition has the fraction of the reading. -/
theorem movesOver_of_windowAround? (hr : r.IsOrdinary) (hamid : r.IsAmid)
    (h : c.windowAround? r forward = some (t, window)) :
    window = t.window ∧ window.contains r = true ∧
      c.zone.MovesOver forward r.seconds t.utc.seconds t.before t.after ∧
      t.utc.time.nano = r.time.nano := by
  obtain ⟨ts, haround, hsearch⟩ := exists_windowAround?_eq hspaced hr hamid forward
  rw [hsearch] at h
  obtain ⟨t', hfind, hpair⟩ := Option.map_eq_some_iff.mp h
  cases hpair
  have hcontains := List.find?_some hfind
  have hmem := List.mem_of_find?_eq_some hfind
  rw [List.mem_filter, beq_iff_eq] at hmem
  exact ⟨rfl, hcontains,
    (haround.movesOver_iff hspaced hday hamid hmem.1).mpr ⟨hmem.2, hcontains⟩,
    haround.nano_eq t hmem.1⟩

/-- Where the calendar holds the ends of the search, the change that moves clocks over an ordinary
reading is found. -/
theorem exists_windowAround? (hr : r.IsOrdinary) (hamid : r.IsAmid)
    (hmoves : c.zone.MovesOver forward r.seconds instant before after) :
    ∃ t, c.windowAround? r forward = some (t, t.window) ∧ t.utc.seconds = instant ∧
      t.before = before ∧ t.after = after := by
  obtain ⟨ts, haround, hsearch⟩ := exists_windowAround?_eq hspaced hr hamid forward
  have hoffsets := hmoves.switchesAt.offsets_mem hday
  have hlower := hmoves.min_le
  have hupper := hmoves.lt_max
  obtain ⟨t, ht, rfl⟩ := haround.exists_mem instant (by omega) (by omega)
    (hmoves.switchesAt.changesAt hmoves.before_ne_after)
  have hmakes := haround.makes t ht
  have hbefore : t.before = before := by
    rw [hmakes.before_eq]
    exact hmoves.switchesAt.offsetAt_of_lt _ (by omega) (by omega)
  have hafter : t.after = after := by
    rw [hmakes.after_eq]
    exact hmoves.switchesAt.offsetAt_of_le _ le_rfl (by omega)
  rw [← hbefore, ← hafter] at hmoves
  obtain ⟨hforward, hcontains⟩ := (haround.movesOver_iff hspaced hday hamid ht).mp hmoves
  have hsome : (c.windowAround? r forward).isSome = true := by
    rw [hsearch, Option.isSome_map, List.find?_isSome]
    exact ⟨t, List.mem_filter.mpr ⟨ht, beq_iff_eq.mpr hforward⟩, hcontains⟩
  obtain ⟨⟨t', window⟩, hfound⟩ := Option.isSome_iff_exists.mp hsome
  obtain ⟨rfl, -, hmoves', -⟩ := movesOver_of_windowAround? hspaced hday hr hamid hfound
  obtain ⟨hinstant, heqBefore, heqAfter⟩ := hmoves'.unique hmoves hday
  exact ⟨t', hfound, hinstant, heqBefore.trans hbefore, heqAfter.trans hafter⟩

variable (hinner : r.IsInner) (hr : r.IsOrdinary)

include hinner hr

/-- A window that is found is the one of a change that moves clocks over the reading. -/
theorem windowAround?_spec (h : c.windowAround? r forward = some (t, window)) :
    window = t.window ∧ window.contains r = true ∧
      c.zone.MovesOver forward r.seconds t.utc.seconds t.before t.after := by
  obtain ⟨hwindow, hcontains, hmoves, -⟩ :=
    movesOver_of_windowAround? hspaced hday hr hinner.isAmid h
  exact ⟨hwindow, hcontains, hmoves⟩

/-- A window is found when a change moves clocks over the reading. -/
theorem isSome_windowAround?_iff : (c.windowAround? r forward).isSome = true ↔
    ∃ instant before after, c.zone.MovesOver forward r.seconds instant before after := by
  constructor
  · intro hsome
    obtain ⟨⟨t, window⟩, hfound⟩ := Option.isSome_iff_exists.mp hsome
    exact ⟨_, _, _, (windowAround?_spec hspaced hday hinner hr hfound).2.2⟩
  · intro hmoves
    obtain ⟨instant, before, after, hmoves⟩ := hmoves
    obtain ⟨t, hfound, -⟩ := exists_windowAround? hspaced hday hr hinner.isAmid hmoves
    rw [hfound]
    rfl

/-- The two ways to find out about a reading agree. It is skipped by the spans of the zone exactly
when a gap is found, and repeated exactly when an overlap is found, never both. What is found is
the window of a change of the zone, in its very second, and holds the reading; the change moves
clocks forward for a gap and back for an overlap. -/
theorem lookup_agrees_with_search :
    (c.isSkipped r = true ↔ (c.gap? r).isSome = true) ∧
    (c.isRepeated r = true ↔ (c.overlap? r).isSome = true) ∧
    ¬((c.gap? r).isSome = true ∧ (c.overlap? r).isSome = true) ∧
    (∀ t window, c.gap? r = some (t, window) →
      window = t.window ∧ window.contains r = true ∧ 0 < t.delta ∧
        c.zone.SwitchesAt t.utc.seconds t.before t.after) ∧
    ∀ t window, c.overlap? r = some (t, window) →
      window = t.window ∧ window.contains r = true ∧ t.delta < 0 ∧
        c.zone.SwitchesAt t.utc.seconds t.before t.after := by
  have hskipped : c.isSkipped r = true ↔ (c.gap? r).isSome = true :=
    (isSkipped_iff hspaced hday).trans (isSome_windowAround?_iff hspaced hday hinner hr).symm
  have hrepeated : c.isRepeated r = true ↔ (c.overlap? r).isSome = true :=
    (isRepeated_iff hspaced hday).trans (isSome_windowAround?_iff hspaced hday hinner hr).symm
  refine ⟨hskipped, hrepeated, ?_, ?_, ?_⟩
  · rw [← hskipped, ← hrepeated]
    exact not_isSkipped_and_isRepeated
  · intro t window hgap
    obtain ⟨hwindow, hcontains, hmoves⟩ := windowAround?_spec hspaced hday hinner hr hgap
    have hlt := hmoves.before_lt_after_iff.mpr rfl
    refine ⟨hwindow, hcontains, ?_, hmoves.switchesAt⟩
    unfold Transition.delta
    omega
  · intro t window hoverlap
    obtain ⟨hwindow, hcontains, hmoves⟩ := windowAround?_spec hspaced hday hinner hr hoverlap
    have hnot : ¬t.before < t.after := by
      rw [hmoves.before_lt_after_iff]
      exact Bool.false_ne_true
    have hne := hmoves.before_ne_after
    refine ⟨hwindow, hcontains, ?_, hmoves.switchesAt⟩
    unfold Transition.delta
    omega

end Search

section Sample

/-- Past noon on 21 August 1993. -/
def augustNoon : Reading := pastNoon ⟨8633, by decide⟩

/-- Clocks jumped over this noon with the whole day, and showed the one of 1969 twice. -/
theorem lookup_agrees_with_search_kwajalein :
    kwajalein.zone.Spaced ∧ kwajalein.zone.HasDayOffsets ∧
      (augustNoon.IsOrdinary ∧ augustNoon.IsInner ∧ (kwajalein.gap? augustNoon).isSome = true) ∧
      septemberNoon.IsOrdinary ∧ septemberNoon.IsInner ∧
        (kwajalein.overlap? septemberNoon).isSome = true := by
  have hskipped : kwajalein.isSkipped augustNoon = true := by decide +kernel
  have hrepeated : kwajalein.isRepeated septemberNoon = true := by decide +kernel
  obtain ⟨hgap, -⟩ := lookup_agrees_with_search (r := augustNoon) spaced_kwajalein
    hasDayOffsets_kwajalein ⟨by decide, by decide⟩ (by decide)
  obtain ⟨-, hoverlap, -⟩ := lookup_agrees_with_search (r := septemberNoon) spaced_kwajalein
    hasDayOffsets_kwajalein ⟨by decide, by decide⟩ (by decide)
  exact ⟨spaced_kwajalein, hasDayOffsets_kwajalein,
    ⟨by decide, ⟨by decide, by decide⟩, hgap.mp hskipped⟩,
    by decide, ⟨by decide, by decide⟩, hoverlap.mp hrepeated⟩

end Sample

end LocalClock

end Almanac
