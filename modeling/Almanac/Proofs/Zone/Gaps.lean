import Almanac.Proofs.Zone.Window

/-!
# Around a gap

A change that moves clocks forward divides the readings that are shown: what is shown before the
end of the gap is shown before the change, and what is shown from the start of the gap on is shown
afterwards. All readings of the two days after a gap are shown. The search for a gap gives its end
in the right second, but with the fraction of the reading that it looks for. Skipped readings that
are shifted keep their order, since gaps lie further apart than any of them moves a reading.
-/

namespace Almanac

namespace Zone

variable {z : Zone} {reading instant before after r u : Int}

/-- What clocks show before the end of a gap, they show before the change. -/
theorem MovesOver.lt_of_shows (h : z.MovesOver true reading instant before after)
    (hday : z.HasDayOffsets) (hshown : z.Shows u r) (hr : r < instant + after) : u < instant := by
  have hoffsets := h.switchesAt.offsets_mem hday
  have hoffset := hday.offsetAt_mem u
  unfold Shows at hshown
  by_contra hlate
  have hnew := h.switchesAt.offsetAt_of_le u (by omega) (by omega)
  omega

/-- What clocks show from the start of a gap on, they show after the change. -/
theorem MovesOver.le_of_shows (h : z.MovesOver true reading instant before after)
    (hday : z.HasDayOffsets) (hshown : z.Shows u r) (hr : instant + before ≤ r) :
    instant ≤ u := by
  have hoffsets := h.switchesAt.offsets_mem hday
  have hoffset := hday.offsetAt_mem u
  unfold Shows at hshown
  by_contra hearly
  have hold := h.switchesAt.offsetAt_of_lt u (by omega) (by omega)
  omega

/-- The readings of the two days after a gap are shown. -/
theorem MovesOver.shows_after (h : z.MovesOver true reading instant before after)
    (hr : instant + after ≤ r) (hnear : r ≤ instant + after + 172800) :
    z.Shows (r - after) r := by
  have hnew := h.switchesAt.offsetAt_of_le (r - after) (by omega) (by omega)
  unfold Shows
  omega

end Zone

namespace LocalClock

variable {c : LocalClock} {r r' x : Reading} {m m' : Moment} {stop u v reading : Int}

/-- The gap that holds a reading ends at a second of the local clock. -/
def GapEnds (c : LocalClock) (r : Reading) (stop : Int) : Prop :=
  ∃ instant before after,
    c.zone.MovesOver true r.seconds instant before after ∧ instant + after = stop

theorem GapEnds.lt (h : c.GapEnds r stop) : r.seconds < stop := by
  obtain ⟨instant, before, after, hmoves, rfl⟩ := h
  have hjump := hmoves.before_lt_after_iff.mpr rfl
  have hupper := hmoves.lt_max
  omega

section Spaced

variable (hspaced : c.zone.Spaced) (hday : c.zone.HasDayOffsets)

include hspaced hday

theorem exists_gapEnds (h : c.isSkipped r = true) : ∃ stop, c.GapEnds r stop := by
  obtain ⟨instant, before, after, hmoves⟩ := (isSkipped_iff hspaced hday).mp h
  exact ⟨instant + after, instant, before, after, hmoves, rfl⟩

/-- From a skipped reading to the end of its gap all readings are skipped. -/
theorem GapEnds.isSkipped (h : c.GapEnds r stop) (hle : r ≤ x) (hlt : x.seconds < stop) :
    c.isSkipped x = true := by
  obtain ⟨instant, before, after, hmoves, rfl⟩ := h
  have hseconds := Reading.seconds_le_of_le hle
  have hjump := hmoves.before_lt_after_iff.mpr rfl
  have hlower := hmoves.min_le
  exact (isSkipped_iff hspaced hday).mpr ⟨instant, before, after, hmoves.switchesAt,
    hmoves.before_ne_after, hmoves.before_lt_after_iff, by omega, by omega⟩

/-- No reading of the two days after a gap is skipped. -/
theorem GapEnds.isSkipped_eq_false (h : c.GapEnds r stop) (hle : stop ≤ x.seconds)
    (hnear : x.seconds ≤ stop + 172800) : c.isSkipped x = false := by
  obtain ⟨instant, before, after, hmoves, rfl⟩ := h
  by_contra hskipped
  rw [Bool.not_eq_false] at hskipped
  exact not_shows_of_isSkipped hspaced hday hskipped _ (hmoves.shows_after hle hnear)

omit hspaced in
/-- What is shown before the end of a gap is shown before everything that is shown after it. -/
theorem GapEnds.lt_of_shows (h : c.GapEnds r stop) (hu : c.zone.Shows u reading)
    (hreading : reading < stop) (hv : c.zone.Shows v x.seconds) (hx : stop ≤ x.seconds) :
    u < v := by
  obtain ⟨instant, before, after, hmoves, rfl⟩ := h
  have hjump := hmoves.before_lt_after_iff.mpr rfl
  have hearly := hmoves.lt_of_shows hday hu hreading
  have hlate := hmoves.le_of_shows hday hv (by omega)
  omega

/-- Of two skipped readings that are shifted, the later one means the later instant. -/
theorem lt_of_shiftSkipped?_of_isSkipped (hskipped : c.isSkipped r = true)
    (hm : c.shiftSkipped? r = some m) (hskipped' : c.isSkipped r' = true)
    (hm' : c.shiftSkipped? r' = some m') (hlt : r < r') : m < m' := by
  obtain ⟨i, before, after, hswitch, hjump, hkey, hmade, hgap, -, -⟩ :=
    exists_switch_of_shiftSkipped? hspaced hday hskipped hm
  obtain ⟨i', before', after', hswitch', hjump', hkey', hmade', hgap', -, -⟩ :=
    exists_switch_of_shiftSkipped? hspaced hday hskipped' hm'
  have hoffsets := hswitch.offsets_mem hday
  have hoffsets' := hswitch'.offsets_mem hday
  have hle := Reading.seconds_le_of_le hlt.le
  have hseconds := Reading.seconds_add_of_key hkey
  have hseconds' := Reading.seconds_add_of_key hkey'
  rw [Moment.lt_iff_utc]
  by_contra hge
  have hinstants : m'.utc.seconds ≤ m.utc.seconds := Reading.seconds_le_of_le (not_lt.mp hge)
  rw [Reading.lt_iff_key] at hlt hge
  -- Two gaps lie more than two days apart, so both readings lie in one gap.
  obtain ⟨-, rfl, -⟩ :=
    hswitch.eq_of_near hswitch' hjump.ne hjump'.ne (by omega) (by omega)
  omega

end Spaced

end LocalClock

/-- The window of a transition forward goes from its local reading under the old offset to the
one under the new offset. -/
theorem Transition.window_of_isForward {t : Transition} (hforward : t.isForward = true)
    (hlt : t.localBefore < t.localAfter) :
    t.window = ⟨.lowerAt .inclusive t.localBefore, .upperAt .exclusive t.localAfter⟩ := by
  unfold window
  simp only [if_pos hforward, Interval.closedOpen_of_lt hlt]

/-! ## The fraction of what the search finds -/

/-- A shift that stops at the ends of the calendar leads from an ordinary reading to another. -/
theorem Reading.IsOrdinary.shift {r : Reading} (hr : r.IsOrdinary) (s : Int) :
    (r.shift s).IsOrdinary := by
  unfold Reading.shift
  dsimp only
  split
  · exact hr
  · split <;> decide

/-- A shift within the calendar keeps the fraction. -/
theorem Reading.nano_shift {r : Reading} {s : Int} (h : InCalendar (r.seconds + s)) :
    (r.shift s).time.nano = r.time.nano := by
  unfold Reading.shift
  dsimp only
  rw [dif_pos (day_wall_shift h)]
  rfl

namespace Transition

variable {offset : Reading → Int} {start stop : Reading} {t : Transition}

/-- Between ordinary readings the search looks at ordinary readings only. -/
theorem isOrdinary_of_mem_all (hstart : start.IsOrdinary) (hstop : stop.IsOrdinary)
    (h : t ∈ all offset start stop) : t.utc.IsOrdinary := by
  refine of_mem_gather Reading.IsOrdinary (·.utc.IsOrdinary) ?_ hstart (List.forall_mem_nil _) h
  intro lo hi hlo hnext hahead
  have hhi := (isOrdinary_of_nextSample? hlo hstop hnext).1
  refine ⟨hhi, fun hne => Straddles.isOrdinary_narrow ?_⟩
  exact ⟨hlo, hhi, hahead, rfl, hne.symm⟩

/-- Between readings of one fraction the search finds transitions of this fraction only. -/
theorem nano_of_mem_all (hstart : start.IsOrdinary) (hstop : stop.IsOrdinary)
    (hnano : start.time.nano = stop.time.nano) (h : t ∈ all offset start stop) :
    t.utc.time.nano = stop.time.nano := by
  refine of_mem_gather
    (fun sample => sample.IsOrdinary ∧ sample.time.nano = stop.time.nano)
    (·.utc.time.nano = stop.time.nano) ?_ ⟨hstart, hnano⟩ (List.forall_mem_nil _) h
  rintro lo hi ⟨hlo, hphase⟩ hnext hahead
  obtain ⟨hhi, hnext⟩ := isOrdinary_of_nextSample? hlo hstop hnext
  rw [hphase, or_self] at hnext
  refine ⟨⟨hhi, hnext⟩, fun hne => ?_⟩
  have hstraddles : Straddles offset (offset lo) lo hi := ⟨hlo, hhi, hahead, rfl, hne.symm⟩
  have hends := hstraddles.nano_narrow
  rw [hphase, hnext, or_self] at hends
  exact hends

end Transition

/-- A gap holds the readings from one on up to its end, which has the same fraction. -/
structure HoldsUntil (gap : Interval Reading) (r stop : Reading) : Prop where
  upper_eq : gap.upper.value? = some stop
  isOrdinary : stop.IsOrdinary
  lt : r < stop
  contains_iff : ∀ x, r ≤ x → (gap.contains x = true ↔ x < stop)
  nano_eq : stop.time.nano = r.time.nano

namespace LocalClock

variable {c : LocalClock} {r stop : Reading} {t : Transition} {gap : Interval Reading}

/-- The gap that is found for an ordinary reading holds it, and ends after it at an ordinary
reading. -/
theorem upper_of_gap? (hr : r.IsOrdinary) (h : c.gap? r = some (t, gap)) :
    ∃ stop, gap.upper.value? = some stop ∧ stop.IsOrdinary ∧ r < stop ∧
      ∀ x, r ≤ x → (gap.contains x = true ↔ x < stop) := by
  obtain ⟨rfl, hcontains, hforward, start, last, hstart, hlast, hmem⟩ := exists_of_windowAround? h
  rw [Transition.contains_window_iff, if_pos hforward, if_pos hforward] at hcontains
  have hordinary : t.utc.IsOrdinary :=
    Transition.isOrdinary_of_mem_all (hr.add? hstart).1 (hr.add? hlast).1 hmem
  refine ⟨t.localAfter, ?_, hordinary.shift _, hcontains.2, fun x hle => ?_⟩
  · rw [Transition.window_of_isForward hforward (hcontains.1.trans_lt hcontains.2)]
    rfl
  · rw [Transition.contains_window_iff, if_pos hforward, if_pos hforward]
    exact and_iff_right (hcontains.1.trans hle)

/-- Where offsets are less than a day, the calendar holds the end of a gap that is found, and the
end has the fraction of the reading. -/
theorem nano_of_gap? (hday : c.zone.HasDayOffsets) (hr : r.IsOrdinary)
    (h : c.gap? r = some (t, gap)) (hupper : gap.upper.value? = some stop) :
    stop.time.nano = r.time.nano := by
  obtain ⟨rfl, hcontains, hforward, start, last, hstart, hlast, hmem⟩ := exists_of_windowAround? h
  obtain ⟨sample, hseen⟩ := Transition.exists_seen_of_mem_all hmem
  have hfirst := hr.add_seconds? hstart
  have hend := hr.add_seconds? hlast
  have hnano : t.utc.time.nano = r.time.nano :=
    (Transition.nano_of_mem_all (hr.add? hstart).1 (hr.add? hlast).1
      (hfirst.1.trans hend.1.symm) hmem).trans hend.1
  have hbefore : -86400 < t.before ∧ t.before < 86400 := by
    rw [hseen.before_eq]
    exact hday.offsetAt_mem sample.seconds
  have hafter : -86400 < t.after ∧ t.after < 86400 := by
    rw [hseen.after_eq]
    exact hday.offsetAt_mem t.utc.seconds
  have hamid := hr.isAmid hstart hlast
  rw [Transition.contains_window_iff, if_pos hforward, if_pos hforward] at hcontains
  obtain ⟨hlower, hlater⟩ := (hamid.between_shifts_iff hnano hbefore.1 hafter.2
    (Transition.isForward_iff.mp hforward).le).mp hcontains
  rw [Transition.window_of_isForward hforward (hcontains.1.trans_lt hcontains.2)] at hupper
  cases hupper
  exact (Reading.nano_shift (hamid.inCalendar (by omega) (by omega))).trans hnano

theorem exists_holdsUntil (hday : c.zone.HasDayOffsets) (hr : r.IsOrdinary)
    (h : c.gap? r = some (t, gap)) : ∃ stop, HoldsUntil gap r stop := by
  obtain ⟨stop, hupper, hstop, hlt, hcontains⟩ := upper_of_gap? hr h
  exact ⟨stop, hupper, hstop, hlt, hcontains, nano_of_gap? hday hr h hupper⟩

end LocalClock

/-! ## Gaps that are found -/

namespace LocalClock

variable {c : LocalClock} {r stop : Reading} {gap : Interval Reading}

/-- A gap that the search finds for a reading holds the reading. It ends in the second in which
clocks go on, but with the fraction of the reading. -/
structure FindsGap (c : LocalClock) (r stop : Reading) (gap : Interval Reading) : Prop where
  exists_gap?_eq : ∃ t, c.gap? r = some (t, gap)
  contains_iff : ∀ x, r ≤ x → (gap.contains x = true ↔ x < stop)
  upper_eq : gap.upper.value? = some stop
  gapEnds : c.GapEnds r stop.seconds
  nano_eq : stop.time.nano = r.time.nano

theorem FindsGap.holdsUntil (h : c.FindsGap r stop gap) (hr : r.IsOrdinary) :
    HoldsUntil gap r stop := by
  obtain ⟨t, hgap⟩ := h.exists_gap?_eq
  obtain ⟨stop', hupper, hstop, hlt, -⟩ := upper_of_gap? hr hgap
  rw [h.upper_eq, Option.some.injEq] at hupper
  subst hupper
  exact ⟨h.upper_eq, hstop, hlt, h.contains_iff, h.nano_eq⟩

/-- The search finds the gap of every skipped reading. -/
theorem exists_findsGap (hspaced : c.zone.Spaced) (hday : c.zone.HasDayOffsets)
    (hinner : r.IsInner) (hr : r.IsOrdinary) (hskipped : c.isSkipped r = true) :
    ∃ stop gap, c.FindsGap r stop gap := by
  have hsome := (isSome_windowAround?_iff hspaced hday hinner hr).mpr
    ((isSkipped_iff hspaced hday).mp hskipped)
  obtain ⟨⟨t, gap⟩, hgap⟩ := Option.isSome_iff_exists.mp hsome
  obtain ⟨stop, hholds⟩ := exists_holdsUntil hday hr hgap
  obtain ⟨rfl, hcontains, hmoves, -⟩ :=
    movesOver_of_windowAround? hspaced hday hr hinner.isAmid hgap
  have hjump := hmoves.before_lt_after_iff.mpr rfl
  have hforward : t.isForward = true := Transition.isForward_iff.mpr hjump
  rw [Transition.contains_window_iff, if_pos hforward, if_pos hforward] at hcontains
  have hstop := hholds.upper_eq
  rw [Transition.window_of_isForward hforward (hcontains.1.trans_lt hcontains.2)] at hstop
  cases hstop
  -- The end of the gap lies within the calendar, so that it is not cut off.
  have hkey : t.localAfter.key = t.utc.key + t.after * 2000000000 := by
    have hoffsets := hmoves.switchesAt.offsets_mem hday
    have hlower := hmoves.min_le
    have hupper := hmoves.lt_max
    exact Reading.key_shift (hinner.isAmid.inCalendar (by omega) (by omega))
  have hseconds : t.localAfter.seconds = t.utc.seconds + t.after := by
    rw [Reading.seconds_eq_key_div, Reading.seconds_eq_key_div]
    omega
  exact ⟨t.localAfter, t.window, ⟨t, hgap⟩, hholds.contains_iff, hholds.upper_eq,
    ⟨t.utc.seconds, t.before, t.after, hmoves, hseconds.symm⟩, hholds.nano_eq⟩

end LocalClock

end Almanac
