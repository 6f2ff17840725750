import Almanac.Proofs.Zone.Gaps

/-!
# Shifting readings out of a gap

A skipped reading that is shifted is taken under the offset before the gap. The offset comes from
the change that the search finds, which is the one that moves clocks over the reading, so the
shifted reading means an instant less than the size of the gap after the change. Clocks show it
later by this size, where no other change skips it. The order of the readings of one gap is kept,
and readings outside all gaps are resolved.

The search looks at the two days on either side of the reading, and finds nothing where the
calendar does not hold them.
-/

namespace Almanac.LocalClock

variable {c : LocalClock} {r : Reading} {t : Transition} {gap : Interval Reading}
  {instant before after : Int}

/-- A moment less than the size of a gap after its change, at which clocks show a skipped reading
later by this size. -/
structure ShiftsTo (c : LocalClock) (r : Reading) (instant before after : Int) (x : Moment) :
    Prop where
  isOrdinary : x.utc.IsOrdinary
  le_nanos : instant * 1000000000 ≤ x.utc.nanos
  nanos_lt : x.utc.nanos < (instant + (after - before)) * 1000000000
  showing_eq : c.showing x = x
  offset_eq : x.offset = after
  exists_shown : ∃ shown, r.add? (Duration.ofSeconds (after - before)) = some shown ∧
    x.local? = some shown ∧ c.isSkipped shown = false

/-- Without room for the search no gap is found. -/
theorem gap?_eq_none_of_not_isAmid (hr : r.IsOrdinary) (hedge : ¬r.IsAmid) : c.gap? r = none := by
  rw [Option.eq_none_iff_forall_ne_some]
  rintro ⟨t, gap⟩ hgap
  obtain ⟨-, -, -, start, stop, hstart, hstop, -⟩ := exists_of_windowAround? hgap
  exact hedge (hr.isAmid hstart hstop)

section Spaced

variable (hspaced : c.zone.Spaced) (hday : c.zone.HasDayOffsets)

include hspaced hday

/-- A gap is found for skipped readings alone, leap seconds and the ends of the calendar
included. -/
theorem isSkipped_of_gap? (h : c.gap? r = some (t, gap)) : c.isSkipped r = true := by
  obtain ⟨-, hcontains, hforward, start, stop, hstart, hstop, hmem⟩ := exists_of_windowAround? h
  have hfirst := Reading.nano_of_add_days? (by decide) hstart
  have hlast := Reading.nano_of_add_days? (by decide) hstop
  obtain ⟨hmakes, hnano⟩ := makes_of_mem_transitionsBetween hspaced.sparse
    (Reading.isOrdinary_of_add_days? (by decide) hstart)
    (Reading.isOrdinary_of_add_days? (by decide) hstop) (hfirst.trans hlast.symm) hmem
  -- The transition has no larger fraction than the reading, so that seconds can be compared.
  have hkey := Transition.key_mem_of_contains_window hcontains
  rw [Reading.key_eq, Reading.key_eq] at hkey
  have hless := r.time.nano_lt
  have hmoves : c.zone.MovesOver true r.seconds t.utc.seconds t.before t.after :=
    (hmakes.movesOver_iff hspaced).mpr ⟨hforward, by omega, by omega⟩
  exact (isSkipped_iff hspaced hday).mpr ⟨_, _, _, hmoves⟩

theorem shiftSkipped?_eq_resolve? (hshown : c.isSkipped r = false) :
    c.shiftSkipped? r = c.resolve? r .standardTime := by
  have hnone : c.gap? r = none := by
    rw [Option.eq_none_iff_forall_ne_some]
    rintro ⟨t, gap⟩ hgap
    rw [isSkipped_of_gap? hspaced hday hgap] at hshown
    cases hshown
  unfold shiftSkipped?
  rw [hnone]

theorem shiftSkipped?_eq_none (hr : r.IsOrdinary) (hskipped : c.isSkipped r = true)
    (hedge : ¬r.IsAmid) : c.shiftSkipped? r = none := by
  unfold shiftSkipped?
  rw [gap?_eq_none_of_not_isAmid hr hedge]
  by_contra hresolved
  obtain ⟨m, hm⟩ := Option.ne_none_iff_exists'.mp hresolved
  have hmeans := means_of_resolve? hspaced hday hm
  exact not_shows_of_isSkipped hspaced hday hskipped _ hmeans.seconds_eq

variable (hmoves : c.zone.MovesOver true r.seconds instant before after)

include hmoves

/-- A reading in a gap is shifted under the offset before the gap. -/
theorem exists_shiftSkipped? (hr : r.IsOrdinary) (hamid : r.IsAmid) :
    ∃ u, r.shift? (-before) = some u ∧ c.shiftSkipped? r = some (c.ofUtc u) := by
  obtain ⟨t, hgap, -, rfl, -⟩ := exists_windowAround? hspaced hday hr hamid hmoves
  have hfound : c.gap? r = some (t, t.window) := hgap
  have hoffsets := hmoves.switchesAt.offsets_mem hday
  obtain ⟨u, hu⟩ := Reading.exists_shift? (r := r) (s := -t.before)
    (hamid.inCalendar (by omega) (by omega))
  refine ⟨u, hu, ?_⟩
  unfold shiftSkipped?
  rw [hfound]
  dsimp only
  rw [hu, Option.map_some]

/-- Clocks show what a reading in a gap is shifted to later by the size of the gap. -/
theorem shiftsTo_of_shift? {u : Reading} (hr : r.IsOrdinary) (hamid : r.IsAmid)
    (hu : r.shift? (-before) = some u) : c.ShiftsTo r instant before after (c.ofUtc u) := by
  have hoffsets := hmoves.switchesAt.offsets_mem hday
  have hjump := hmoves.before_lt_after_iff.mpr rfl
  have hlower := hmoves.min_le
  have hupper := hmoves.lt_max
  have hordinary : u.IsOrdinary := hr.shift? hu
  have hseconds := Reading.seconds_of_shift? hu
  have hnano := Reading.isOrdinary_iff.mp hordinary
  have hnanos : (c.ofUtc u).utc.nanos = u.seconds * 1000000000 + u.time.nano := rfl
  have hoffset : c.offsetAt u = after :=
    hmoves.switchesAt.offsetAt_of_le u.seconds (by omega) (by omega)
  have hroom : InCalendar (r.seconds + (after - before)) :=
    hamid.inCalendar (by omega) (by omega)
  obtain ⟨shown, hshown, -, hphase, hlater⟩ := hr.exists_add_seconds? hroom
  have hlocal : (c.ofUtc u).local? = some shown := by
    apply Wall.reading?_of_key_eq
    change (u.toWall.shift (c.offsetAt u)).key = shown.key
    rw [Reading.key_wall_shift, hoffset, Reading.key_of_shift? hu, Reading.key_eq r,
      Reading.key_eq shown, hphase, hlater]
    omega
  refine ⟨hordinary, ?_, ?_, rfl, hoffset, shown, hshown, hlocal, ?_⟩
  · rw [hnanos]
    omega
  · rw [hnanos]
    omega
  · exact (resolve?_of_local? hspaced hday rfl hlocal).1

omit hmoves

/-- A reading is skipped exactly when a change moves clocks forward over it. If the calendar holds
the two days on either side of it, it is shifted to an instant from the change on and before the
size of the gap has passed, at which clocks show it later by this size, under the new offset, and
what they show is not skipped; otherwise it has no instant. Later readings of a gap are shifted to
later instants. A reading that is in no gap is resolved, as standard time. -/
theorem shiftSkipped?_crosses_gap :
    (∀ r, c.isSkipped r = true ↔
      ∃ instant before after, c.zone.MovesOver true r.seconds instant before after) ∧
    (∀ r instant before after, r.IsOrdinary →
      c.zone.MovesOver true r.seconds instant before after →
      (r.IsAmid → ∃ x, c.shiftSkipped? r = some x ∧ c.ShiftsTo r instant before after x) ∧
      (¬r.IsAmid → c.shiftSkipped? r = none)) ∧
    (∀ r r' instant before after x x',
      c.zone.MovesOver true r.seconds instant before after →
      c.zone.MovesOver true r'.seconds instant before after → r < r' →
      c.shiftSkipped? r = some x → c.shiftSkipped? r' = some x' → x < x') ∧
    ∀ r, (∀ instant before after, ¬c.zone.MovesOver true r.seconds instant before after) →
      c.shiftSkipped? r = c.resolve? r .standardTime := by
  have hskipped : ∀ r, c.isSkipped r = true ↔
      ∃ instant before after, c.zone.MovesOver true r.seconds instant before after :=
    fun r => isSkipped_iff hspaced hday
  refine ⟨hskipped, fun r instant before after hr hmoves => ⟨fun hamid => ?_, fun hedge => ?_⟩,
    fun r r' instant before after x x' hmoves hmoves' hlt hx hx' => ?_, fun r hnone => ?_⟩
  · obtain ⟨u, hu, hshift⟩ := exists_shiftSkipped? hspaced hday hmoves hr hamid
    exact ⟨_, hshift, shiftsTo_of_shift? hspaced hday hmoves hr hamid hu⟩
  · exact shiftSkipped?_eq_none hspaced hday hr ((hskipped r).mpr ⟨_, _, _, hmoves⟩) hedge
  · exact lt_of_shiftSkipped?_of_isSkipped hspaced hday ((hskipped r).mpr ⟨_, _, _, hmoves⟩) hx
      ((hskipped r').mpr ⟨_, _, _, hmoves'⟩) hx' hlt
  · apply shiftSkipped?_eq_resolve? hspaced hday
    rw [← Bool.not_eq_true, hskipped]
    intro hmoves
    obtain ⟨instant, before, after, hmoves⟩ := hmoves
    exact hnone instant before after hmoves

end Spaced

section Sample

/-- The midnight before. -/
def augustMidnight : Reading := .ofDate augustNoon.date

/-- Clocks jumped over 21 August 1993. -/
theorem movesOver_kwajalein {reading : Int} (hlower : 745891200 ≤ reading)
    (hupper : reading < 745977600) :
    kwajalein.zone.MovesOver true reading 745934400 (-43200) 43200 := by
  obtain ⟨t, hlo, hhi, hswitch⟩ := spaced_kwajalein.exists_switch
    (show (745934399 : Int) ≤ 745934400 by decide) (by decide) (by decide +kernel)
  obtain rfl : t = 745934400 := by omega
  exact ⟨hswitch, by decide, by decide, hlower, hupper⟩

/-- The noon of 1993 is shifted to the noon of the next day, and the midnight before it to an
earlier instant. Clocks showed the noon of 1969 twice, and it is resolved. -/
theorem shiftSkipped?_crosses_gap_kwajalein :
    kwajalein.zone.Spaced ∧ kwajalein.zone.HasDayOffsets ∧
      augustNoon.IsOrdinary ∧ augustNoon.IsAmid ∧
      kwajalein.zone.MovesOver true augustNoon.seconds 745934400 (-43200) 43200 ∧
      (∃ x x', kwajalein.shiftSkipped? augustMidnight = some x ∧
        kwajalein.shiftSkipped? augustNoon = some x' ∧
        kwajalein.ShiftsTo augustNoon 745934400 (-43200) 43200 x' ∧ x < x') ∧
      kwajalein.shiftSkipped? septemberNoon = kwajalein.resolve? septemberNoon .standardTime := by
  have hnoon : kwajalein.zone.MovesOver true augustNoon.seconds 745934400 (-43200) 43200 :=
    movesOver_kwajalein (by decide) (by decide)
  have hmidnight : kwajalein.zone.MovesOver true augustMidnight.seconds 745934400 (-43200) 43200 :=
    movesOver_kwajalein (by decide) (by decide)
  have hamid : augustNoon.IsAmid := ⟨⟨by decide, by decide⟩, by decide, by decide⟩
  have hamid' : augustMidnight.IsAmid := ⟨⟨by decide, by decide⟩, by decide, by decide⟩
  obtain ⟨hskipped, hshifted, hordered, hresolved⟩ :=
    shiftSkipped?_crosses_gap spaced_kwajalein hasDayOffsets_kwajalein
  obtain ⟨x, hx, -⟩ := (hshifted _ _ _ _ (by decide) hmidnight).1 hamid'
  obtain ⟨x', hx', hshifts⟩ := (hshifted _ _ _ _ (by decide) hnoon).1 hamid
  have hshown : kwajalein.isSkipped septemberNoon ≠ true := by decide +kernel
  refine ⟨spaced_kwajalein, hasDayOffsets_kwajalein, by decide, hamid, hnoon,
    ⟨x, x', hx, hx', hshifts, hordered _ _ _ _ _ _ _ hmidnight hnoon (by decide) hx hx'⟩, ?_⟩
  apply hresolved
  intro instant before after hover
  exact hshown ((hskipped septemberNoon).mpr ⟨instant, before, after, hover⟩)

end Sample

end Almanac.LocalClock
