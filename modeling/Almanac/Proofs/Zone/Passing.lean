import Almanac.Proofs.Zone.Conversion
import Almanac.Proofs.Zone.Gaps

/-!
# Readings left behind and overtaken

At a moment a clock has left the readings up to its own behind, but not all of them for good. One
that is not after the reading of the moment means an instant after the moment only if clocks fall
back over both of them in between and the policy takes the second time, or if it is skipped and
shifted to an instant yet to come. Of two readings the later one means the earlier instant only if
the earlier one is skipped and shifted beyond it. Going on in time, a clock does not come back to
the readings before a gap that it has jumped over.
-/

namespace Almanac.LocalClock

/-- A reading up to a start that clocks show again together with the start, the second time being
the one that counts. -/
def ShownAgain (clock : LocalClock) (behavior : Behavior) (start y : Reading) : Prop :=
  y ≤ start ∧ behavior.repeated = .standardTime ∧ clock.isRepeated start = true ∧
    clock.isRepeated y = true

/-- A reading up to a start that may still mean an instant to come: it is shown again, or it is
skipped and shifted. -/
def LeftBehind (clock : LocalClock) (behavior : Behavior) (start y : Reading) : Prop :=
  clock.ShownAgain behavior start y ∨
    y ≤ start ∧ behavior.skipped = .shift ∧ clock.isSkipped y = true

/-- A reading that clocks show, after a skipped one that is shifted beyond it: at the instant of the
skipped one, local time has passed it. -/
def Overtaken (clock : LocalClock) (behavior : Behavior) (x y : Reading) : Prop :=
  x < y ∧ behavior.skipped = .shift ∧ clock.isSkipped x = true ∧ clock.isSkipped y = false ∧
    ∃ m, clock.shiftSkipped? x = some m ∧ y.key < m.wall.key

variable {c : LocalClock} {behavior : Behavior} {policy : RepeatedPolicy} {now now' m m' : Moment}
  {start start' x y : Reading}

/-- What a clock shows at a moment. -/
theorem key_of_local? (hnow : c.showing now = now) (hstart : now.local? = some start) :
    start.key = now.utc.key + c.offsetAt now.utc * 2000000000 := by
  have hoffset : c.offsetAt now.utc = now.offset := congrArg Moment.offset hnow
  rw [hoffset, Wall.key_of_reading? hstart, Moment.key_wall]

theorem shows_of_showing (hnow : c.showing now = now) (hstart : now.local? = some start) :
    c.zone.Shows now.utc.seconds start.seconds :=
  shows_of_local? (congrArg Moment.offset hnow) hstart

/-- Only skipped readings that are shifted have an instant. -/
theorem shift_of_candidate? (hskipped : c.isSkipped y = true)
    (hm : c.candidate? behavior y = some m) :
    behavior.skipped = .shift ∧ c.shiftSkipped? y = some m := by
  rw [candidate?_of_skipped hskipped] at hm
  cases hpolicy : behavior.skipped with
  | skip =>
    rw [hpolicy] at hm
    cases hm
  | shift =>
    rw [hpolicy] at hm
    exact ⟨rfl, hm⟩

section Spaced

variable (hspaced : c.zone.Spaced) (hday : c.zone.HasDayOffsets)

include hspaced hday

/-- A reading after a skipped one that means an earlier instant comes before the shifted one on the
local clock. -/
theorem key_lt_of_shiftSkipped? (hskipped : c.isSkipped x = true)
    (hshift : c.shiftSkipped? x = some m) (hm' : c.Means policy y m') (hlt : x < y)
    (hback : m' < m) : y.key < m.wall.key := by
  obtain ⟨instant, before, after, hswitch, -, hkey, hmade, hupper, hoffset, -⟩ :=
    exists_switch_of_shiftSkipped? hspaced hday hskipped hshift
  have hoffsets := hswitch.offsets_mem hday
  have hbound : -86400 < c.offsetAt m'.utc ∧ c.offsetAt m'.utc < 86400 :=
    hday.offsetAt_mem m'.utc.seconds
  have hseconds := Reading.seconds_add_of_key hkey
  have hseconds' := hm'.seconds_eq
  have hkey' := hm'.key_eq
  have hreadings := Reading.seconds_le_of_le hlt.le
  have hinstants : m'.utc.seconds ≤ m.utc.seconds := Reading.seconds_le_of_le hback.le
  rw [Moment.lt_iff_utc, Reading.lt_iff_key] at hback
  rw [Reading.lt_iff_key] at hlt
  rw [Moment.key_wall, hoffset]
  -- Under the old offset the reading would come before the skipped one.
  have hlate : instant ≤ m'.utc.seconds := by
    by_contra hearly
    have hold : c.offsetAt m'.utc = before :=
      hswitch.offsetAt_of_lt m'.utc.seconds (by omega) (by omega)
    omega
  have hnew : c.offsetAt m'.utc = after :=
    hswitch.offsetAt_of_le m'.utc.seconds hlate (by omega)
  omega

/-- A later reading with an earlier instant is overtaken. -/
theorem overtaken_of_candidate? (hm : c.candidate? behavior x = some m)
    (hm' : c.candidate? behavior y = some m') (hlt : x < y) (hback : m' < m) :
    c.Overtaken behavior x y := by
  cases hskipped : c.isSkipped x with
  | false => exact (lt_asymm hback (lt_of_candidate? hspaced hday hm hm' hskipped hlt)).elim
  | true =>
    obtain ⟨hpolicy, hshift⟩ := shift_of_candidate? hskipped hm
    have hshown : c.isSkipped y = false := by
      by_contra hskipped'
      rw [Bool.not_eq_false] at hskipped'
      obtain ⟨-, hshift'⟩ := shift_of_candidate? hskipped' hm'
      exact lt_asymm hback
        (lt_of_shiftSkipped?_of_isSkipped hspaced hday hskipped hshift hskipped' hshift' hlt)
    rw [candidate?_of_shown hshown] at hm'
    exact ⟨hlt, hpolicy, hskipped, hshown, m, hshift, key_lt_of_shiftSkipped? hspaced hday hskipped
      hshift (means_of_resolve? hspaced hday hm') hlt hback⟩

variable (hnow : c.showing now = now) (hstart : now.local? = some start)

include hnow hstart

/-- If a reading up to the one of a moment means an instant after the moment, clocks fall back over
both in between, and the policy takes the second time. -/
theorem exists_movesOver_of_means (hm : c.Means policy y m) (hle : y ≤ start) (hlt : now < m) :
    policy = .standardTime ∧ ∃ instant before after,
      c.zone.MovesOver false y.seconds instant before after ∧
      c.zone.MovesOver false start.seconds instant before after := by
  have hkey := key_of_local? hnow hstart
  have hshows : now.utc.seconds + c.offsetAt now.utc = start.seconds :=
    shows_of_showing hnow hstart
  have hkey' := hm.key_eq
  have hshows' := hm.seconds_eq
  have hseconds := Reading.seconds_le_of_le hle
  have hinstants : now.utc.seconds ≤ m.utc.seconds := Reading.seconds_le_of_le hlt.le
  have hbound : -86400 < c.offsetAt now.utc ∧ c.offsetAt now.utc < 86400 :=
    hday.offsetAt_mem now.utc.seconds
  have hbound' : -86400 < c.offsetAt m.utc ∧ c.offsetAt m.utc < 86400 :=
    hday.offsetAt_mem m.utc.seconds
  have hback : c.offsetAt m.utc < c.offsetAt now.utc := by
    rw [Moment.lt_iff_utc, Reading.lt_iff_key] at hlt
    rw [Reading.le_iff_key] at hle
    omega
  obtain ⟨t, hlo, hhi, hswitch⟩ := hspaced.exists_switch hinstants (by omega) (ne_of_gt hback)
  change c.zone.SwitchesAt t (c.offsetAt now.utc) (c.offsetAt m.utc) at hswitch
  have hmoves : c.zone.MovesOver false y.seconds t (c.offsetAt now.utc) (c.offsetAt m.utc) :=
    ⟨hswitch, ne_of_gt hback, iff_of_false (by omega) Bool.false_ne_true, by omega, by omega⟩
  refine ⟨?_, t, _, _, hmoves,
    hswitch, ne_of_gt hback, iff_of_false (by omega) Bool.false_ne_true, by omega, by omega⟩
  cases policy with
  | standardTime => rfl
  | daylightTime =>
    have hfirst := hm.le_of_daylight rfl _ (hmoves.shows_twice hday).1
    omega

/-- A reading up to the present one whose instant is yet to come is left behind. -/
theorem leftBehind_of_candidate? (hm : c.candidate? behavior y = some m) (hle : y ≤ start)
    (hlt : now < m) : c.LeftBehind behavior start y := by
  cases hskipped : c.isSkipped y with
  | false =>
    rw [candidate?_of_shown hskipped] at hm
    obtain ⟨hpolicy, instant, before, after, hy, hs⟩ := exists_movesOver_of_means hspaced hday hnow
      hstart (means_of_resolve? hspaced hday hm) hle hlt
    exact Or.inl ⟨hle, hpolicy, (isRepeated_iff hspaced hday).mpr ⟨_, _, _, hs⟩,
      (isRepeated_iff hspaced hday).mpr ⟨_, _, _, hy⟩⟩
  | true => exact Or.inr ⟨hle, (shift_of_candidate? hskipped hm).1, hskipped⟩

/-- Once it has jumped over a reading, a clock does not go back before it. -/
theorem lt_of_isSkipped (hnow' : c.showing now' = now') (hstart' : now'.local? = some start')
    (hskipped : c.isSkipped y = true) (hlt : start < y) (hle : y ≤ start') : now < now' := by
  obtain ⟨stop, hgap⟩ := exists_gapEnds hspaced hday hskipped
  have hshown := (resolve?_of_local? hspaced hday (congrArg Moment.offset hnow') hstart').1
  have hlate : stop ≤ start'.seconds := by
    by_contra hearly
    rw [hgap.isSkipped hspaced hday hle (not_le.mp hearly)] at hshown
    cases hshown
  have hearly : start.seconds < stop := (Reading.seconds_le_of_le hlt.le).trans_lt hgap.lt
  have hseconds := hgap.lt_of_shows hday (shows_of_showing hnow hstart) hearly
    (shows_of_showing hnow' hstart') hlate
  rw [Moment.lt_iff_utc, ← not_le]
  exact fun hge => not_le_of_gt hseconds (Reading.seconds_le_of_le hge)

end Spaced

end Almanac.LocalClock
