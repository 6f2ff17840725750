import Almanac.Proofs.Zone.Search
import Almanac.Proofs.Zone.Showing
import Almanac.Recurrence.Cursor

/-!
# The order of candidates

In a spaced zone a reading that clocks show means the last instant at which they show it, or the
first, by the policy. Later readings then mean later instants as long as the earlier of the two
is shown. A skipped reading that is shifted forward may overtake readings after it: this is the
only way in which the order of readings and the order of instants can disagree.
-/

namespace Almanac.LocalClock

variable {c : LocalClock} {r r' : Reading} {m m' : Moment}

/-- An instant at which the clock shows a reading: the last one, or the first one for the
daylight policy. -/
structure Means (c : LocalClock) (policy : RepeatedPolicy) (r : Reading) (m : Moment) : Prop where
  key_eq : m.utc.key + c.offsetAt m.utc * 2000000000 = r.key
  le_of_standard : policy = .standardTime → ∀ u, c.zone.Shows u r.seconds → u ≤ m.utc.seconds
  le_of_daylight : policy = .daylightTime → ∀ u, c.zone.Shows u r.seconds → m.utc.seconds ≤ u

theorem Means.seconds_eq {policy : RepeatedPolicy} (h : c.Means policy r m) :
    m.utc.seconds + c.offsetAt m.utc = r.seconds :=
  Reading.seconds_add_of_key h.key_eq

/-- The moment of a shown reading under one of its offsets. -/
theorem key_of_ofLocal? {offset : Int} (h : Moment.ofLocal? r offset = some m)
    (hshown : c.zone.Shows (r.seconds - offset) r.seconds) :
    m.utc.seconds = r.seconds - offset ∧ m.utc.key + c.offsetAt m.utc * 2000000000 = r.key := by
  obtain ⟨u, hu, rfl⟩ := Option.map_eq_some_iff.mp h
  have hkey := Reading.key_of_shift? hu
  have hseconds : u.seconds = r.seconds - offset := by
    rw [Reading.seconds_of_shift? hu]
    omega
  have hoffset : c.offsetAt u = offset := by
    unfold Zone.Shows at hshown
    rw [offsetAt, hseconds]
    omega
  refine ⟨hseconds, ?_⟩
  change u.key + c.offsetAt u * 2000000000 = r.key
  rw [hoffset]
  omega

/-- Under its own offset, a moment that is resolved reads what it was resolved from. -/
theorem key_of_resolve? {policy : RepeatedPolicy} (h : c.resolve? r policy = some m) :
    m.utc.key + m.offset * 2000000000 = r.key := by
  have hlocal : ∃ offset, Moment.ofLocal? r offset = some m := by
    unfold resolve? at h
    split at h
    · cases h
    · exact ⟨_, h⟩
    · exact ⟨_, h⟩
    · exact ⟨_, h⟩
  obtain ⟨offset, hoffset⟩ := hlocal
  obtain ⟨u, hu, rfl⟩ := Option.map_eq_some_iff.mp hoffset
  have hkey := Reading.key_of_shift? hu
  dsimp only
  omega

/-- A candidate that the clock shows is resolved. -/
theorem candidate?_of_shown {behavior : Behavior} (h : c.isSkipped r = false) :
    c.candidate? behavior r = c.resolve? r behavior.repeated := by
  unfold isSkipped at h
  unfold candidate?
  cases hoffsets : c.offsetsOf r with
  | skipped => simp [hoffsets] at h
  | single offset => rfl
  | repeated earlier later => rfl

/-- A candidate that the clock skips is dropped or shifted. -/
theorem candidate?_of_skipped {behavior : Behavior} (h : c.isSkipped r = true) :
    c.candidate? behavior r =
      match behavior.skipped with
      | .skip => none
      | .shift => c.shiftSkipped? r := by
  unfold isSkipped at h
  unfold candidate?
  cases hoffsets : c.offsetsOf r with
  | skipped => cases behavior.skipped <;> rfl
  | single offset => simp [hoffsets] at h
  | repeated earlier later => simp [hoffsets] at h

section Spaced

variable (hspaced : c.zone.Spaced) (hday : c.zone.HasDayOffsets)

include hspaced hday

/-- The offsets that the clock gives for a reading tell when it shows the reading. -/
theorem describes_offsetsOf (r : Reading) :
    (c.offsetsOf r).Describes r.seconds fun u => c.zone.Shows u r.seconds :=
  hspaced.describes_localOffsets hday r.seconds

/-- A moment that is resolved is an instant at which the clock shows the reading, chosen by the
policy. -/
theorem means_of_resolve? {policy : RepeatedPolicy} (h : c.resolve? r policy = some m) :
    c.Means policy r m := by
  have hdescribes := describes_offsetsOf hspaced hday r
  unfold resolve? at h
  generalize c.offsetsOf r = offsets at h hdescribes
  cases offsets with
  | skipped => cases policy <;> cases h
  | single offset =>
    have hm : Moment.ofLocal? r offset = some m := by
      cases policy <;> exact h
    obtain ⟨hseconds, hkey⟩ := key_of_ofLocal? hm ((hdescribes _).mpr rfl)
    refine ⟨hkey, fun _ u hu => ?_, fun _ u hu => ?_⟩
    · rw [(hdescribes u).mp hu, hseconds]
    · rw [(hdescribes u).mp hu, hseconds]
  | repeated earlier later =>
    obtain ⟨hlt, hiff⟩ := hdescribes
    cases policy with
    | standardTime =>
      obtain ⟨hseconds, hkey⟩ := key_of_ofLocal? h ((hiff _).mpr (Or.inr rfl))
      refine ⟨hkey, fun _ u hu => ?_, nofun⟩
      have hcases := (hiff u).mp hu
      omega
    | daylightTime =>
      obtain ⟨hseconds, hkey⟩ := key_of_ofLocal? h ((hiff _).mpr (Or.inl rfl))
      refine ⟨hkey, nofun, fun _ u hu => ?_⟩
      have hcases := (hiff u).mp hu
      omega

theorem not_shows_of_isSkipped (h : c.isSkipped r = true) (u : Int) :
    ¬c.zone.Shows u r.seconds := by
  have hdescribes := describes_offsetsOf hspaced hday r
  unfold isSkipped at h
  generalize c.offsetsOf r = offsets at h hdescribes
  cases offsets with
  | skipped => exact hdescribes u
  | single offset => cases h
  | repeated earlier later => cases h

/-- Clocks that show the later of two readings at the earlier of two instants fall back between the
instants. -/
theorem exists_switch_of_back (hkey : m.utc.key + c.offsetAt m.utc * 2000000000 = r.key)
    (hkey' : m'.utc.key + c.offsetAt m'.utc * 2000000000 = r'.key) (hlt : r < r')
    (hback : ¬m < m') :
    ∃ instant, m'.utc.seconds < instant ∧ instant ≤ m.utc.seconds ∧
      c.zone.SwitchesAt instant (c.offsetAt m'.utc) (c.offsetAt m.utc) := by
  change ¬m.utc < m'.utc at hback
  rw [Reading.lt_iff_key] at hlt hback
  have hne : c.offsetAt m'.utc ≠ c.offsetAt m.utc := by
    intro heq
    rw [heq] at hkey'
    omega
  have hinstants : m'.utc.seconds ≤ m.utc.seconds :=
    Reading.seconds_le_of_le (Reading.le_iff_key.mpr (by omega))
  have hbound : -86400 < c.offsetAt m.utc ∧ c.offsetAt m.utc < 86400 :=
    hday.offsetAt_mem m.utc.seconds
  have hbound' : -86400 < c.offsetAt m'.utc ∧ c.offsetAt m'.utc < 86400 :=
    hday.offsetAt_mem m'.utc.seconds
  have hnear : m.utc.seconds ≤ m'.utc.seconds + 172800 := by
    rw [Reading.seconds_eq_key_div, Reading.seconds_eq_key_div]
    omega
  exact hspaced.exists_switch hinstants hnear hne

/-- The last instant of a reading lies after every instant of an earlier reading: if clocks fell
back in between, they would show the reading once more. -/
theorem lt_of_standardTime (hkey : m.utc.key + c.offsetAt m.utc * 2000000000 = r.key)
    (hm' : c.Means .standardTime r' m') (hlt : r < r') : m < m' := by
  by_contra hback
  obtain ⟨t, hlo, hhi, hswitch⟩ := exists_switch_of_back hspaced hday hkey hm'.key_eq hlt hback
  have hoffsets := hswitch.offsets_mem hday
  have hseconds := Reading.seconds_add_of_key hkey
  have hseconds' := hm'.seconds_eq
  have hle := Reading.seconds_le_of_le hlt.le
  have hafter := hswitch.offsetAt_of_le (r'.seconds - c.offsetAt m.utc) (by omega) (by omega)
  have hshown : c.zone.Shows (r'.seconds - c.offsetAt m.utc) r'.seconds := by
    unfold Zone.Shows
    omega
  have hlast := hm'.le_of_standard rfl _ hshown
  omega

/-- The first instant of a reading lies before every instant of a later reading: if clocks fell
back in between, they would have shown the reading once before. -/
theorem lt_of_daylightTime (hm : c.Means .daylightTime r m)
    (hkey' : m'.utc.key + c.offsetAt m'.utc * 2000000000 = r'.key) (hlt : r < r') : m < m' := by
  by_contra hback
  obtain ⟨t, hlo, hhi, hswitch⟩ := exists_switch_of_back hspaced hday hm.key_eq hkey' hlt hback
  have hoffsets := hswitch.offsets_mem hday
  have hseconds := hm.seconds_eq
  have hseconds' := Reading.seconds_add_of_key hkey'
  have hle := Reading.seconds_le_of_le hlt.le
  have hbefore := hswitch.offsetAt_of_lt (r.seconds - c.offsetAt m'.utc) (by omega) (by omega)
  have hshown : c.zone.Shows (r.seconds - c.offsetAt m'.utc) r.seconds := by
    unfold Zone.Shows
    omega
  have hfirst := hm.le_of_daylight rfl _ hshown
  omega

/-- Shown readings mean instants in their order, whichever of two instants the policy chooses. -/
theorem lt_of_means {policy : RepeatedPolicy} (hm : c.Means policy r m)
    (hm' : c.Means policy r' m') (hlt : r < r') : m < m' := by
  cases policy with
  | standardTime => exact lt_of_standardTime hspaced hday hm.key_eq hm' hlt
  | daylightTime => exact lt_of_daylightTime hspaced hday hm hm'.key_eq hlt

omit hday in
/-- A transition that was seen after a sample is a change of the zone, made after the sample and no
later than the transition. -/
theorem exists_switch_of_seen {t : Transition} {sample : Reading}
    (hseen : t.Seen c.offsetAt sample) :
    ∃ instant, sample.seconds < instant ∧ instant ≤ t.utc.seconds ∧
      c.zone.SwitchesAt instant t.before t.after := by
  have hbefore : t.before = c.zone.offsetAt sample.seconds := hseen.before_eq
  have hafter : t.after = c.zone.offsetAt t.utc.seconds := hseen.after_eq
  have hne : c.zone.offsetAt sample.seconds ≠ c.zone.offsetAt t.utc.seconds := by
    rw [← hbefore, ← hafter]
    exact hseen.before_ne_after
  have hsample : sample.seconds ≤ t.utc.seconds := by
    exact Reading.seconds_le_of_le hseen.lt_utc.le
  have hnear := hseen.seconds_le
  rw [hbefore, hafter]
  exact hspaced.exists_switch hsample (by omega) hne

/-- A skipped reading that is shifted is taken under the offset before a change. The change has
been made at the instant that it means, and jumps over the reading. -/
theorem exists_switch_of_shiftSkipped? (hskipped : c.isSkipped r = true)
    (h : c.shiftSkipped? r = some m) :
    ∃ instant before after, c.zone.SwitchesAt instant before after ∧ before < after ∧
      m.utc.key + before * 2000000000 = r.key ∧ instant ≤ m.utc.seconds ∧
      r.seconds < instant + after ∧ m.offset = after ∧ c.offsetAt m.utc = after := by
  unfold shiftSkipped? at h
  cases hgap : c.gap? r with
  | none =>
    rw [hgap] at h
    have hmeans := means_of_resolve? hspaced hday h
    exact (not_shows_of_isSkipped hspaced hday hskipped _ hmeans.seconds_eq).elim
  | some found =>
    obtain ⟨t, gap⟩ := found
    rw [hgap] at h
    obtain ⟨u, hu, rfl⟩ := Option.map_eq_some_iff.mp h
    obtain ⟨⟨sample, hseen⟩, hjump, hlower, hupper⟩ := gap?_spec hgap
    have hkey := Reading.key_of_shift? hu
    have hseconds := Reading.seconds_of_shift? hu
    have hnear := hseen.seconds_le
    obtain ⟨instant, hlo, hhi, hswitch⟩ := exists_switch_of_seen hspaced hseen
    have hbound : -86400 < t.before ∧ t.before < 86400 := by
      rw [hseen.before_eq]
      exact hday.offsetAt_mem sample.seconds
    have hbound' : -86400 < t.after ∧ t.after < 86400 := by
      rw [hseen.after_eq]
      exact hday.offsetAt_mem t.utc.seconds
    have hmade : instant ≤ u.seconds := by
      have hle : t.utc.seconds ≤ u.seconds :=
        Reading.seconds_le_of_le (Reading.le_iff_key.mpr (by omega))
      omega
    -- Under the new offset clocks would have shown the skipped reading before the change.
    have hbefore : r.seconds < instant + t.after := by
      by_contra hnot
      apply not_shows_of_isSkipped hspaced hday hskipped (r.seconds - t.after)
      have hshown := hswitch.offsetAt_of_le (r.seconds - t.after) (by omega) (by
        rw [Reading.seconds_eq_key_div] at hhi hnear ⊢
        omega)
      unfold Zone.Shows
      omega
    have hoffset : c.offsetAt u = t.after :=
      hswitch.offsetAt_of_le u.seconds hmade (by omega)
    refine ⟨instant, t.before, t.after, hswitch, hjump, ?_, hmade, hbefore, hoffset, hoffset⟩
    change u.key + _ = _
    omega

/-- A shown reading before a skipped one means an instant before the shifted one. -/
theorem lt_of_shiftSkipped? {policy : RepeatedPolicy} (hm : c.Means policy r m)
    (hskipped : c.isSkipped r' = true) (hm' : c.shiftSkipped? r' = some m') (hlt : r < r') :
    m < m' := by
  obtain ⟨instant, before, after, hswitch, hjump, hkey', hmade, hbefore, -, -⟩ :=
    exists_switch_of_shiftSkipped? hspaced hday hskipped hm'
  have hafter : c.zone.offsetAt instant = after :=
    hswitch.offsetAt_of_le instant le_rfl (by omega)
  have hbound := hday.offsetAt_mem instant
  have hboundm : -86400 < c.offsetAt m.utc ∧ c.offsetAt m.utc < 86400 :=
    hday.offsetAt_mem m.utc.seconds
  have hkey := hm.key_eq
  have hseconds := hm.seconds_eq
  change m.utc < m'.utc
  rw [Reading.lt_iff_key] at hlt ⊢
  by_contra hge
  have hle : r.seconds ≤ r'.seconds := Reading.seconds_le_of_le (Reading.le_iff_key.mpr (by omega))
  have hinstants : m'.utc.seconds ≤ m.utc.seconds :=
    Reading.seconds_le_of_le (Reading.le_iff_key.mpr (by omega))
  by_cases hfar : m.utc.seconds ≤ instant + 172800
  · have hoffset : c.offsetAt m.utc = after :=
      hswitch.offsetAt_of_le m.utc.seconds (by omega) hfar
    rw [hoffset] at hkey
    omega
  · omega

/-- Later readings mean later instants when the earlier one is shown. -/
theorem lt_of_candidate? {behavior : Behavior} (hm : c.candidate? behavior r = some m)
    (hm' : c.candidate? behavior r' = some m') (hshown : c.isSkipped r = false) (hlt : r < r') :
    m < m' := by
  rw [candidate?_of_shown hshown] at hm
  have hmeans := means_of_resolve? hspaced hday hm
  cases hskipped : c.isSkipped r' with
  | false =>
    rw [candidate?_of_shown hskipped] at hm'
    exact lt_of_means hspaced hday hmeans (means_of_resolve? hspaced hday hm') hlt
  | true =>
    rw [candidate?_of_skipped hskipped] at hm'
    cases hpolicy : behavior.skipped with
    | skip =>
      rw [hpolicy] at hm'
      cases hm'
    | shift =>
      rw [hpolicy] at hm'
      exact lt_of_shiftSkipped? hspaced hday hmeans hskipped hm' hlt

end Spaced

end Almanac.LocalClock
