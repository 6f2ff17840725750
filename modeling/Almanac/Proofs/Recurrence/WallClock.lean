import Almanac.Proofs.Recurrence.Later
import Almanac.Proofs.Zone.Shifted

/-!
# Periods on the wall clock

A period goes on by local readings. The reading one period later lies ahead of the present reading,
however clocks are changed in between, and its last instant lies ahead of the present. So a reading
that clocks show once is always reached, and one that they skip is shifted. A reading that they show
twice is reached at its second instant under the standard policy. The daylight policy counts elapsed
time instead, which leads to the first instant only from under the offset of this instant.
-/

namespace Almanac

namespace LocalClock

/-- Clocks show a reading at two moments and at no others. -/
structure ShowsTwice (clock : LocalClock) (r : Reading) (first last : Moment) : Prop where
  first_lt_last : first < last
  shows_iff : ∀ m, clock.showing m = m ∧ m.local? = some r ↔ m = first ∨ m = last

variable {c : LocalClock} {r : Reading} {first last : Moment}

section Spaced

variable (hspaced : c.zone.Spaced) (hday : c.zone.HasDayOffsets)

include hspaced hday

/-- A single offset belongs to a single instant. -/
theorem existsUnique_shows {offset : Int} (h : c.offsetsOf r = .single offset) :
    ∃! u, c.zone.Shows u r.seconds := by
  have hdescribes := describes_offsetsOf hspaced hday r
  rw [h] at hdescribes
  exact ⟨_, (hdescribes _).mpr rfl, fun u hu => (hdescribes u).mp hu⟩

/-- A reading that a single instant shows means this instant under every policy. -/
theorem resolve?_of_existsUnique (h : ∃! u, c.zone.Shows u r.seconds)
    (hreach : c.InstantsInCalendar r) :
    c.isSkipped r = false ∧ c.isRepeated r = false ∧
      ∃ m, ∀ policy, c.resolve? r policy = some m := by
  obtain ⟨u, hu, hunique⟩ := h
  have hdescribes := describes_offsetsOf hspaced hday r
  unfold isSkipped isRepeated resolve?
  generalize c.offsetsOf r = offsets at hdescribes ⊢
  cases offsets with
  | skipped => exact (hdescribes u hu).elim
  | single offset =>
    obtain ⟨m, hm⟩ := Moment.exists_ofLocal? (hreach _ ((hdescribes _).mpr rfl))
    exact ⟨rfl, rfl, m, fun _ => hm⟩
  | repeated earlier later =>
    obtain ⟨hlt, hiff⟩ := hdescribes
    have hfirst := hunique _ ((hiff _).mpr (Or.inl rfl))
    have hlast := hunique _ ((hiff _).mpr (Or.inr rfl))
    omega

/-- A repeated reading is shown at the two moments that the policies choose. -/
theorem showsTwice_of_resolve? (hrepeated : c.isRepeated r = true)
    (hfirst : c.resolve? r .daylightTime = some first)
    (hlast : c.resolve? r .standardTime = some last) : c.ShowsTwice r first last := by
  obtain ⟨hle, hiff⟩ := le_of_resolve? hspaced hday hfirst hlast
  have hne : first.utc ≠ last.utc := by
    rw [ne_eq, hiff, hrepeated]
    exact Bool.true_eq_false.mp
  refine ⟨Moment.lt_iff_utc.mpr (lt_of_le_of_ne hle hne), fun m => ⟨?_, ?_⟩⟩
  · rintro ⟨hm, hlocal⟩
    obtain ⟨-, hmeans, -⟩ := resolve?_of_local? hspaced hday (congrArg Moment.offset hm) hlocal
    rcases hmeans with hdaylight | hstandard
    · exact Or.inl (Option.some.inj (hdaylight.symm.trans hfirst))
    · exact Or.inr (Option.some.inj (hstandard.symm.trans hlast))
  · rintro (rfl | rfl)
    · exact (reads_of_resolve? hspaced hday hfirst).symm
    · exact (reads_of_resolve? hspaced hday hlast).symm

theorem exists_resolve?_of_isRepeated (hrepeated : c.isRepeated r = true)
    (hreach : c.InstantsInCalendar r) (policy : RepeatedPolicy) :
    ∃ m, c.resolve? r policy = some m := by
  have hshown : c.isSkipped r ≠ true := fun hskipped =>
    not_isSkipped_and_isRepeated ⟨hskipped, hrepeated⟩
  exact Option.ne_none_iff_exists'.mp (mt (resolve?_eq_none_iff hspaced hday hreach).mp hshown)

end Spaced

end LocalClock

namespace Period

variable {p : Period} {behavior : Behavior} {clock : LocalClock} {now m : Moment}
  {start candidate : Reading}

/-- The reading one period later lies after the present reading. -/
theorem lt_of_add? (hcandidate : start.add? p.duration = some candidate) : start < candidate := by
  have hpos : 0 < p.duration.nanos := Int.mul_pos p.pos (by decide)
  have hlt := Wall.key_lt_add start.toWall hpos
  rw [Reading.lt_iff_key, Wall.key_of_reading? hcandidate]
  exact hlt

/-- Elapsed time leads to an instant of the reading one period later when this instant has the
offset of the present. -/
theorem elapsed_eq_ok_iff (hstart : now.local? = some start)
    (hcandidate : start.add? p.duration = some candidate) (hm : clock.showing m = m)
    (hlocal : m.local? = some candidate) :
    p.elapsed clock now = .ok m ↔ now.offset = m.offset := by
  -- Added on the universal line, the period leads to the same reading under the present offset.
  have hsum : (now.utc.toWall.add p.duration).key + now.offset * 2000000000 =
      m.utc.key + m.offset * 2000000000 := by
    have hwall : start.toWall = now.wall := Wall.key_injective (Wall.key_of_reading? hstart)
    rw [← Wall.key_add_shift, ← Moment.key_wall, ← Wall.key_of_reading? hlocal,
      Wall.key_of_reading? hcandidate, hwall]
    rfl
  unfold elapsed
  constructor
  · intro h
    split at h
    · next utc hutc =>
      cases h
      have hkey := Wall.key_of_reading? hutc
      have hofUtc : (clock.ofUtc utc).utc = utc := rfl
      rw [hofUtc] at hsum
      omega
    · cases h
  · intro hoffset
    have hutc : now.utc.add? p.duration = some m.utc := by
      apply Wall.reading?_of_key_eq
      rw [hoffset] at hsum
      omega
    rw [hutc]
    exact congrArg Except.ok hm

/-- An instant that lies ahead is the occurrence. -/
theorem nextTime_eq_ok (hstart : now.local? = some start)
    (hcandidate : start.add? p.duration = some candidate)
    (hresolution : p.resolution behavior clock now start candidate = .ok (some m))
    (hlt : now < m) : p.nextTime behavior clock now = .ok m := by
  rw [nextTime_eq hstart hcandidate, hresolution]
  exact if_pos hlt

section Spaced

variable (hspaced : clock.zone.Spaced) (hday : clock.zone.HasDayOffsets)
  (hnow : clock.showing now = now) (hstart : now.local? = some start)
  (hcandidate : start.add? p.duration = some candidate)

include hspaced hday hnow hstart hcandidate

/-- The last instant of the reading one period later lies ahead of the present. -/
theorem lt_of_resolve?_standardTime
    (hm : clock.resolve? candidate .standardTime = some m) : now < m :=
  LocalClock.lt_of_standardTime hspaced hday (LocalClock.key_of_local? hnow hstart).symm
    (LocalClock.means_of_resolve? hspaced hday hm) (lt_of_add? hcandidate)

/-- Where the reading one period later is skipped, the shifted one lies ahead of the present. -/
theorem lt_of_shiftSkipped? (hskipped : clock.isSkipped candidate = true)
    (hm : clock.shiftSkipped? candidate = some m) : now < m := by
  obtain ⟨-, hmeans, -⟩ := LocalClock.resolve?_of_local? hspaced hday
    (congrArg Moment.offset hnow) hstart
  rcases hmeans with hdaylight | hstandard
  · exact LocalClock.lt_of_shiftSkipped? hspaced hday
      (LocalClock.means_of_resolve? hspaced hday hdaylight) hskipped hm (lt_of_add? hcandidate)
  · exact LocalClock.lt_of_shiftSkipped? hspaced hday
      (LocalClock.means_of_resolve? hspaced hday hstandard) hskipped hm (lt_of_add? hcandidate)

/-- A period goes on to the reading one period later. If clocks show this reading at a single
instant, then this instant lies ahead of the present, however many changes lie between, and it is
the occurrence: elapsed time is never counted. If a change moves clocks forward over the reading and
skipped readings are shifted, the occurrence is the instant of the reading under the offset before
the change, if the calendar holds the two days on either side of the reading; otherwise the reading
has no instant, and elapsed time is counted. -/
theorem nextTime_keeps_wallClock (behavior : Behavior) :
    ((∃! u, clock.zone.Shows u candidate.seconds) → clock.InstantsInCalendar candidate →
      ∃ m, p.resolution behavior clock now start candidate = .ok (some m) ∧ now < m ∧
        p.nextTime behavior clock now = .ok m ∧
        m.local? = some candidate ∧ clock.showing m = m) ∧
    ∀ instant before after, clock.zone.MovesOver true candidate.seconds instant before after →
      behavior.skipped = .shift → now.utc.IsOrdinary →
      (candidate.IsAmid →
        ∃ m, p.resolution behavior clock now start candidate = .ok (some m) ∧ now < m ∧
          p.nextTime behavior clock now = .ok m ∧
          candidate.shift? (-before) = some m.utc ∧ clock.showing m = m) ∧
      (¬candidate.IsAmid → p.resolution behavior clock now start candidate = .ok none ∧
        p.nextTime behavior clock now = p.elapsed clock now) := by
  constructor
  · intro hunique hreach
    obtain ⟨hshown, honce, m, hm⟩ :=
      LocalClock.resolve?_of_existsUnique hspaced hday hunique hreach
    have hlt := lt_of_resolve?_standardTime hspaced hday hnow hstart hcandidate
      (hm .standardTime)
    have hresolution : p.resolution behavior clock now start candidate = .ok (some m) := by
      unfold resolution
      simp only [hshown, honce, hm, Bool.false_eq_true, false_and, if_false]
    obtain ⟨hlocal, hshows⟩ := LocalClock.reads_of_resolve? hspaced hday (hm .standardTime)
    exact ⟨m, hresolution, hlt, nextTime_eq_ok hstart hcandidate hresolution hlt, hlocal, hshows⟩
  · intro instant before after hmoves hshift hordinary
    have hstartOrdinary := Moment.isOrdinary_of_local? hordinary hstart
    have hcandidateOrdinary := (hstartOrdinary.add? hcandidate).1
    have hskipped := (LocalClock.isSkipped_iff hspaced hday).mpr ⟨_, _, _, hmoves⟩
    have hresolution : p.resolution behavior clock now start candidate =
        .ok (clock.shiftSkipped? candidate) := by
      unfold resolution
      rw [if_pos hskipped, hshift]
    refine ⟨fun hamid => ?_, fun hedge => ?_⟩
    · obtain ⟨u, hu, hm⟩ :=
        LocalClock.exists_shiftSkipped? hspaced hday hmoves hcandidateOrdinary hamid
      have hlt := lt_of_shiftSkipped? hspaced hday hnow hstart hcandidate hskipped hm
      rw [hm] at hresolution
      exact ⟨clock.ofUtc u, hresolution, hlt,
        nextTime_eq_ok hstart hcandidate hresolution hlt, hu, rfl⟩
    · rw [LocalClock.shiftSkipped?_eq_none hspaced hday hcandidateOrdinary hskipped hedge]
        at hresolution
      refine ⟨hresolution, ?_⟩
      rw [nextTime_eq hstart hcandidate, hresolution]
      rfl

end Spaced

section Sample

open Recurrence

/-- Every day. -/
def oneDay : Period := ⟨86400000, by decide, by decide⟩

/-- A day after half past one clocks have jumped forward, and show half past one again. Forty
minutes after it they skip ten past two, which is shifted to ten past three. -/
theorem nextTime_keeps_wallClock_newYork :
    newYork.zone.Spaced ∧ newYork.zone.HasDayOffsets ∧
      ((∃! u, newYork.zone.Shows u (readingOn 20521 5400 0 (by decide)).seconds) ∧
        newYork.InstantsInCalendar (readingOn 20521 5400 0 (by decide)) ∧
        ∃ m, oneDay.nextTime {} newYork (springForward 23400 (-18000) (by decide)) = .ok m ∧
          m.local? = some (readingOn 20521 5400 0 (by decide))) ∧
      newYork.zone.MovesOver true (readingOn 20520 7800 0 (by decide)).seconds 1772953200 (-18000)
        (-14400) ∧
      ∃ m, fortyMinutes.nextTime {} newYork (springForward 23400 (-18000) (by decide)) = .ok m ∧
        (readingOn 20520 7800 0 (by decide)).shift? 18000 = some m.utc := by
  have hstart : (springForward 23400 (-18000) (by decide)).local? =
      some (readingOn 20520 5400 0 (by decide)) := by
    decide +kernel
  have hunique : ∃! u, newYork.zone.Shows u (readingOn 20521 5400 0 (by decide)).seconds :=
    LocalClock.existsUnique_shows spaced_newYork hasDayOffsets_newYork
      (show newYork.offsetsOf _ = .single (-14400) by decide +kernel)
  have hreach : newYork.InstantsInCalendar (readingOn 20521 5400 0 (by decide)) :=
    LocalClock.instantsInCalendar_of_day_mem hasDayOffsets_newYork (by decide)
  have hmoves : newYork.zone.MovesOver true (readingOn 20520 7800 0 (by decide)).seconds
      1772953200 (-18000) (-14400) := by
    obtain ⟨t, hlo, hhi, hswitch⟩ := spaced_newYork.exists_switch
      (show (1772953199 : Int) ≤ 1772953200 by decide) (by decide) (by decide +kernel)
    obtain rfl : t = 1772953200 := by omega
    exact ⟨hswitch, by decide, by decide, by decide, by decide⟩
  have honeDay : (readingOn 20520 5400 0 (by decide)).add? oneDay.duration =
      some (readingOn 20521 5400 0 (by decide)) := by
    decide +kernel
  have hforty : (readingOn 20520 5400 0 (by decide)).add? fortyMinutes.duration =
      some (readingOn 20520 7800 0 (by decide)) := by
    decide +kernel
  obtain ⟨honce, -⟩ := nextTime_keeps_wallClock spaced_newYork hasDayOffsets_newYork
    (by decide +kernel) hstart honeDay {}
  obtain ⟨-, hgap⟩ := nextTime_keeps_wallClock spaced_newYork hasDayOffsets_newYork
    (by decide +kernel) hstart hforty {}
  obtain ⟨m, -, -, hm, hlocal, -⟩ := honce hunique hreach
  have hamid : (readingOn 20520 7800 0 (by decide)).IsAmid :=
    ⟨⟨by decide, by decide⟩, by decide, by decide⟩
  obtain ⟨m', -, -, hm', hshift, -⟩ := (hgap _ _ _ hmoves rfl (by decide)).1 hamid
  exact ⟨spaced_newYork, hasDayOffsets_newYork, ⟨hunique, hreach, m, hm, hlocal⟩, hmoves, m', hm',
    hshift⟩

end Sample

/-- The daylight policy is met at a repeated reading: the first of its instants is the occurrence if
it lies ahead of the present, and elapsed time is counted if it does not. -/
def TakesFirst (p : Period) (skipped : SkippedPolicy) (clock : LocalClock) (now first : Moment) :
    Prop :=
  p.nextTime { skipped, repeated := .daylightTime } clock now =
    if now < first then .ok first else p.elapsed clock now

instance (p : Period) (skipped : SkippedPolicy) (clock : LocalClock) (now first : Moment) :
    Decidable (p.TakesFirst skipped clock now first) :=
  inferInstanceAs (Decidable (_ = _))

/-- When clocks show the reading one period later twice, the standard policy takes its second
instant. The daylight policy always counts elapsed time, and so meets the first instant, if this
one lies ahead of the present, exactly when the present has the offset of this instant. -/
theorem nextTime_of_repeated (hspaced : clock.zone.Spaced) (hday : clock.zone.HasDayOffsets)
    (hnow : clock.showing now = now) (hstart : now.local? = some start)
    (hcandidate : start.add? p.duration = some candidate)
    (hrepeated : clock.isRepeated candidate = true)
    (hreach : clock.InstantsInCalendar candidate) (skipped : SkippedPolicy) :
    ∃ first last, clock.ShowsTwice candidate first last ∧
      p.nextTime { skipped, repeated := .standardTime } clock now = .ok last ∧
      p.nextTime { skipped, repeated := .daylightTime } clock now = p.elapsed clock now ∧
      (p.TakesFirst skipped clock now first ↔ (now < first → now.offset = first.offset)) := by
  obtain ⟨first, hfirst⟩ :=
    LocalClock.exists_resolve?_of_isRepeated hspaced hday hrepeated hreach .daylightTime
  obtain ⟨last, hlast⟩ :=
    LocalClock.exists_resolve?_of_isRepeated hspaced hday hrepeated hreach .standardTime
  have htwice := LocalClock.showsTwice_of_resolve? hspaced hday hrepeated hfirst hlast
  have hshown : ¬clock.isSkipped candidate = true := fun hskipped =>
    LocalClock.not_isSkipped_and_isRepeated ⟨hskipped, hrepeated⟩
  have hstandard : p.resolution { skipped, repeated := .standardTime } clock now start candidate =
      .ok (some last) := by
    unfold resolution
    rw [if_neg hshown, if_neg fun hboth => RepeatedPolicy.noConfusion hboth.2, hlast]
  have hdaylight : p.nextTime { skipped, repeated := .daylightTime } clock now =
      p.elapsed clock now := by
    rw [nextTime_eq hstart hcandidate]
    unfold resolution
    rw [if_neg hshown, if_pos ⟨hrepeated, rfl⟩]
    cases p.elapsed clock now with
    | error fault => rfl
    | ok m => exact ite_self _
  refine ⟨first, last, htwice, ?_, hdaylight, ?_⟩
  · exact nextTime_eq_ok hstart hcandidate hstandard
      (lt_of_resolve?_standardTime hspaced hday hnow hstart hcandidate hlast)
  · obtain ⟨hshows, hlocal⟩ := (htwice.shows_iff first).mpr (Or.inl rfl)
    unfold TakesFirst
    rw [hdaylight]
    split
    · next hlt =>
      rw [elapsed_eq_ok_iff hstart hcandidate hshows hlocal, forall_prop_of_true hlt]
    · next hnot => exact iff_of_true rfl fun hlt => (hnot hlt).elim

section Sample

open Recurrence

/-- The later of the two instants at which clocks show 01:25. -/
theorem nextTime_of_repeated_newYork :
    newYork.zone.Spaced ∧ newYork.zone.HasDayOffsets ∧
      newYork.isRepeated (readingOn 20758 5100 0 (by decide)) = true ∧
      ∃ first last, newYork.ShowsTwice (readingOn 20758 5100 0 (by decide)) first last ∧
        fortyMinutes.nextTime {} newYork (fallBack 17100 (-14400) (by decide)) = .ok last := by
  have hrepeated : newYork.isRepeated (readingOn 20758 5100 0 (by decide)) = true := by
    decide +kernel
  have hstart : (fallBack 17100 (-14400) (by decide)).local? =
      some (readingOn 20758 2700 0 (by decide)) := by
    decide +kernel
  have hcandidate : (readingOn 20758 2700 0 (by decide)).add? fortyMinutes.duration =
      some (readingOn 20758 5100 0 (by decide)) := by
    decide +kernel
  obtain ⟨first, last, htwice, hlast, -, -⟩ := nextTime_of_repeated spaced_newYork
    hasDayOffsets_newYork (by decide +kernel) hstart hcandidate hrepeated
    (LocalClock.instantsInCalendar_of_day_mem hasDayOffsets_newYork (by decide)) .shift
  exact ⟨spaced_newYork, hasDayOffsets_newYork, hrepeated, first, last, htwice, hlast⟩

/-- Every thirty-nine weeks. -/
def thirtyNineWeeks : Period := ⟨23587200000, by decide, by decide⟩

/-- Every four hundred days. -/
def fourHundredDays : Period := ⟨34560000000, by decide, by decide⟩

/-- In February, thirty-nine weeks lead to the morning of November on which clocks show half past
one twice. The first of the two instants lies ahead, and the daylight policy finds the second one.
Clocks of Lord Howe have gone by two daylight offsets, and four hundred days lead from under the
one to an instant that reads half an hour too early. -/
theorem not_takesFirst_newYork :
    (newYork.zone.Spaced ∧ newYork.zone.HasDayOffsets ∧
      newYork.showing (instantOn 20485 23400 0 (-18000) (by decide)) =
        instantOn 20485 23400 0 (-18000) (by decide) ∧
      (instantOn 20485 23400 0 (-18000) (by decide)).local? =
        some (readingOn 20485 5400 0 (by decide)) ∧
      (readingOn 20485 5400 0 (by decide)).add? thirtyNineWeeks.duration =
        some (readingOn 20758 5400 0 (by decide)) ∧
      newYork.ShowsTwice (readingOn 20758 5400 0 (by decide))
        (fallBack 19800 (-14400) (by decide)) (fallBack 23400 (-18000) (by decide)) ∧
      instantOn 20485 23400 0 (-18000) (by decide) < fallBack 19800 (-14400) (by decide) ∧
      thirtyNineWeeks.nextTime { repeated := .daylightTime } newYork
        (instantOn 20485 23400 0 (-18000) (by decide)) =
          .ok (fallBack 23400 (-18000) (by decide)) ∧
      ¬thirtyNineWeeks.TakesFirst .shift newYork (instantOn 20485 23400 0 (-18000) (by decide))
        (fallBack 19800 (-14400) (by decide))) ∧
    lordHowe.zone.Spaced ∧ lordHowe.zone.HasDayOffsets ∧
      lordHowe.showing (instantOn 5517 50700 0 41400 (by decide)) =
        instantOn 5517 50700 0 41400 (by decide) ∧
      (instantOn 5517 50700 0 41400 (by decide)).local? =
        some (readingOn 5518 5700 0 (by decide)) ∧
      (readingOn 5518 5700 0 (by decide)).add? fourHundredDays.duration =
        some (readingOn 5918 5700 0 (by decide)) ∧
      lordHowe.ShowsTwice (readingOn 5918 5700 0 (by decide))
        (instantOn 5917 52500 0 39600 (by decide)) (instantOn 5917 54300 0 37800 (by decide)) ∧
      instantOn 5517 50700 0 41400 (by decide) < instantOn 5917 52500 0 39600 (by decide) ∧
      fourHundredDays.nextTime { repeated := .daylightTime } lordHowe
        (instantOn 5517 50700 0 41400 (by decide)) =
          .ok (instantOn 5917 50700 0 39600 (by decide)) ∧
      ¬fourHundredDays.TakesFirst .shift lordHowe (instantOn 5517 50700 0 41400 (by decide))
        (instantOn 5917 52500 0 39600 (by decide)) := by
  have hspaced : lordHowe.zone.Spaced := by decide +kernel
  have hday : lordHowe.zone.HasDayOffsets := ⟨by decide, by decide +kernel⟩
  refine ⟨⟨spaced_newYork, hasDayOffsets_newYork, by decide +kernel, by decide +kernel,
    by decide +kernel, LocalClock.showsTwice_of_resolve? spaced_newYork hasDayOffsets_newYork
      (by decide +kernel) (by decide +kernel) (by decide +kernel), by decide, by decide +kernel,
    by decide +kernel⟩, hspaced, hday, by decide +kernel, by decide +kernel, by decide +kernel,
    LocalClock.showsTwice_of_resolve? hspaced hday (by decide +kernel) (by decide +kernel)
      (by decide +kernel), by decide, by decide +kernel, by decide +kernel⟩

end Sample

end Period

end Almanac
