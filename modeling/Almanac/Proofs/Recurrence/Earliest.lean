import Almanac.Proofs.Recurrence.First
import Almanac.Proofs.Recurrence.Loss

/-!
# The earliest occurrence

A fresh recurrence compares readings where the earliest occurrence is a matter of instants. In a
spaced zone the two agree but for two kinds of readings. One up to the local reading of the present
is left behind, although clocks will fall back to it or it is shifted to an instant to come. One
after a skipped reading is overtaken, although the skipped reading is shifted beyond it. Without
such a reading the call finds the earliest instant after the present of all qualifying readings.
-/

namespace Almanac

/-- The readings of a recurrence that does not count its dates. -/
def RecurrenceKind.qualifyingReadings (kind : RecurrenceKind) : Set Reading :=
  match kind.calendar? with
  | some (_, times) => Almanac.readings kind.qualifying times
  | none => ∅

namespace Recurrence

variable {r : Recurrence} {clock : LocalClock} {now : Moment} {s : Schedule}

/-- The instants after a moment that the qualifying readings of a recurrence mean. -/
def instantsAfter (r : Recurrence) (clock : LocalClock) (now : Moment) : Set Moment :=
  {m | now < m ∧ ∃ y ∈ r.kind.qualifyingReadings, clock.candidate? r.behavior y = some m}

/-- In a spaced zone, what a fresh phase-free recurrence finds is the instant of the first reading
after the local reading of the present with an instant to come. It is the earliest instant after
the present of all qualifying readings, exactly when none before it belongs to a reading that is
left behind at the start or overtaken by the first one; always so when skipped readings are dropped
and repeated ones mean the first time. -/
theorem isLeast_instantsAfter_iff (hcalendar : r.kind.calendar? ≠ none)
    (hfree : r.kind.PhaseFree) (hspaced : clock.zone.Spaced) (hday : clock.zone.HasDayOffsets)
    (hok : (r.next clock {} now).result = .ok s) :
    ∃ start x, (clock.showing now).local? = some start ∧
      FirstAfter r.kind.qualifyingReadings clock r.behavior (clock.showing now) start x
        s.occursOn ∧
      (IsLeast (r.instantsAfter clock (clock.showing now)) s.occursOn ↔
        ∀ y ∈ r.kind.qualifyingReadings,
          clock.LeftBehind r.behavior start y ∨ clock.Overtaken r.behavior x y →
            ∀ m, clock.candidate? r.behavior y = some m → clock.showing now < m →
              ¬m < s.occursOn) ∧
      (r.behavior.skipped = .skip → r.behavior.repeated = .daylightTime →
        IsLeast (r.instantsAfter clock (clock.showing now)) s.occursOn) := by
  obtain ⟨⟨rule, times⟩, hcalendar⟩ := Option.ne_none_iff_exists'.mp hcalendar
  have hreadings : r.kind.qualifyingReadings = readings r.kind.qualifying times := by
    simp only [RecurrenceKind.qualifyingReadings, hcalendar]
  obtain ⟨start, x, hstart, hcounted⟩ := exists_firstAfter_of_next hcalendar hok
  have hfirst := hcounted.of_phaseFree hfree hcalendar
  rw [← hreadings] at hfirst
  have hiff : IsLeast (r.instantsAfter clock (clock.showing now)) s.occursOn ↔
      ∀ y ∈ r.kind.qualifyingReadings,
        clock.LeftBehind r.behavior start y ∨ clock.Overtaken r.behavior x y →
          ∀ m, clock.candidate? r.behavior y = some m → clock.showing now < m →
            ¬m < s.occursOn := by
    constructor
    · intro hleast y hy _ m hm hlt
      exact not_lt_of_ge (hleast.2 ⟨hlt, y, hy, hm⟩)
    · intro hnone
      refine ⟨⟨hfirst.now_lt, x, hfirst.mem, hfirst.candidate?_eq⟩, fun m hm => ?_⟩
      obtain ⟨hlt, y, hy, hcandidate⟩ := hm
      refine Moment.le_of_not_lt fun hback => ?_
      have hkind := hfirst.leftBehind_or_overtaken hspaced hday rfl hstart hy hcandidate hlt hback
      exact hnone y hy hkind m hcandidate hlt hback
  refine ⟨start, x, hstart, hfirst, hiff, fun hskip hdaylight => hiff.mpr ?_⟩
  intro y _ hkind
  rcases hkind with (⟨-, hstandard, -⟩ | ⟨-, hshift, -⟩) | ⟨-, hshift, -⟩
  · rw [hdaylight] at hstandard
    cases hstandard
  · rw [hskip] at hshift
    cases hshift
  · rw [hskip] at hshift
    cases hshift

section Sample

/-- After half past one the reading 02:30 is dropped, and the next one is 03:10. -/
theorem isLeast_instantsAfter_newYork :
    let r := nightly { skipped := .skip, repeated := .daylightTime }
    let now := springForward 23400 (-18000) (by decide)
    r.kind.calendar? ≠ none ∧ r.kind.PhaseFree ∧ newYork.zone.Spaced ∧
      newYork.zone.HasDayOffsets ∧
      ∃ s, (r.next newYork {} now).result = .ok s ∧
        s.occursOn = springForward 25800 (-14400) (by decide) ∧
        IsLeast (r.instantsAfter newYork (newYork.showing now)) s.occursOn := by
  intro r now
  have hcalendar : r.kind.calendar? ≠ none := Option.some_ne_none _
  have hok : (r.next newYork {} now).result =
      .ok ⟨springForward 25800 (-14400) (by decide), ⟨2400000000000⟩⟩ := by
    decide +kernel
  obtain ⟨start, x, -, -, -, hleast⟩ :=
    isLeast_instantsAfter_iff hcalendar rfl spaced_newYork hasDayOffsets_newYork hok
  exact ⟨hcalendar, rfl, spaced_newYork, hasDayOffsets_newYork, _, hok, rfl, hleast rfl rfl⟩

/-- An instant of 1 November 2026 in New York, when clocks fall back from 02:00 to 01:00, by its
second of the day in universal time. -/
def fallBack (second : Nat) (offset : Int) (h : second < 86400) : Moment :=
  ⟨⟨⟨20758, by decide⟩, ⟨second, 0, h, TimeOfDay.midnight.nano_lt⟩⟩, offset⟩

/-- At 01:20 the reading 01:00 is left behind, although clocks will show it once more. At half past
one the reading 03:10 is overtaken by 02:30, which is shifted to 03:30. At 03:15 this reading in
turn is left behind. -/
theorem not_isLeast_instantsAfter_newYork :
    let r := nightly {}
    r.kind.calendar? ≠ none ∧ r.kind.PhaseFree ∧ newYork.zone.Spaced ∧
      newYork.zone.HasDayOffsets ∧
      (∃ s, (r.next newYork {} (fallBack 19200 (-14400) (by decide))).result = .ok s ∧
        ¬IsLeast (r.instantsAfter newYork (fallBack 19200 (-14400) (by decide))) s.occursOn) ∧
      (∃ s, (r.next newYork {} (springForward 23400 (-18000) (by decide))).result = .ok s ∧
        ¬IsLeast (r.instantsAfter newYork (springForward 23400 (-18000) (by decide)))
          s.occursOn) ∧
      ∃ s, (r.next newYork {} (springForward 26100 (-14400) (by decide))).result = .ok s ∧
        ¬IsLeast (r.instantsAfter newYork (springForward 26100 (-14400) (by decide)))
          s.occursOn := by
  intro r
  have hleft : (r.next newYork {} (fallBack 19200 (-14400) (by decide))).result =
      .ok ⟨fallBack 27000 (-18000) (by decide), ⟨7800000000000⟩⟩ := by
    decide +kernel
  have hovertaken : (r.next newYork {} (springForward 23400 (-18000) (by decide))).result =
      .ok ⟨springForward 27000 (-14400) (by decide), ⟨3600000000000⟩⟩ := by
    decide +kernel
  have hshifted : (r.next newYork {} (springForward 26100 (-14400) (by decide))).result =
      .ok ⟨⟨⟨⟨20521, by decide⟩, ⟨18000, 0, by decide, by decide⟩⟩, -14400⟩, ⟨78300000000000⟩⟩ := by
    decide +kernel
  refine ⟨Option.some_ne_none _, rfl, spaced_newYork, hasDayOffsets_newYork,
    ⟨_, hleft, fun h => ?_⟩, ⟨_, hovertaken, fun h => ?_⟩, _, hshifted, fun h => ?_⟩
  · have hearlier : fallBack 21600 (-18000) (by decide) ∈
        r.instantsAfter newYork (fallBack 19200 (-14400) (by decide)) :=
      ⟨by decide, ⟨⟨20758, by decide⟩, ⟨3600, 0, by decide, by decide⟩⟩, ⟨trivial, by decide⟩,
        by decide +kernel⟩
    exact absurd (h.2 hearlier) (by decide)
  · have hearlier : springForward 25800 (-14400) (by decide) ∈
        r.instantsAfter newYork (springForward 23400 (-18000) (by decide)) :=
      ⟨by decide, ⟨⟨20520, by decide⟩, ⟨11400, 0, by decide, by decide⟩⟩, ⟨trivial, by decide⟩,
        by decide +kernel⟩
    exact absurd (h.2 hearlier) (by decide)
  · have hearlier : springForward 27000 (-14400) (by decide) ∈
        r.instantsAfter newYork (springForward 26100 (-14400) (by decide)) :=
      ⟨by decide, ⟨⟨20520, by decide⟩, ⟨9000, 0, by decide, by decide⟩⟩, ⟨trivial, by decide⟩,
        by decide +kernel⟩
    exact absurd (h.2 hearlier) (by decide)

end Sample

end Recurrence

end Almanac
