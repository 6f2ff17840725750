import Almanac.Proofs.Recurrence.Loss
import Almanac.Proofs.Recurrence.Requests
import Almanac.Proofs.Zone.Conversion

/-!
# Where occurrences come from

In a spaced zone the instant of a candidate either shows its reading, or, when clocks skip the
reading and the policy shifts it, a reading later by the size of the jump. The offset that it is
given is the one in force. Since every occurrence is the instant of a reading of the recurrence,
counted from the date of the latest start, each of them comes from the configuration in one of
these two ways.
-/

namespace Almanac

/-! ## The instant of a candidate -/

namespace LocalClock

/-- How an instant comes from a reading: the clock shows the reading then, or it skips the reading
and shows the one that is later by the size of the jump. -/
inductive ComesFrom (c : LocalClock) (behavior : Behavior) (r : Reading) (m : Moment) : Prop
  | shown (hshown : c.isSkipped r = false) (hlocal : m.local? = some r)
  | shifted {delta : Int} (hpolicy : behavior.skipped = .shift) (hskipped : c.isSkipped r = true)
      (hjump : c.zone.JumpsOver r.seconds delta) (hwall : m.wall = r.toWall.shift delta)

/-- The clock agrees with a moment: its offset is the one in force, and its reading is not
skipped. -/
structure Agrees (c : LocalClock) (m : Moment) : Prop where
  showing_eq : c.showing m = m
  isSkipped_eq_false : ∀ x, m.local? = some x → c.isSkipped x = false

variable {c : LocalClock} {behavior : Behavior} {policy : RepeatedPolicy} {r : Reading}
  {m : Moment}

section Spaced

variable (hspaced : c.zone.Spaced) (hday : c.zone.HasDayOffsets)

include hspaced hday

/-- What the clock shows is not skipped. -/
theorem agrees_of_offset_eq (h : c.offsetAt m.utc = m.offset) : c.Agrees m := by
  refine ⟨?_, fun x hx => ?_⟩
  · obtain ⟨utc, offset⟩ := m
    exact congrArg (Moment.mk utc) h
  · by_contra hskipped
    rw [Bool.not_eq_false] at hskipped
    exact not_shows_of_isSkipped hspaced hday hskipped _ (shows_of_local? h hx)

theorem comesFrom_of_resolve? (hshown : c.isSkipped r = false)
    (h : c.resolve? r behavior.repeated = some m) : c.ComesFrom behavior r m ∧ c.Agrees m := by
  obtain ⟨hlocal, hutc⟩ := reads_of_resolve? hspaced hday h
  exact ⟨.shown hshown hlocal, agrees_of_offset_eq hspaced hday (congrArg Moment.offset hutc)⟩

theorem comesFrom_of_shiftSkipped? (hpolicy : behavior.skipped = .shift)
    (hskipped : c.isSkipped r = true) (h : c.shiftSkipped? r = some m) :
    c.ComesFrom behavior r m ∧ c.Agrees m := by
  obtain ⟨instant, before, after, hswitch, hjump, hkey, hmade, hbefore, hoffset, hafter⟩ :=
    exists_switch_of_shiftSkipped? hspaced hday hskipped h
  have hsum : before + (after - before) = after := by omega
  have hseconds : m.utc.seconds + before = r.seconds := by
    rw [Reading.seconds_eq_key_div, Reading.seconds_eq_key_div]
    omega
  refine ⟨@ComesFrom.shifted _ _ _ _ (after - before) hpolicy hskipped
    ⟨instant, before, hsum.symm ▸ hswitch, by omega, by omega, by omega⟩ ?_,
    agrees_of_offset_eq hspaced hday (hafter.trans hoffset.symm)⟩
  apply Wall.key_injective
  rw [Moment.key_wall, Wall.key_shift, Reading.key_toWall, hoffset]
  omega

/-- The instant of a candidate comes from its reading, under the offset in force. -/
theorem comesFrom_of_candidate? (h : c.candidate? behavior r = some m) :
    c.ComesFrom behavior r m ∧ c.Agrees m := by
  cases hskipped : c.isSkipped r with
  | false =>
    rw [candidate?_of_shown hskipped] at h
    exact comesFrom_of_resolve? hspaced hday hskipped h
  | true =>
    rw [candidate?_of_skipped hskipped] at h
    cases hpolicy : behavior.skipped with
    | skip =>
      rw [hpolicy] at h
      cases h
    | shift =>
      rw [hpolicy] at h
      exact comesFrom_of_shiftSkipped? hspaced hday hpolicy hskipped h

end Spaced

end LocalClock

/-! ## The occurrences of a recurrence -/

namespace Recurrence

/-- Whatever is requested, every occurrence that a calendar recurrence finds in a spaced zone
comes from one of its times of day on one of its dates, counted from the local date at which its
cursor was started last: at its instant the clock shows this very reading, or the reading is
skipped, skipped readings are shifted, and the clock shows it later by the size of the jump. The
offset of the occurrence is the one in force, and its reading is not skipped. -/
theorem comesFrom_of_mem_replies {r : Recurrence} {requests : List Request} {reply : Reply}
    {s : Schedule} (hcalendar : r.kind.calendar? ≠ none) (hspaced : reply.clock.zone.Spaced)
    (hday : reply.clock.zone.HasDayOffsets) (hreply : reply ∈ r.replies requests)
    (hok : reply.result = .ok s) :
    (∃ anchor, reply.anchor = some anchor ∧ ∃ reading ∈ r.kind.readings anchor,
      reply.clock.ComesFrom r.behavior reading s.occursOn) ∧
      reply.clock.Agrees s.occursOn := by
  obtain ⟨⟨rule, times⟩, hcalendar⟩ := Option.ne_none_iff_exists'.mp hcalendar
  obtain ⟨anchor, hanchor, reading, hreading, hcandidate⟩ :=
    exists_reading_of_mem_replies hcalendar hreply hok
  obtain ⟨hcomes, hagrees⟩ := LocalClock.comesFrom_of_candidate? hspaced hday hcandidate
  exact ⟨⟨anchor, hanchor, reading, hreading, hcomes⟩, hagrees⟩

/-- After half past one clocks skip the reading 02:30, which is shifted to 03:30. -/
theorem comesFrom_of_mem_replies_newYork :
    (nightly {}).kind.calendar? ≠ none ∧ newYork.zone.Spaced ∧ newYork.zone.HasDayOffsets ∧
      ∃ reply ∈ (nightly {}).replies
          [.next newYork (springForward 23400 (-18000) (by decide))],
        ∃ s, reply.result = .ok s ∧
          s.occursOn = springForward 27000 (-14400) (by decide) ∧
          (∃ anchor, reply.anchor = some anchor ∧
            ∃ reading ∈ (nightly {}).kind.readings anchor,
              newYork.ComesFrom {} reading s.occursOn) ∧
          newYork.Agrees s.occursOn := by
  have hcalendar : (nightly {}).kind.calendar? ≠ none := Option.some_ne_none _
  have hok : ((nightly {}).next newYork {}
      (springForward 23400 (-18000) (by decide))).result =
        .ok ⟨springForward 27000 (-14400) (by decide), ⟨3600000000000⟩⟩ := by
    decide +kernel
  obtain ⟨⟨clock, now, anchor, result⟩, hreply, rfl, rfl, hresult⟩ :=
    exists_reply_to_first (nightly {}) newYork (springForward 23400 (-18000) (by decide)) []
  rw [hok] at hresult
  dsimp only at hresult
  subst hresult
  exact ⟨hcalendar, spaced_newYork, hasDayOffsets_newYork, _, hreply, _, rfl, rfl,
    comesFrom_of_mem_replies hcalendar spaced_newYork hasDayOffsets_newYork hreply rfl⟩

end Recurrence

end Almanac
