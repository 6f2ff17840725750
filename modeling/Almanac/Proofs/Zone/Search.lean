import Almanac.Proofs.Clock.Shift
import Almanac.Proofs.Interval.HalfOpen
import Almanac.Proofs.Zone.Spacing
import Almanac.Zone.LocalClock

/-!
# The search for transitions

The search compares the offsets of samples at most a day apart and narrows down every stretch
across which they differ. Whatever the zone, a transition that it finds lies after a sample under
its old offset, at most a day later, and at a reading under another offset. Its window holds the
readings between its own two, so that a transition that is found for a skipped reading jumps
forward over it.
-/

namespace Almanac

namespace Transition

variable {offset : Reading → Int}

/-- Narrowing ends at a reading of the stretch under another offset than the first one. -/
theorem narrow_spec {before : Int} {lo hi : Reading} (hlt : lo < hi) (hne : offset hi ≠ before) :
    lo < narrow offset before lo hi ∧ narrow offset before lo hi ≤ hi ∧
      offset (narrow offset before lo hi) ≠ before := by
  have hstop : lo < hi ∧ hi ≤ hi ∧ offset hi ≠ before := ⟨hlt, le_rfl, hne⟩
  induction lo, hi using narrow.induct offset before with
  | case1 lo hi hwide hadd =>
    unfold narrow
    simpa only [if_pos hwide, hadd] using hstop
  | case2 lo hi hwide mid hadd hinside hmid ih =>
    unfold narrow
    simp only [if_pos hwide, hadd, dif_pos hinside, if_pos hmid]
    obtain ⟨hlower, hupper, hother⟩ := ih hinside.2 hne ⟨hinside.2, le_rfl, hne⟩
    exact ⟨hinside.1.trans hlower, hupper, hother⟩
  | case3 lo hi hwide mid hadd hinside hmid ih =>
    unfold narrow
    simp only [if_pos hwide, hadd, dif_pos hinside, if_neg hmid]
    obtain ⟨hlower, hupper, hother⟩ := ih hinside.1 hmid ⟨hinside.1, le_rfl, hmid⟩
    exact ⟨hlower, hupper.trans hinside.2.le, hother⟩
  | case4 lo hi hwide mid hadd houtside =>
    unfold narrow
    simpa only [if_pos hwide, hadd, dif_neg houtside] using hstop
  | case5 lo hi hnarrow =>
    unfold narrow
    simpa only [if_neg hnarrow] using hstop

/-- A transition seen from outside: it follows a sample under the old offset within a day, and
comes with the offset at its own reading, which is another. -/
structure Seen (offset : Reading → Int) (t : Transition) (sample : Reading) : Prop where
  lt_utc : sample < t.utc
  seconds_le : t.utc.seconds ≤ sample.seconds + 86400
  before_eq : t.before = offset sample
  after_eq : t.after = offset t.utc
  before_ne_after : t.before ≠ t.after

theorem seen_between {lo hi : Reading} (hlt : lo < hi) (hnear : hi.seconds ≤ lo.seconds + 86400)
    (hne : offset lo ≠ offset hi) : (between offset lo hi).Seen offset lo := by
  obtain ⟨hlower, hupper, hother⟩ := narrow_spec hlt hne.symm
  refine ⟨hlower, ?_, rfl, rfl, hother.symm⟩
  have hseconds := Reading.seconds_le_of_le hupper
  change (narrow offset (offset lo) lo hi).seconds ≤ _
  omega

/-- One day later, a reading has counted the seconds of a day. -/
theorem seconds_of_add_day {r u : Reading} (h : r.add? (Duration.ofDays 1) = some u) :
    u.seconds = r.seconds + 86400 := by
  obtain ⟨date, second, nano, hsecond, hnano⟩ := r
  obtain ⟨date', hdate, rfl⟩ := Option.map_eq_some_iff.mp h
  have hday := Date.ofDay?_eq_some.mp hdate
  have hwhole : (Duration.ofDays 1).seconds = 86400 := by decide
  have hpart : (Duration.ofDays 1).subsecond = 0 := by decide
  unfold Reading.seconds
  simp only [Wall.add, Reading.toWall, TimeOfDay.add, hwhole, hpart] at hday ⊢
  rw [hday]
  split
  · simp only [TimeOfDay.addParts, TimeOfDay.atSecond]
    omega
  · simp only [TimeOfDay.addParts, TimeOfDay.atSecond]
    rw [dif_pos (Or.inl (by decide))]
    simp only
    omega

theorem seconds_nextSample?_le {stop cursor next : Reading}
    (h : nextSample? stop cursor = some next) : next.seconds ≤ cursor.seconds + 86400 := by
  obtain ⟨day, hday, rfl⟩ := Option.map_eq_some_iff.mp h
  have hseconds := seconds_of_add_day hday
  have hearlier : day.earlier stop ≤ day := by
    unfold Reading.earlier
    split
    · next hlt => exact hlt.le
    · exact le_rfl
  have hle := Reading.seconds_le_of_le hearlier
  omega

/-- What the samples have in common decides what the transitions between them have in common. -/
theorem of_mem_gather {stop cursor : Reading} {found : List Transition} {t : Transition}
    (sampled : Reading → Prop) (p : Transition → Prop)
    (hstep : ∀ lo hi, sampled lo → nextSample? stop lo = some hi → lo < hi →
      sampled hi ∧ (offset lo ≠ offset hi → p (between offset lo hi)))
    (hcursor : sampled cursor) (hfound : ∀ t ∈ found, p t)
    (h : t ∈ gather offset stop cursor found) : p t := by
  induction cursor, found using gather.induct offset stop with
  | case1 cursor found hbelow hnext =>
    unfold gather at h
    simp only [dif_pos hbelow, hnext, List.mem_reverse] at h
    exact hfound t h
  | case2 cursor found hbelow next hnext hahead ih =>
    unfold gather at h
    simp only [dif_pos hbelow, hnext, dif_pos hahead] at h
    obtain ⟨hsampled, hbetween⟩ := hstep cursor next hcursor hnext hahead
    refine ih hsampled (fun t ht => ?_) h
    split at ht
    · exact hfound t ht
    · next hne =>
      rcases List.mem_cons.mp ht with rfl | ht
      · exact hbetween hne
      · exact hfound t ht
  | case3 cursor found hbelow next hnext hbehind =>
    unfold gather at h
    simp only [dif_pos hbelow, hnext, dif_neg hbehind, List.mem_reverse] at h
    exact hfound t h
  | case4 cursor found hdone =>
    unfold gather at h
    simp only [dif_neg hdone, List.mem_reverse] at h
    exact hfound t h

/-- Every transition of the search is seen after one of its samples. -/
theorem exists_seen_of_mem_all {start stop : Reading} {t : Transition}
    (h : t ∈ all offset start stop) : ∃ sample, t.Seen offset sample := by
  refine of_mem_gather (fun _ => True) (fun t => ∃ sample, t.Seen offset sample) ?_ trivial
    (List.forall_mem_nil _) h
  intro lo hi _ hnext hahead
  exact ⟨trivial, fun hne => ⟨lo, seen_between hahead (seconds_nextSample?_le hnext) hne⟩⟩

theorem isForward_iff {t : Transition} : t.isForward = true ↔ t.before < t.after := by
  unfold isForward delta
  rw [decide_eq_true_eq]
  omega

/-- The window holds the readings between the two of the transition. -/
theorem contains_window_iff {t : Transition} {r : Reading} :
    t.window.contains r = true ↔
      (if t.isForward then t.localBefore else t.localAfter) ≤ r ∧
        r < (if t.isForward then t.localAfter else t.localBefore) := by
  have hnone : ∀ {start stop : Reading} {fault : Fault},
      Interval.closedOpen start stop = .error fault → ¬(start ≤ r ∧ r < stop) := by
    intro start stop fault herror hboth
    exact Interval.not_lt_of_closedOpen herror (hboth.1.trans_lt hboth.2)
  unfold window
  by_cases hforward : t.isForward = true
  · simp only [if_pos hforward]
    split
    · next i hok => exact Interval.contains_of_closedOpen hok
    · next fault herror => exact iff_of_false Interval.contains_empty (hnone herror)
  · simp only [if_neg hforward]
    split
    · next i hok => exact Interval.contains_of_closedOpen hok
    · next fault herror => exact iff_of_false Interval.contains_empty (hnone herror)

/-- The window lies between the shifts under the two offsets, also where the calendar stops them. -/
theorem key_mem_of_contains_window {t : Transition} {r : Reading}
    (h : t.window.contains r = true) :
    t.utc.key + min t.before t.after * 2000000000 ≤ r.key ∧
      r.key < t.utc.key + max t.before t.after * 2000000000 := by
  rw [contains_window_iff] at h
  by_cases hforward : t.isForward = true
  · have hle := (isForward_iff.mp hforward).le
    rw [if_pos hforward, if_pos hforward] at h
    rw [min_eq_left hle, max_eq_right hle]
    exact ⟨Reading.key_le_of_shift_le hle h.1 (h.1.trans_lt h.2), Reading.key_lt_of_lt_shift h.2⟩
  · have hle := not_lt.mp (mt isForward_iff.mpr hforward)
    rw [if_neg hforward, if_neg hforward] at h
    rw [min_eq_right hle, max_eq_left hle]
    exact ⟨Reading.key_le_of_shift_le hle h.1 (h.1.trans_lt h.2), Reading.key_lt_of_lt_shift h.2⟩

end Transition

namespace LocalClock

variable {c : LocalClock} {r start stop : Reading} {t : Transition} {gap window : Interval Reading}
  {forward : Bool}

/-- A window that is found belongs to a transition of the search, in the direction asked for, and
holds the reading. -/
theorem exists_of_windowAround? (h : c.windowAround? r forward = some (t, window)) :
    window = t.window ∧ t.window.contains r = true ∧ t.isForward = forward ∧
      ∃ start stop, r.add? (Duration.ofDays (-2)) = some start ∧
        r.add? (Duration.ofDays 2) = some stop ∧ t ∈ c.transitionsBetween start stop := by
  unfold windowAround? at h
  simp only [Option.bind_eq_bind, Option.bind_eq_some_iff, Option.pure_def,
    Option.some.injEq, Prod.mk.injEq] at h
  obtain ⟨start, hstart, stop, hstop, t', hfind, rfl, rfl⟩ := h
  obtain ⟨hmem, hdirection⟩ := List.mem_filter.mp (List.mem_of_find?_eq_some hfind)
  exact ⟨rfl, List.find?_some (p := fun t : Transition => t.window.contains r) hfind,
    beq_iff_eq.mp hdirection, start, stop, hstart, hstop, hmem⟩

/-- The transition of a gap is seen after some sample, jumps forward, and jumps over the
reading. -/
theorem gap?_spec (h : c.gap? r = some (t, gap)) :
    (∃ sample, t.Seen c.offsetAt sample) ∧ t.before < t.after ∧
      t.utc.key + t.before * 2000000000 ≤ r.key ∧ r.key < t.utc.key + t.after * 2000000000 := by
  obtain ⟨-, hcontains, hforward, start, stop, -, -, hmem⟩ := exists_of_windowAround? h
  have hjump : t.before < t.after := Transition.isForward_iff.mp hforward
  have hkey := Transition.key_mem_of_contains_window hcontains
  rw [min_eq_left hjump.le, max_eq_right hjump.le] at hkey
  exact ⟨Transition.exists_seen_of_mem_all hmem, hjump, hkey⟩

end LocalClock

end Almanac
