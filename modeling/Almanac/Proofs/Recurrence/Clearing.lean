import Almanac.Proofs.Recurrence.Loss
import Almanac.Proofs.Recurrence.Periods
import Almanac.Proofs.Zone.Gaps
import Mathlib.Tactic.Ring

/-!
# Clearing a gap

A period that drops skipped readings moves on by whole periods. It takes the first reading from
the end of the gap on, where the end that the search gives has the fraction of a second of the
reading one period later. The reading that is taken may differ from the first one that clocks
show: one within this fraction after the gap is passed over, and where the next one lies in another
gap, the length of the period is counted in elapsed time. Apart from these two cases the first
shown reading is the next occurrence.
-/

namespace Almanac

/-- The local reading of an ordinary instant, counted in nanoseconds. -/
theorem Moment.nanos_of_local? {m : Moment} {r : Reading} (h : m.local? = some r) :
    r.nanos = m.utc.nanos + m.offset * 1000000000 := by
  have hnano : r.time.nano = m.utc.time.nano := Reading.nano_of_shift? h
  have hseconds : r.seconds = m.utc.seconds + m.offset := Reading.seconds_of_shift? h
  unfold Reading.nanos
  omega

/-- An ordinary reading lies before a second when its nanoseconds do. -/
theorem Reading.IsOrdinary.seconds_lt_iff {r : Reading} {second : Int} (hr : r.IsOrdinary) :
    r.seconds < second ↔ r.nanos < second * 1000000000 := by
  rw [← hr.nanos_div]
  omega

/-- The end of a gap that is found, in its second and with the fraction of the reading. -/
theorem LocalClock.FindsGap.nanos_stop {clock : LocalClock} {r stop : Reading}
    {gap : Interval Reading} (h : clock.FindsGap r stop gap) :
    stop.nanos = stop.seconds * 1000000000 + r.time.nano := by
  rw [← h.nano_eq]
  rfl

namespace Period

variable {p : Period} {clock : LocalClock} {policy : RepeatedPolicy} {now m : Moment}
  {start candidate stop r x : Reading} {gap : Interval Reading} {t : Transition} {bound : Nat}
  {j k steps distance : Int}

/-! ## Multiples of a period -/

/-- The reading a number of periods after another one. -/
def multiple? (p : Period) (start : Reading) (k : Int) : Option Reading :=
  start.add? (Duration.ofMilliseconds (k * p.milliseconds))

theorem multiple?_one (p : Period) (start : Reading) :
    p.multiple? start 1 = start.add? p.duration := by
  unfold multiple? duration
  rw [Int.one_mul]

theorem mul_length_le (p : Period) (h : j ≤ k) :
    j * (p.milliseconds * 1000000) ≤ k * (p.milliseconds * 1000000) := by
  have hpos := p.pos
  exact Int.mul_le_mul_of_nonneg_right h (by omega)

theorem isOrdinary_multiple? (hstart : start.IsOrdinary) (h : p.multiple? start k = some x) :
    x.IsOrdinary ∧ x.nanos = start.nanos + k * (p.milliseconds * 1000000) := by
  obtain ⟨hx, hnanos⟩ := hstart.add? h
  have hlength : (Duration.ofMilliseconds (k * p.milliseconds)).nanos =
      k * p.milliseconds * 1000000 := rfl
  rw [hlength, Int.mul_assoc] at hnanos
  exact ⟨hx, hnanos⟩

/-- Where the calendar holds a multiple, it holds the ones before it. -/
theorem exists_multiple?_of_le (hstart : start.IsOrdinary) (h : p.multiple? start k = some x)
    (hj : 0 ≤ j) (hjk : j ≤ k) : ∃ y, p.multiple? start j = some y := by
  obtain ⟨hx, hnanos⟩ := isOrdinary_multiple? hstart h
  have hlower := p.mul_length_le hj
  have hupper := p.mul_length_le hjk
  have hlength : (Duration.ofMilliseconds (j * p.milliseconds)).nanos =
      j * (p.milliseconds * 1000000) := Int.mul_assoc ..
  apply hstart.exists_add?
  have hfirst := start.inCalendar
  have hlast := x.inCalendar
  rw [← hstart.nanos_div] at hfirst
  rw [← hx.nanos_div] at hlast
  rw [hlength]
  unfold InCalendar at hfirst hlast ⊢
  omega

/-- A multiple that the calendar holds is within the range of durations. -/
theorem bind_ofMilliseconds? (hstart : start.IsOrdinary) (k : Int) :
    (Duration.ofMilliseconds? (k * p.milliseconds)).bind start.add? = p.multiple? start k := by
  unfold Duration.ofMilliseconds?
  dsimp only
  split
  · rfl
  · next hrange =>
    cases hmultiple : p.multiple? start k with
    | none => rfl
    | some x =>
      obtain ⟨hx, hnanos⟩ := isOrdinary_multiple? hstart hmultiple
      have hfirst := start.inCalendar
      have hlast := x.inCalendar
      have hlength : (Duration.ofMilliseconds (k * p.milliseconds)).nanos =
          k * (p.milliseconds * 1000000) := Int.mul_assoc ..
      rw [← hstart.nanos_div] at hfirst
      rw [← hx.nanos_div] at hlast
      rw [hlength] at hrange
      unfold InCalendar firstDay lastDay at hfirst hlast
      unfold Duration.maxNanos at hrange
      omega

/-! ## The reading that is taken -/

/-- A rounded quotient is the least number of periods that cover a distance. -/
theorem tdiv_spec (p : Period) (h : 0 < distance) :
    ((distance + p.milliseconds - 1).tdiv p.milliseconds - 1) * p.milliseconds < distance ∧
      distance ≤ (distance + p.milliseconds - 1).tdiv p.milliseconds * p.milliseconds := by
  have hpos := p.pos
  rw [Int.tdiv_eq_ediv_of_nonneg (by omega), Int.sub_mul, Int.one_mul]
  have hsplit := Int.emod_add_mul_ediv (distance + p.milliseconds - 1) p.milliseconds
  have hnonneg := Int.emod_nonneg (distance + p.milliseconds - 1) hpos.ne'
  have hlt := Int.emod_lt_of_pos (distance + p.milliseconds - 1) hpos
  rw [Int.mul_comm p.milliseconds] at hsplit
  omega

/-- From a candidate in a gap, one step leads to a multiple beyond the gap. -/
theorem clearFrom_eq (hstart : start.IsOrdinary) (hinside : gap.contains candidate = true)
    (hbeyond : ∀ x, p.multiple? start steps = some x → ¬gap.contains x = true) :
    p.clearFrom gap start (bound + 2) steps candidate =
      match p.multiple? start steps with
      | some x => .ok x
      | none => .error (.periodSteps start steps) := by
  unfold clearFrom
  rw [if_pos hinside, bind_ofMilliseconds? hstart]
  cases hmultiple : p.multiple? start steps with
  | none => rfl
  | some x =>
    dsimp only
    unfold clearFrom
    rw [if_neg (hbeyond x hmultiple)]

/-- The number of periods that is tried first to clear a gap: the least one that covers the distance
from a reading to the end of the gap. -/
def stepsTo (p : Period) (start stop : Reading) : Int :=
  ((stop.since start).milliseconds + p.milliseconds - 1).tdiv p.milliseconds

section HoldsUntil

variable (hstart : start.IsOrdinary) (hcandidate : p.multiple? start 1 = some candidate)
  (hholds : HoldsUntil gap candidate stop)

include hstart hcandidate hholds

/-- The end of a gap and the candidate have one fraction, so that the distance is in whole
milliseconds. -/
theorem milliseconds_since :
    start.nanos + p.milliseconds * 1000000 < stop.nanos ∧
      (stop.since start).milliseconds * 1000000 = stop.nanos - start.nanos := by
  obtain ⟨hordinary, hnanos⟩ := isOrdinary_multiple? hstart hcandidate
  have hnano := hholds.nano_eq
  have hpos := p.pos
  have hless := (hordinary.lt_iff_nanos hholds.isOrdinary).mp hholds.lt
  rw [Int.one_mul] at hnanos
  have hwhole : (stop.nanos - candidate.nanos) % 1000000 = 0 := by
    unfold Reading.nanos
    omega
  have hsince : (stop.since start).nanos = stop.nanos - start.nanos :=
    hholds.isOrdinary.nanos_since hstart
  refine ⟨by omega, ?_⟩
  unfold Duration.milliseconds
  rw [hsince, Int.tdiv_eq_ediv_of_nonneg (by omega)]
  omega

/-- The number of periods that is tried first is the least one that reaches the end of the gap. -/
theorem stepsTo_spec :
    start.nanos + (p.stepsTo start stop - 1) * (p.milliseconds * 1000000) < stop.nanos ∧
      stop.nanos ≤ start.nanos + p.stepsTo start stop * (p.milliseconds * 1000000) := by
  obtain ⟨hless, hdistance⟩ := milliseconds_since hstart hcandidate hholds
  have hpos := p.pos
  obtain ⟨hlower, hupper⟩ := p.tdiv_spec (show 0 < (stop.since start).milliseconds by omega)
  rw [← stepsTo] at hlower hupper
  rw [← Int.mul_assoc, ← Int.mul_assoc]
  omega

/-- The multiple that is tried first lies beyond the gap. -/
theorem not_contains_of_stepsTo (hx : p.multiple? start (p.stepsTo start stop) = some x) :
    ¬gap.contains x = true := by
  obtain ⟨hordinary, hnanos⟩ := isOrdinary_multiple? hstart hcandidate
  obtain ⟨hxOrdinary, hxNanos⟩ := isOrdinary_multiple? hstart hx
  have hless := (hordinary.lt_iff_nanos hholds.isOrdinary).mp hholds.lt
  have hcovers := (stepsTo_spec hstart hcandidate hholds).2
  have hle : candidate ≤ x := by
    rw [← not_lt, hxOrdinary.lt_iff_nanos hordinary]
    omega
  rw [hholds.contains_iff x hle, hxOrdinary.lt_iff_nanos hholds.isOrdinary]
  omega

end HoldsUntil

/-- A number of periods clears a gap: it is the least one that reaches the end of the gap. -/
structure Clears (p : Period) (clock : LocalClock) (start candidate stop : Reading) (steps : Int) :
    Prop where
  lt_stop : start.nanos + (steps - 1) * (p.milliseconds * 1000000) < stop.nanos
  stop_le : stop.nanos ≤ start.nanos + steps * (p.milliseconds * 1000000)
  clearGap_eq : p.clearGap clock start candidate =
    match p.multiple? start steps with
    | some x => .ok x
    | none => .error (.periodSteps start steps)

/-- A gap is cleared by the first multiple from its end on. -/
theorem clears_stepsTo (hstart : start.IsOrdinary)
    (hcandidate : p.multiple? start 1 = some candidate)
    (hfound : clock.gap? candidate = some (t, gap)) (hholds : HoldsUntil gap candidate stop) :
    p.Clears clock start candidate stop (p.stepsTo start stop) := by
  obtain ⟨hlower, hupper⟩ := stepsTo_spec hstart hcandidate hholds
  have hclear : p.clearGap clock start candidate = p.clearFrom gap start
      ((stop.since start).milliseconds.toNat + 2000) (p.stepsTo start stop) candidate := by
    simp only [clearGap, hfound, hholds.upper_eq, stepsTo]
  refine ⟨hlower, hupper, hclear.trans (clearFrom_eq hstart ?_ fun x hx => ?_)⟩
  · exact (hholds.contains_iff candidate le_rfl).mpr hholds.lt
  · exact not_contains_of_stepsTo hstart hcandidate hholds hx

theorem Clears.multiple?_of_clearGap (h : p.Clears clock start candidate stop steps)
    (hcleared : p.clearGap clock start candidate = .ok x) : p.multiple? start steps = some x := by
  rw [h.clearGap_eq] at hcleared
  cases hmultiple : p.multiple? start steps with
  | none =>
    rw [hmultiple] at hcleared
    cases hcleared
  | some y =>
    rw [hmultiple] at hcleared
    cases hcleared
    rfl

/-! ## The first shown reading -/

/-- A multiple is the first one that clocks show. -/
structure FirstShown (p : Period) (clock : LocalClock) (start : Reading) (k : Int) (r : Reading) :
    Prop where
  one_le : 1 ≤ k
  multiple?_eq : p.multiple? start k = some r
  isSkipped_eq_false : clock.isSkipped r = false
  isSkipped_of_lt : ∀ j, 1 ≤ j → j < k → ∀ x, p.multiple? start j = some x →
    clock.isSkipped x = true

/-- A multiple lies past the end of a gap by the fraction of the candidate in the gap at least, and
the ones before it lie before the end. -/
structure FirstPast (p : Period) (start candidate : Reading) (stop k : Int) (r : Reading) :
    Prop where
  le_nanos : stop * 1000000000 + candidate.time.nano ≤ r.nanos
  lt_stop : ∀ j, 1 ≤ j → j < k → ∀ x, p.multiple? start j = some x → x.seconds < stop

/-- When skipped readings are dropped, the next occurrence reads `r`. -/
def SkipsTo (p : Period) (policy : RepeatedPolicy) (clock : LocalClock) (now : Moment)
    (r : Reading) : Prop :=
  ∃ m, p.nextTime { skipped := .skip, repeated := policy } clock now = .ok m ∧ m.local? = some r

/-- What is counted in elapsed time reads as many seconds off the candidate as the offset has
changed. -/
theorem local?_of_elapsed (hday : clock.zone.HasDayOffsets) (hnow : clock.showing now = now)
    (hordinary : now.utc.IsOrdinary) (hstart : now.local? = some start)
    (h : p.elapsed clock now = .ok m) (hr : m.local? = some r) :
    ∃ change, -172800 < change ∧ change < 172800 ∧
      r.nanos = start.nanos + p.milliseconds * 1000000 + change * 1000000000 := by
  unfold elapsed at h
  split at h
  · next utc hutc =>
    cases h
    have hoffset : now.offset = clock.offsetAt now.utc := (congrArg Moment.offset hnow).symm
    have hbound : -86400 < clock.offsetAt now.utc ∧ clock.offsetAt now.utc < 86400 :=
      hday.offsetAt_mem now.utc.seconds
    have hbound' : -86400 < clock.offsetAt utc ∧ clock.offsetAt utc < 86400 :=
      hday.offsetAt_mem utc.seconds
    have hstartNanos := Moment.nanos_of_local? hstart
    have hrNanos : r.nanos = utc.nanos + clock.offsetAt utc * 1000000000 :=
      Moment.nanos_of_local? hr
    have hutcNanos : utc.nanos = now.utc.nanos + p.milliseconds * 1000000 :=
      (hordinary.add? hutc).2
    exact ⟨clock.offsetAt utc - now.offset, by omega, by omega, by omega⟩
  · cases h

/-- A call that drops a skipped candidate finds the instant of the reading that clears the gap, or
counts in elapsed time. -/
theorem SkipsTo.cases (hstart : now.local? = some start)
    (hcandidate : start.add? p.duration = some candidate)
    (hskipped : clock.isSkipped candidate = true) (h : p.SkipsTo policy clock now r) :
    ∃ cleared m, p.clearGap clock start candidate = .ok cleared ∧ m.local? = some r ∧
      (clock.resolve? cleared policy = some m ∨ p.elapsed clock now = .ok m) := by
  obtain ⟨m, hm, hr⟩ := h
  obtain ⟨start', candidate', resolved, hstart', hcandidate', hresolution, hcases⟩ :=
    exists_of_nextTime hm
  rw [hstart, Option.some.injEq] at hstart'
  subst hstart'
  rw [hcandidate, Option.some.injEq] at hcandidate'
  subst hcandidate'
  unfold resolution at hresolution
  rw [if_pos hskipped] at hresolution
  dsimp only at hresolution
  cases hcleared : p.clearGap clock start candidate with
  | error fault =>
    rw [hcleared] at hresolution
    cases hresolution
  | ok cleared =>
    rw [hcleared, Except.map, Except.ok.injEq] at hresolution
    rcases hcases with ⟨rfl, -⟩ | ⟨-, helapsed⟩
    · exact ⟨cleared, m, rfl, hr, Or.inl hresolution⟩
    · exact ⟨cleared, m, rfl, hr, Or.inr helapsed⟩

section Gap

variable (hspaced : clock.zone.Spaced) (hday : clock.zone.HasDayOffsets)
  (hordinary : start.IsOrdinary) (hcandidate : p.multiple? start 1 = some candidate)
  (hgap : clock.FindsGap candidate stop gap) (hfirst : p.FirstShown clock start k r)

include hspaced hday hordinary hcandidate hgap hfirst

/-- The first shown multiple does not lie before the end of the gap. -/
theorem FirstShown.stop_le : stop.seconds ≤ r.seconds := by
  obtain ⟨hcandidateOrdinary, hcandidateNanos⟩ := isOrdinary_multiple? hordinary hcandidate
  obtain ⟨hrOrdinary, hrNanos⟩ := isOrdinary_multiple? hordinary hfirst.multiple?_eq
  have hmul := p.mul_length_le hfirst.one_le
  have hle : candidate ≤ r := by
    rw [← not_lt, hrOrdinary.lt_iff_nanos hcandidateOrdinary]
    omega
  by_contra hearly
  have hskipped := hgap.gapEnds.isSkipped hspaced hday hle (not_le.mp hearly)
  rw [hfirst.isSkipped_eq_false] at hskipped
  cases hskipped

/-- A first shown multiple before the one that clears the gap lies within the fraction after its
end. -/
theorem FirstShown.nanos_mem_of_lt (hclears : p.Clears clock start candidate stop steps)
    (hlt : k < steps) :
    stop.seconds * 1000000000 ≤ r.nanos ∧
      r.nanos < stop.seconds * 1000000000 + candidate.time.nano := by
  obtain ⟨hrOrdinary, hrNanos⟩ := isOrdinary_multiple? hordinary hfirst.multiple?_eq
  have hlate := mt hrOrdinary.seconds_lt_iff.mpr
    (not_lt.mpr (hfirst.stop_le hspaced hday hordinary hcandidate hgap))
  have hmul := p.mul_length_le (show k ≤ steps - 1 by omega)
  have hbefore := hclears.lt_stop
  have hstop := hgap.nanos_stop
  omega

/-- Where a first shown multiple comes after the one that clears the gap, that one lies in another
gap, more than two days later. -/
theorem FirstShown.exists_far_of_lt (hclears : p.Clears clock start candidate stop steps)
    (hlt : steps < k) :
    1 ≤ steps ∧ ∃ x, p.multiple? start steps = some x ∧ clock.isSkipped x = true ∧
      stop.seconds + 172800 < x.seconds := by
  obtain ⟨hcandidateOrdinary, hcandidateNanos⟩ := isOrdinary_multiple? hordinary hcandidate
  have hend := hcandidateOrdinary.seconds_lt_iff.mp hgap.gapEnds.lt
  have hcovers := hclears.stop_le
  have hstop := hgap.nanos_stop
  have hone : 1 ≤ steps := by
    by_contra hnone
    have hmul := p.mul_length_le (show steps ≤ 1 by omega)
    omega
  obtain ⟨x, hx⟩ := exists_multiple?_of_le hordinary hfirst.multiple?_eq (by omega) hlt.le
  obtain ⟨hxOrdinary, hxNanos⟩ := isOrdinary_multiple? hordinary hx
  have hskipped := hfirst.isSkipped_of_lt steps hone hlt x hx
  refine ⟨hone, x, hx, hskipped, ?_⟩
  by_contra hnear
  have hpast : stop.seconds ≤ x.seconds := by
    rw [← not_lt, hxOrdinary.seconds_lt_iff]
    omega
  rw [hgap.gapEnds.isSkipped_eq_false hspaced hday hpast (not_lt.mp hnear)] at hskipped
  cases hskipped

/-- A multiple that is past the gap with none before it that is, is the one that clears it. -/
theorem Clears.firstPast_iff (hclears : p.Clears clock start candidate stop steps) :
    p.FirstPast start candidate stop.seconds k r ↔ k = steps := by
  obtain ⟨hrOrdinary, hrNanos⟩ := isOrdinary_multiple? hordinary hfirst.multiple?_eq
  have hstop := hgap.nanos_stop
  constructor
  · intro hpast
    rcases lt_trichotomy k steps with hless | heq | hmore
    · have hwithin :=
        hfirst.nanos_mem_of_lt hspaced hday hordinary hcandidate hgap hclears hless
      exact absurd hpast.le_nanos (not_le.mpr hwithin.2)
    · exact heq
    · obtain ⟨hone, x, hx, -, hfar⟩ :=
        hfirst.exists_far_of_lt hspaced hday hordinary hcandidate hgap hclears hmore
      have hearly := hpast.lt_stop steps hone hmore x hx
      omega
  · rintro rfl
    have hcovers := hclears.stop_le
    have hbefore := hclears.lt_stop
    refine ⟨by omega, fun j hj hjk x hx => ?_⟩
    obtain ⟨hxOrdinary, hxNanos⟩ := isOrdinary_multiple? hordinary hx
    have hmul := p.mul_length_le (show j ≤ k - 1 by omega)
    have hfraction := Reading.isOrdinary_iff.mp (isOrdinary_multiple? hordinary hcandidate).1
    by_contra hlate
    have hnear : x.seconds < stop.seconds + 1 := by
      rw [hxOrdinary.seconds_lt_iff]
      omega
    have hshown :=
      hgap.gapEnds.isSkipped_eq_false hspaced hday (not_lt.mp hlate) (by omega)
    rw [hfirst.isSkipped_of_lt j hj hjk x hx] at hshown
    cases hshown

/-- The call finds the first shown multiple when that is the reading that clears the gap. -/
theorem skipsTo_of_clearGap (hnow : clock.showing now = now) (hstart : now.local? = some start)
    (hskipped : clock.isSkipped candidate = true) (hreach : clock.InstantsInCalendar r)
    (hcleared : p.clearGap clock start candidate = .ok r) : p.SkipsTo policy clock now r := by
  have hresolved : clock.resolve? r policy ≠ none := by
    rw [Ne, LocalClock.resolve?_eq_none_iff hspaced hday hreach, hfirst.isSkipped_eq_false]
    exact Bool.false_ne_true
  obtain ⟨m, hm⟩ := Option.ne_none_iff_exists'.mp hresolved
  obtain ⟨hr, hoffset⟩ := LocalClock.reads_of_resolve? hspaced hday hm
  have hnowShows := LocalClock.shows_of_local? (congrArg Moment.offset hnow) hstart
  have hmShows := LocalClock.shows_of_local? (congrArg Moment.offset hoffset) hr
  have hearly : start.seconds < stop.seconds := by
    obtain ⟨hcandidateOrdinary, hcandidateNanos⟩ := isOrdinary_multiple? hordinary hcandidate
    have hend := hgap.gapEnds.lt
    have hpos := p.pos
    rw [hcandidateOrdinary.seconds_lt_iff] at hend
    rw [hordinary.seconds_lt_iff]
    omega
  have hseconds := hgap.gapEnds.lt_of_shows hday hnowShows hearly hmShows
    (hfirst.stop_le hspaced hday hordinary hcandidate hgap)
  have hlt : now < m := by
    rw [Moment.lt_iff_utc, ← not_le]
    exact fun hle => not_le_of_gt hseconds (Reading.seconds_le_of_le hle)
  refine ⟨m, ?_, hr⟩
  have hresolution : p.resolution { skipped := .skip, repeated := policy } clock now start
      candidate = .ok (some m) := by
    unfold resolution
    rw [if_pos hskipped, hcleared, ← hm]
    rfl
  rw [multiple?_one] at hcandidate
  rw [nextTime_eq hstart hcandidate, hresolution]
  exact if_pos hlt

/-- The call finds no multiple but the one that clears the gap. -/
theorem Clears.eq_of_skipsTo (hclears : p.Clears clock start candidate stop steps)
    (hnow : clock.showing now = now) (hnowOrdinary : now.utc.IsOrdinary)
    (hstart : now.local? = some start) (hskipped : clock.isSkipped candidate = true)
    (h : p.SkipsTo policy clock now r) : k = steps := by
  have hadd : start.add? p.duration = some candidate := by rw [← multiple?_one, hcandidate]
  obtain ⟨cleared, m, hcleared, hr, hcases⟩ := h.cases hstart hadd hskipped
  have hmultiple : p.multiple? start steps = some cleared := hclears.multiple?_of_clearGap hcleared
  obtain ⟨hcandidateOrdinary, hcandidateNanos⟩ := isOrdinary_multiple? hordinary hcandidate
  obtain ⟨hrOrdinary, hrNanos⟩ := isOrdinary_multiple? hordinary hfirst.multiple?_eq
  obtain ⟨hclearedOrdinary, hclearedNanos⟩ := isOrdinary_multiple? hordinary hmultiple
  have hpos := p.pos
  rcases hcases with hm | helapsed
  · obtain ⟨hlocal, -⟩ := LocalClock.reads_of_resolve? hspaced hday hm
    rw [hr, Option.some.injEq] at hlocal
    subst hlocal
    exact Int.eq_of_mul_eq_mul_right (show p.milliseconds * 1000000 ≠ 0 by omega) (by omega)
  · obtain ⟨change, hlower, hupper, hchange⟩ :=
      local?_of_elapsed hday hnow hnowOrdinary hstart helapsed hr
    have hsplit : candidate.nanos = candidate.seconds * 1000000000 + candidate.time.nano := rfl
    have hfraction := Reading.isOrdinary_iff.mp hcandidateOrdinary
    have hend := hgap.gapEnds.lt
    have hstop := hgap.nanos_stop
    have hbefore := hclears.lt_stop
    rcases lt_trichotomy k steps with hless | heq | hmore
    · -- Elapsed time keeps the fraction of the candidate.
      have hwithin :=
        hfirst.nanos_mem_of_lt hspaced hday hordinary hcandidate hgap hclears hless
      omega
    · exact heq
    · -- A period that leads to another gap is longer than any change of the offset.
      obtain ⟨-, x, hx, -, hfar⟩ :=
        hfirst.exists_far_of_lt hspaced hday hordinary hcandidate hgap hclears hmore
      rw [hmultiple, Option.some.injEq] at hx
      subst hx
      have hlate := mt hclearedOrdinary.seconds_lt_iff.mpr (not_lt.mpr hfar)
      have hmul := p.mul_length_le (show steps + 1 ≤ k by omega)
      rw [Int.add_mul] at hmul
      rw [Int.sub_mul] at hbefore
      omega

/-- A period of two days at most does not reach the next gap. With whole seconds, or from a
candidate on a whole second, the fraction at the end of the gap does not matter either. -/
theorem Clears.eq_of_le_two_days (hclears : p.Clears clock start candidate stop steps)
    (hshort : p.milliseconds ≤ 172800000)
    (hwhole : p.isWholeSeconds = true ∨ candidate.time.nano = 0) : k = steps := by
  obtain ⟨hcandidateOrdinary, hcandidateNanos⟩ := isOrdinary_multiple? hordinary hcandidate
  obtain ⟨hrOrdinary, hrNanos⟩ := isOrdinary_multiple? hordinary hfirst.multiple?_eq
  have hfraction := Reading.isOrdinary_iff.mp hcandidateOrdinary
  rcases lt_trichotomy k steps with hless | heq | hmore
  · obtain ⟨hlower, hupper⟩ :=
      hfirst.nanos_mem_of_lt hspaced hday hordinary hcandidate hgap hclears hless
    rcases hwhole with hseconds | hzero
    · have hsplit : candidate.nanos = candidate.seconds * 1000000000 + candidate.time.nano := rfl
      obtain ⟨q, hq⟩ : (1000 : Int) ∣ p.milliseconds :=
        Int.dvd_of_emod_eq_zero (of_decide_eq_true hseconds)
      have hmultiple : k * (p.milliseconds * 1000000) = k * q * 1000000000 := by
        rw [hq]
        ring
      omega
    · omega
  · exact heq
  · obtain ⟨-, x, hx, -, hfar⟩ :=
      hfirst.exists_far_of_lt hspaced hday hordinary hcandidate hgap hclears hmore
    obtain ⟨hxOrdinary, hxNanos⟩ := isOrdinary_multiple? hordinary hx
    have hlate := mt hxOrdinary.seconds_lt_iff.mpr (not_lt.mpr hfar)
    have hbefore := hclears.lt_stop
    have hstop := hgap.nanos_stop
    rw [Int.sub_mul] at hbefore
    omega

end Gap

/-- When skipped readings are dropped and the reading one period later is skipped, the next
occurrence is the first multiple of the period that clocks show, exactly when this multiple lies
past the end of the gap by the fraction of the skipped reading at least, and no other gap holds one
before it. This is so for every period of two days at most in whole seconds, and for any such
period if the skipped reading is on a whole second. -/
theorem skipsTo_iff_firstPast (hspaced : clock.zone.Spaced) (hday : clock.zone.HasDayOffsets)
    (hnow : clock.showing now = now) (hordinary : now.utc.IsOrdinary)
    (hstart : now.local? = some start) (hcandidate : start.add? p.duration = some candidate)
    (hskipped : clock.isSkipped candidate = true) (hinner : candidate.IsInner)
    (hfirst : p.FirstShown clock start k r) (hreach : clock.InstantsInCalendar r)
    (policy : RepeatedPolicy) :
    ∃ stop, clock.GapEnds candidate stop ∧
      (p.SkipsTo policy clock now r ↔ p.FirstPast start candidate stop k r) ∧
      (p.milliseconds ≤ 172800000 → p.isWholeSeconds = true ∨ candidate.time.nano = 0 →
        p.SkipsTo policy clock now r) := by
  have hstartOrdinary := Moment.isOrdinary_of_local? hordinary hstart
  rw [← multiple?_one] at hcandidate
  obtain ⟨hcandidateOrdinary, -⟩ := isOrdinary_multiple? hstartOrdinary hcandidate
  obtain ⟨stop, gap, hgap⟩ :=
    LocalClock.exists_findsGap hspaced hday hinner hcandidateOrdinary hskipped
  obtain ⟨t, hfound⟩ := hgap.exists_gap?_eq
  have hclears := clears_stepsTo hstartOrdinary hcandidate hfound
    (hgap.holdsUntil hcandidateOrdinary)
  have hpast := hclears.firstPast_iff hspaced hday hstartOrdinary hcandidate hgap hfirst
  have hskips : k = p.stepsTo start stop → p.SkipsTo policy clock now r := by
    rintro rfl
    refine skipsTo_of_clearGap hspaced hday hstartOrdinary hcandidate hgap hfirst hnow hstart
      hskipped hreach ?_
    rw [hclears.clearGap_eq, hfirst.multiple?_eq]
  refine ⟨stop.seconds, hgap.gapEnds, ⟨fun h => hpast.mpr ?_, fun h => hskips (hpast.mp h)⟩, ?_⟩
  · exact hclears.eq_of_skipsTo hspaced hday hstartOrdinary hcandidate hgap hfirst hnow hordinary
      hstart hskipped h
  · intro hshort hwhole
    exact hskips (hclears.eq_of_le_two_days hspaced hday hstartOrdinary hcandidate hgap hfirst
      hshort hwhole)

section Sample

open Recurrence

/-- Every forty minutes. -/
def fortyMinutes : Period := ⟨2400000, by decide, by decide⟩

/-- From half past one, forty minutes lead to 02:10 and 02:50, which clocks skip, and then to
03:30. -/
theorem skipsTo_iff_firstPast_newYork :
    newYork.zone.Spaced ∧ newYork.zone.HasDayOffsets ∧
      newYork.isSkipped (readingOn 20520 7800 0 (by decide)) = true ∧
      fortyMinutes.FirstShown newYork (readingOn 20520 5400 0 (by decide)) 3
        (readingOn 20520 12600 0 (by decide)) ∧
      fortyMinutes.SkipsTo .standardTime newYork (springForward 23400 (-18000) (by decide))
        (readingOn 20520 12600 0 (by decide)) := by
  have hskipped : newYork.isSkipped (readingOn 20520 7800 0 (by decide)) = true := by decide +kernel
  have hfirst : fortyMinutes.FirstShown newYork (readingOn 20520 5400 0 (by decide)) 3
      (readingOn 20520 12600 0 (by decide)) := by
    refine ⟨by decide, by decide +kernel, by decide +kernel, fun j hj hj3 x hx => ?_⟩
    obtain rfl | rfl : j = 1 ∨ j = 2 := by omega
    · have hall : (fortyMinutes.multiple? (readingOn 20520 5400 0 (by decide)) 1).all
          newYork.isSkipped = true := by decide +kernel
      rwa [hx] at hall
    · have hall : (fortyMinutes.multiple? (readingOn 20520 5400 0 (by decide)) 2).all
          newYork.isSkipped = true := by decide +kernel
      rwa [hx] at hall
  have hstart : (springForward 23400 (-18000) (by decide)).local? =
      some (readingOn 20520 5400 0 (by decide)) := by
    decide +kernel
  have hcandidate : (readingOn 20520 5400 0 (by decide)).add? fortyMinutes.duration =
      some (readingOn 20520 7800 0 (by decide)) := by
    decide +kernel
  obtain ⟨stop, -, -, hshort⟩ := skipsTo_iff_firstPast spaced_newYork hasDayOffsets_newYork
    (by decide +kernel) (by decide) hstart hcandidate hskipped ⟨by decide, by decide⟩ hfirst
    (LocalClock.instantsInCalendar_of_day_mem hasDayOffsets_newYork (by decide)) .standardTime
  exact ⟨spaced_newYork, hasDayOffsets_newYork, hskipped, hfirst,
    hshort (by decide) (Or.inl (by decide))⟩

/-- Every half an hour and fifty milliseconds. -/
def halfHours : Period := ⟨1800050, by decide, by decide⟩

/-- A tenth of a second before clocks jump. -/
def lastTenth : Moment := instantOn 20520 25199 900000000 (-18000) (by decide)

/-- The local reading of that moment. -/
def lastTenthReading : Reading := readingOn 20520 7199 900000000 (by decide)

/-- Every fifty-two weeks. -/
def fiftyTwoWeeks : Period := ⟨31449600000, by decide, by decide⟩

/-- Half past two at night of 15 March 2020. -/
def marchNight : Moment := instantOn 18336 23400 0 (-14400) (by decide)

/-- Two half hours after the last tenth clocks show three o'clock sharp, but the call goes on to
half past three. Fifty-two weeks lead from one jump of the clocks to the next for six years, and
the call returns an instant that reads half past one. -/
theorem not_skipsTo_newYork :
    newYork.zone.Spaced ∧ newYork.zone.HasDayOffsets ∧
      (newYork.showing lastTenth = lastTenth ∧ lastTenth.utc.IsOrdinary ∧
        lastTenth.local? = some lastTenthReading ∧
        halfHours.FirstShown newYork lastTenthReading 2 (readingOn 20520 10800 0 (by decide)) ∧
        newYork.InstantsInCalendar (readingOn 20520 10800 0 (by decide)) ∧
        ¬halfHours.SkipsTo .standardTime newYork lastTenth (readingOn 20520 10800 0 (by decide))) ∧
      newYork.showing marchNight = marchNight ∧ marchNight.utc.IsOrdinary ∧
        marchNight.local? = some (readingOn 18336 9000 0 (by decide)) ∧
        fiftyTwoWeeks.FirstShown newYork (readingOn 18336 9000 0 (by decide)) 7
          (readingOn 20884 9000 0 (by decide)) ∧
        newYork.InstantsInCalendar (readingOn 20884 9000 0 (by decide)) ∧
        ¬fiftyTwoWeeks.SkipsTo .standardTime newYork marchNight
          (readingOn 20884 9000 0 (by decide)) := by
  refine ⟨spaced_newYork, hasDayOffsets_newYork, ⟨by decide +kernel, by decide, by decide +kernel,
    ⟨by decide, by decide +kernel, by decide +kernel, fun j hj hj2 x hx => ?_⟩,
    LocalClock.instantsInCalendar_of_day_mem hasDayOffsets_newYork (by decide), ?_⟩,
    by decide +kernel, by decide, by decide +kernel,
    ⟨by decide, by decide +kernel, by decide +kernel, fun j hj hj7 x hx => ?_⟩,
    LocalClock.instantsInCalendar_of_day_mem hasDayOffsets_newYork (by decide), ?_⟩
  · obtain rfl : j = 1 := by omega
    have hall : (halfHours.multiple? lastTenthReading 1).all newYork.isSkipped = true := by
      decide +kernel
    rwa [hx] at hall
  · rintro ⟨m, hm, hr⟩
    have hfound : halfHours.nextTime { skipped := .skip } newYork lastTenth =
        .ok ⟨⟨⟨20520, by decide⟩, ⟨27000, 50000000, by decide, by decide⟩⟩, -14400⟩ := by
      decide +kernel
    rw [hfound, Except.ok.injEq] at hm
    subst hm
    exact absurd hr (by decide +kernel)
  · have hall : ∀ i : Fin 6, (fiftyTwoWeeks.multiple? (readingOn 18336 9000 0 (by decide))
        (i.val + 1 : Int)).all newYork.isSkipped = true := by
      decide +kernel
    obtain ⟨i, rfl⟩ : ∃ i : Fin 6, j = i.val + 1 := by
      refine ⟨⟨(j - 1).toNat, by omega⟩, ?_⟩
      dsimp only
      omega
    have hskipped := hall i
    rwa [hx] at hskipped
  · rintro ⟨m, hm, hr⟩
    have hfound : fiftyTwoWeeks.nextTime { skipped := .skip } newYork marchNight =
        .ok ⟨⟨⟨18700, by decide⟩, ⟨23400, 0, by decide, by decide⟩⟩, -18000⟩ := by
      decide +kernel
    rw [hfound, Except.ok.injEq] at hm
    subst hm
    exact absurd hr (by decide +kernel)

end Sample

end Period

end Almanac
