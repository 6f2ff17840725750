import Almanac.Proofs.Recurrence.Clearing
import Almanac.Proofs.Recurrence.Earliest
import Almanac.Proofs.Recurrence.Failure

/-!
# Asking later

A call made later mostly gives a later occurrence, but not always. The dates of a calendar rule may
be counted from another start, and what is left behind or overtaken is found again by the later
call. A period depends on the local reading, which may have gone back, on whether it counts by
readings or in elapsed time, and on the gap that the reading one period later falls into.
-/

namespace Almanac

/-! ## Adding to later readings -/

namespace Reading

variable {a b x y : Reading} {d : Duration}

/-- What is added to a leap second either stays in it, or counts from its start. -/
theorem add?_of_not_isOrdinary (ha : ¬a.IsOrdinary) (hd : 0 ≤ d.nanos) (h : a.add? d = some x) :
    x.seconds = a.seconds ∨
      x.IsOrdinary ∧ x.nanos = a.nanos - 1000000000 + d.nanos := by
  obtain ⟨date, hdate, rfl⟩ := Option.map_eq_some_iff.mp h
  have hday : date.day = (a.toWall.add d).day := Date.ofDay?_eq_some.mp hdate
  have hleap : ¬a.time.nano < 1000000000 := mt isOrdinary_iff.mpr ha
  have hwhole : 0 ≤ d.seconds := Int.tdiv_nonneg hd (by decide)
  have hsplit : d.seconds * 1000000000 + d.subsecond = d.nanos := Int.tdiv_mul_add_tmod ..
  by_cases hpast : 0 < d.seconds ∨ (0 < d.subsecond ∧ 2000000000 ≤ a.time.nano + d.subsecond)
  · have hsum : a.time.add d = TimeOfDay.addParts (a.time.second + d.seconds)
        (a.time.nano - 1000000000 + d.subsecond) := by
      unfold TimeOfDay.add
      dsimp only
      rw [if_neg hleap, dif_pos hpast]
    obtain ⟨hnano, htotal⟩ := TimeOfDay.addParts_spec (a.time.second + d.seconds)
      (a.time.nano - 1000000000 + d.subsecond)
    refine Or.inr ⟨?_, ?_⟩
    · rw [isOrdinary_iff]
      simpa only [Wall.add, toWall, hsum] using hnano
    · unfold nanos seconds
      rw [hday]
      simp only [Wall.add, toWall, hsum]
      omega
  · have hstay : (a.time.add d).1.second = a.time.second ∧ (a.time.add d).2 = 0 := by
      unfold TimeOfDay.add
      dsimp only
      rw [if_neg hleap, dif_neg hpast, if_neg (not_lt.mpr hwhole)]
      exact ⟨rfl, rfl⟩
    refine Or.inl ?_
    unfold seconds
    rw [hday]
    simp only [Wall.add, toWall, hstay]
    omega

/-- A duration after a later ordinary reading comes no earlier reading. -/
theorem le_of_add? (hb : b.IsOrdinary) (hd : 0 ≤ d.nanos) (hle : a ≤ b)
    (hx : a.add? d = some x) (hy : b.add? d = some y) : x ≤ y := by
  obtain ⟨hyOrdinary, hyNanos⟩ := hb.add? hy
  by_cases ha : a.IsOrdinary
  · obtain ⟨hxOrdinary, hxNanos⟩ := ha.add? hx
    rw [← not_lt, hb.lt_iff_nanos ha] at hle
    rw [← not_lt, hyOrdinary.lt_iff_nanos hxOrdinary]
    omega
  · -- A leap second ends before the next ordinary second.
    have hleap := mt isOrdinary_iff.mpr ha
    have hseconds : a.seconds < b.seconds := by
      rw [isOrdinary_iff] at hb
      rw [le_iff_key] at hle
      unfold key TimeOfDay.key at hle
      unfold seconds
      omega
    have hstart := hb.nanos_div
    rcases add?_of_not_isOrdinary ha hd hx with hstay | ⟨hxOrdinary, hxNanos⟩
    · have hlater : x.seconds < y.seconds := by
        have hend := hyOrdinary.nanos_div
        omega
      exact le_of_not_gt fun hgt => not_le_of_gt hlater (seconds_le_of_le hgt.le)
    · have hnano := a.time.nano_lt
      have hsplit : a.nanos = a.seconds * 1000000000 + a.time.nano := rfl
      rw [← not_lt, hyOrdinary.lt_iff_nanos hxOrdinary]
      omega

end Reading

/-- Readings that mean later and later instants mean no earlier ones. -/
theorem Moment.le_of_reading_le {f : Reading → Option Moment} {x y : Reading} {m m' : Moment}
    (hm : f x = some m) (hm' : f y = some m') (hle : x ≤ y) (hlt : x < y → m < m') : m ≤ m' := by
  rcases lt_or_eq_of_le hle with hless | rfl
  · exact (hlt hless).le
  · rw [hm, Option.some.injEq] at hm'
    rw [hm']

/-! ## The readings that a period takes -/

namespace Period

variable {p : Period} {behavior : Behavior} {clock : LocalClock} {policy : RepeatedPolicy}
  {now now' m m' e e' : Moment} {gap : Interval Reading}
  {start start' candidate cleared x x' y : Reading} {bound : Nat} {steps : Int}

/-- Clearing a gap goes on by whole periods. -/
theorem exists_multiple?_of_clearFrom (hstart : start.IsOrdinary) (hsteps : 1 ≤ steps)
    (hx : ∃ j, 1 ≤ j ∧ p.multiple? start j = some x)
    (h : p.clearFrom gap start bound steps x = .ok y) :
    ∃ j, 1 ≤ j ∧ p.multiple? start j = some y := by
  induction bound generalizing steps x with
  | zero =>
    cases h
    exact hx
  | succ bound ih =>
    unfold clearFrom at h
    rw [bind_ofMilliseconds? hstart] at h
    split at h
    · split at h
      · next next hnext => exact ih (by omega) ⟨steps, hsteps, hnext⟩ h
      · cases h
    · cases h
      exact hx

/-- What clears a gap does not come before the reading in the gap. -/
theorem le_of_clearGap (hstart : start.IsOrdinary)
    (hcandidate : start.add? p.duration = some candidate)
    (h : p.clearGap clock start candidate = .ok cleared) : candidate ≤ cleared := by
  rw [← multiple?_one] at hcandidate
  obtain ⟨hordinary, hnanos⟩ := isOrdinary_multiple? hstart hcandidate
  have hfirst : ∃ j, 1 ≤ j ∧ p.multiple? start j = some candidate := ⟨1, le_rfl, hcandidate⟩
  have hmultiple : ∃ j, 1 ≤ j ∧ p.multiple? start j = some cleared := by
    unfold clearGap at h
    split at h
    · cases h
      exact hfirst
    · next t gap hgap =>
      obtain ⟨stop, hupper, hstop, hlt, -⟩ := LocalClock.upper_of_gap? hordinary hgap
      simp only [hupper] at h
      refine exists_multiple?_of_clearFrom hstart ?_ hfirst h
      -- The end of the gap lies more than one period after the start.
      have hdistance : (stop.since start).nanos = stop.nanos - start.nanos :=
        hstop.nanos_since hstart
      have hpos := p.pos
      rw [hordinary.lt_iff_nanos hstop] at hlt
      have hmore : 0 < (stop.since start).milliseconds := by
        unfold Duration.milliseconds
        rw [hdistance, Int.tdiv_eq_ediv_of_nonneg (by omega)]
        omega
      obtain ⟨-, hcovers⟩ := p.tdiv_spec hmore
      exact (mul_pos_iff_of_pos_right hpos).mp (hmore.trans_le hcovers)
  obtain ⟨j, hj, hcleared⟩ := hmultiple
  obtain ⟨hclearedOrdinary, hclearedNanos⟩ := isOrdinary_multiple? hstart hcleared
  have hmul := p.mul_length_le hj
  rw [← not_lt, hclearedOrdinary.lt_iff_nanos hordinary]
  omega

/-- An occurrence is counted in local readings: it is what the candidate means, or what the reading
that clears the gap of the candidate means. -/
def ByReading (p : Period) (behavior : Behavior) (clock : LocalClock) (start x : Reading)
    (m : Moment) : Prop :=
  clock.candidate? behavior x = some m ∨
    behavior.skipped = .skip ∧ clock.isSkipped x = true ∧
      ∃ cleared, p.clearGap clock start x = .ok cleared ∧
        clock.resolve? cleared behavior.repeated = some m

theorem ByReading.candidate?_eq (h : p.ByReading behavior clock start x m)
    (hkind : clock.isSkipped x = false ∨ behavior.skipped = .shift) :
    clock.candidate? behavior x = some m := by
  rcases h with hm | ⟨hskip, hskipped, -⟩
  · exact hm
  · rcases hkind with hshown | hshift
    · rw [hskipped] at hshown
      cases hshown
    · rw [hskip] at hshift
      cases hshift

/-- What a period does not count in local readings, it counts in elapsed time. -/
theorem byReading_or_elapsed (hstart : now.local? = some start)
    (hx : start.add? p.duration = some x) (h : p.nextTime behavior clock now = .ok m) :
    p.ByReading behavior clock start x m ∨ p.elapsed clock now = .ok m := by
  obtain ⟨start', x', resolved, hstart', hx', hresolution, hcases⟩ := exists_of_nextTime h
  rw [hstart, Option.some.injEq] at hstart'
  subst hstart'
  rw [hx, Option.some.injEq] at hx'
  subst hx'
  rcases hcases with ⟨rfl, -⟩ | ⟨-, helapsed⟩
  · unfold resolution at hresolution
    cases hskipped : clock.isSkipped x with
    | true =>
      rw [if_pos hskipped] at hresolution
      cases hpolicy : behavior.skipped with
      | shift =>
        rw [hpolicy, Except.ok.injEq] at hresolution
        refine Or.inl (Or.inl ?_)
        rw [LocalClock.candidate?_of_skipped hskipped, hpolicy]
        exact hresolution
      | skip =>
        rw [hpolicy] at hresolution
        dsimp only at hresolution
        cases hcleared : p.clearGap clock start x with
        | error fault =>
          rw [hcleared] at hresolution
          cases hresolution
        | ok cleared =>
          rw [hcleared, Except.map, Except.ok.injEq] at hresolution
          exact Or.inl (Or.inr ⟨hpolicy, hskipped, cleared, hcleared, hresolution⟩)
    | false =>
      rw [if_neg (ne_true_of_eq_false hskipped)] at hresolution
      split at hresolution
      · cases helapsed : p.elapsed clock now with
        | error fault =>
          rw [helapsed] at hresolution
          cases hresolution
        | ok e =>
          rw [helapsed] at hresolution
          cases hresolution
          exact Or.inr rfl
      · rw [Except.ok.injEq] at hresolution
        refine Or.inl (Or.inl ?_)
        rw [LocalClock.candidate?_of_shown hskipped]
        exact hresolution
  · exact Or.inr helapsed

/-- Elapsed time keeps the order of the instants. -/
theorem le_of_elapsed (hordinary : now'.utc.IsOrdinary) (hle : now ≤ now')
    (h : p.elapsed clock now = .ok e) (h' : p.elapsed clock now' = .ok e') : e ≤ e' := by
  have hpos := p.pos
  have hduration : p.duration.nanos = p.milliseconds * 1000000 := rfl
  unfold elapsed at h h'
  split at h
  · next utc hutc =>
    split at h'
    · next utc' hutc' =>
      cases h
      cases h'
      exact Reading.le_of_add? hordinary (by omega) hle hutc hutc'
    · cases h'
  · cases h

section Spaced

variable (hspaced : clock.zone.Spaced) (hday : clock.zone.HasDayOffsets)

include hspaced hday

/-- Shown readings keep their order. -/
theorem le_of_resolve?_of_le (hm : clock.resolve? x policy = some m)
    (hm' : clock.resolve? y policy = some m') (hle : x ≤ y) : m ≤ m' :=
  Moment.le_of_reading_le (f := (clock.resolve? · policy)) hm hm' hle
    (LocalClock.lt_of_means hspaced hday (LocalClock.means_of_resolve? hspaced hday hm)
      (LocalClock.means_of_resolve? hspaced hday hm'))

/-- Of two occurrences that are counted in local readings, the one from the later reading is not
earlier, unless the reading one period after the first start is skipped. If both are skipped and
shifted, it is not earlier either. -/
theorem ByReading.le (h : p.ByReading behavior clock start x m)
    (h' : p.ByReading behavior clock start' x' m') (hstart' : start'.IsOrdinary)
    (hx : start.add? p.duration = some x) (hx' : start'.add? p.duration = some x')
    (hle : start ≤ start')
    (hkind : clock.isSkipped x = false ∨
      behavior.skipped = .shift ∧ clock.isSkipped x' = true) : m ≤ m' := by
  have hpos := p.pos
  have hduration : p.duration.nanos = p.milliseconds * 1000000 := rfl
  have hreadings : x ≤ x' := Reading.le_of_add? hstart' (by omega) hle hx hx'
  cases hskipped : clock.isSkipped x with
  | false =>
    have hm := h.candidate?_eq (Or.inl hskipped)
    rcases h' with hm' | ⟨-, -, cleared, hcleared, hm'⟩
    · exact Moment.le_of_reading_le hm hm' hreadings
        (LocalClock.lt_of_candidate? hspaced hday hm hm' hskipped)
    · rw [LocalClock.candidate?_of_shown hskipped] at hm
      exact le_of_resolve?_of_le hspaced hday hm hm'
        (hreadings.trans (le_of_clearGap hstart' hx' hcleared))
  | true =>
    obtain ⟨hshift, hskipped'⟩ := hkind.resolve_left (ne_false_of_eq_true hskipped)
    have hm := (LocalClock.shift_of_candidate? hskipped (h.candidate?_eq (Or.inr hshift))).2
    have hm' := (LocalClock.shift_of_candidate? hskipped' (h'.candidate?_eq (Or.inr hshift))).2
    exact Moment.le_of_reading_le hm hm' hreadings
      (LocalClock.lt_of_shiftSkipped?_of_isSkipped hspaced hday hskipped hm hskipped' hm')

end Spaced

end Period

/-! ## Two fresh calls -/

/-- A reading of the earlier call's recurrence that the later call takes first gives the later
instant, unless it is shown again at the start of the earlier call, or overtaken by the reading
that call takes. -/
theorem FirstAfter.le {set set' : Set Reading} {clock : LocalClock} {behavior : Behavior}
    {now now' m m' : Moment} {start start' x x' : Reading} (hspaced : clock.zone.Spaced)
    (hday : clock.zone.HasDayOffsets) (hnow : clock.showing now = now)
    (hnow' : clock.showing now' = now') (hstart : now.local? = some start)
    (hstart' : now'.local? = some start') (hle : now ≤ now')
    (h : FirstAfter set clock behavior now start x m)
    (h' : FirstAfter set' clock behavior now' start' x' m') (hmem : x' ∈ set)
    (hshown : ¬clock.ShownAgain behavior start x') (hovertaken : ¬clock.Overtaken behavior x x') :
    m ≤ m' := by
  refine Moment.le_of_not_lt fun hback => ?_
  have hlt : now < m' := lt_of_le_of_lt hle h'.now_lt
  rcases h.leftBehind_or_overtaken hspaced hday hnow hstart hmem h'.candidate?_eq hlt hback with
    (hagain | ⟨hbehind, -, hskipped⟩) | hover
  · exact hshown hagain
  · -- The later clock has not jumped over a reading that it still goes to.
    have hearlier := LocalClock.lt_of_isSkipped hspaced hday hnow' hstart' hnow hstart hskipped
      h'.start_lt hbehind
    exact lt_irrefl _ (lt_of_le_of_lt hle hearlier)
  · exact hovertaken hover

namespace Recurrence

variable {r : Recurrence} {clock : LocalClock} {now now' : Moment} {s s' : Schedule}

/-- A fresh call later finds no earlier occurrence. -/
def KeepsOrder (r : Recurrence) (clock : LocalClock) (now now' : Moment) : Prop :=
  ∀ s s', (r.next clock {} now).result = .ok s → (r.next clock {} now').result = .ok s' →
    s.occursOn ≤ s'.occursOn

section Sample

/-- Two calls that both succeed are compared, others are not. -/
theorem keepsOrder_iff : r.KeepsOrder clock now now' ↔
    (match (r.next clock {} now).result, (r.next clock {} now').result with
      | .ok s, .ok s' => decide (s'.occursOn < s.occursOn)
      | _, _ => false) = false := by
  unfold KeepsOrder
  cases (r.next clock {} now).result with
  | error fault => exact iff_of_true (fun _ _ hok => nomatch hok) rfl
  | ok s =>
    cases (r.next clock {} now').result with
    | error fault => exact iff_of_true (fun _ _ _ hok' => nomatch hok') rfl
    | ok s' =>
      dsimp only
      rw [decide_eq_false_iff_not]
      constructor
      · intro h
        exact not_lt_of_ge (h s s' rfl rfl)
      · rintro h _ _ ⟨⟩ ⟨⟩
        exact Moment.le_of_not_lt h

instance : Decidable (r.KeepsOrder clock now now') := decidable_of_iff' _ keepsOrder_iff

/-- A fresh call no earlier finds an earlier occurrence. -/
def Reverses (r : Recurrence) (clock : LocalClock) (now now' : Moment) : Prop :=
  now ≤ now' ∧ ¬r.KeepsOrder clock now now'

instance : Decidable (r.Reverses clock now now') :=
  inferInstanceAs (Decidable (now ≤ now' ∧ ¬r.KeepsOrder clock now now'))

/-- A fixed period as a recurrence. -/
def ofPeriod (behavior : Behavior) (p : Period) : Recurrence := { behavior, kind := .period p }

/-- Every so many days at one time of the day. -/
def dailyAt (days : UInt32) (second : Nat) (hsecond : second < 86400)
    (h : (DailySelection.everyDays days).fault? = none) : Recurrence where
  kind := .daily
    { times := ⟨[⟨second, 0, hsecond, TimeOfDay.midnight.nano_lt⟩], List.cons_ne_nil _ _,
        List.pairwise_singleton _ _⟩
      selection := .everyDays days
      proper := h }

def lordHowe : LocalClock := { id := "Australia/Lord_Howe", zone := Zone.Table.lordHowe }

/-- Clocks that go six hours forward at noon and back three hours later. -/
def hasty : LocalClock := { id := "hasty", zone := ⟨0, [⟨1780326000, 0⟩, ⟨1780315200, 21600⟩]⟩ }

end Sample

end Recurrence

end Almanac
