import Almanac.Proofs.Recurrence.Dates
import Almanac.Proofs.Zone.Ordinary
import Almanac.Recurrence.Period

/-!
# The occurrence of a period

A period takes the local reading that lies its length after the present one. What this reading
means is decided by the policies, and the instant counts if it lies after the present; if not, and
when there is none, the length is counted in elapsed time. Either way the occurrence lies after the
present.
-/

namespace Almanac

namespace Period

variable {p : Period} {behavior : Behavior} {clock : LocalClock} {now m : Moment}
  {gap : Interval Reading} {start candidate cleared : Reading} {bound : Nat} {steps : Int}
  {resolved : Option Moment}

/-! ## One call -/

/-- The occurrence counted in elapsed time. -/
def elapsed (p : Period) (clock : LocalClock) (now : Moment) : Except Fault Moment :=
  match now.utc.add? p.duration with
  | some utc => .ok (clock.ofUtc utc)
  | none => .error (.momentSum now p.duration)

/-- The instant that the local reading one period later means. -/
def resolution (p : Period) (behavior : Behavior) (clock : LocalClock) (now : Moment)
    (start candidate : Reading) : Except Fault (Option Moment) :=
  if clock.isSkipped candidate then
    match behavior.skipped with
    | .shift => .ok (clock.shiftSkipped? candidate)
    | .skip => (p.clearGap clock start candidate).map (clock.resolve? · behavior.repeated)
  else if clock.isRepeated candidate ∧ behavior.repeated = .daylightTime then
    (p.elapsed clock now).map some
  else .ok (clock.resolve? candidate behavior.repeated)

theorem nextTime_eq (hstart : now.local? = some start)
    (hcandidate : start.add? p.duration = some candidate) :
    p.nextTime behavior clock now =
      p.resolution behavior clock now start candidate >>= fun resolved =>
        match resolved with
        | some next => if now < next then .ok next else p.elapsed clock now
        | none => p.elapsed clock now := by
  unfold nextTime resolution
  simp only [hstart, hcandidate]
  split
  · cases behavior.skipped with
    | shift => rfl
    | skip => cases p.clearGap clock start candidate <;> rfl
  · split
    · unfold elapsed
      cases now.utc.add? p.duration <;> rfl
    · rfl

/-- Everything that a period can answer with: the instant of the local reading one period later,
or the one a period of elapsed time later when that instant does not lie after the present. -/
theorem exists_of_nextTime (h : p.nextTime behavior clock now = .ok m) :
    ∃ start candidate resolved, now.local? = some start ∧
      start.add? p.duration = some candidate ∧
      p.resolution behavior clock now start candidate = .ok resolved ∧
      (resolved = some m ∧ now < m ∨
        (∀ next, resolved = some next → ¬now < next) ∧ p.elapsed clock now = .ok m) := by
  cases hstart : now.local? with
  | none =>
    unfold nextTime at h
    simp only [hstart] at h
    cases h
  | some start =>
    cases hcandidate : start.add? p.duration with
    | none =>
      unfold nextTime at h
      simp only [hstart, hcandidate] at h
      cases h
    | some candidate =>
      rw [nextTime_eq hstart hcandidate] at h
      obtain ⟨resolved, hresolved, h⟩ := exists_of_bind_eq_ok h
      refine ⟨start, candidate, resolved, rfl, hcandidate, hresolved, ?_⟩
      cases resolved with
      | none =>
        refine Or.inr ⟨fun next hnext => ?_, h⟩
        cases hnext
      | some next =>
        dsimp only at h
        split at h
        · next hlt =>
          cases h
          exact Or.inl ⟨rfl, hlt⟩
        · next hnot =>
          refine Or.inr ⟨fun other hother => ?_, h⟩
          cases hother
          exact hnot

/-! ## After the present -/

/-- All readings that are tried to clear a gap are ordinary. -/
theorem isOrdinary_of_clearFrom (hstart : start.IsOrdinary) (hcandidate : candidate.IsOrdinary)
    (h : p.clearFrom gap start bound steps candidate = .ok cleared) : cleared.IsOrdinary := by
  induction bound generalizing steps candidate with
  | zero =>
    cases h
    exact hcandidate
  | succ bound ih =>
    unfold clearFrom at h
    split at h
    · split at h
      · next next hnext =>
        obtain ⟨d, -, hadd⟩ := Option.bind_eq_some_iff.mp hnext
        exact ih (hstart.add? hadd).1 h
      · cases h
    · cases h
      exact hcandidate

theorem isOrdinary_of_clearGap (hstart : start.IsOrdinary) (hcandidate : candidate.IsOrdinary)
    (h : p.clearGap clock start candidate = .ok cleared) : cleared.IsOrdinary := by
  unfold clearGap at h
  split at h
  · cases h
    exact hcandidate
  · split at h
    · cases h
      exact hcandidate
    · exact isOrdinary_of_clearFrom hstart hcandidate h

/-- What is counted in elapsed time from an ordinary instant lies after it. -/
theorem lt_of_elapsed (hnow : now.utc.IsOrdinary) (h : p.elapsed clock now = .ok m) :
    now < m ∧ m.utc.IsOrdinary := by
  unfold elapsed at h
  split at h
  · next utc hutc =>
    cases h
    obtain ⟨hordinary, hnanos⟩ := hnow.add? hutc
    refine ⟨(hnow.lt_iff_nanos hordinary).mpr ?_, hordinary⟩
    have hduration : p.duration.nanos = p.milliseconds * 1000000 := rfl
    have hpos := p.pos
    omega
  · cases h

theorem isOrdinary_of_resolution (hnow : now.utc.IsOrdinary) (hstart : start.IsOrdinary)
    (hcandidate : candidate.IsOrdinary)
    (h : p.resolution behavior clock now start candidate = .ok (some m)) : m.utc.IsOrdinary := by
  unfold resolution at h
  split at h
  · split at h
    · rw [Except.ok.injEq] at h
      exact LocalClock.isOrdinary_of_shiftSkipped? hcandidate h
    · cases hcleared : p.clearGap clock start candidate with
      | error fault =>
        rw [hcleared] at h
        cases h
      | ok cleared =>
        rw [hcleared, Except.map, Except.ok.injEq] at h
        exact LocalClock.isOrdinary_of_resolve?
          (isOrdinary_of_clearGap hstart hcandidate hcleared) h
  · split at h
    · cases helapsed : p.elapsed clock now with
      | error fault =>
        rw [helapsed] at h
        cases h
      | ok m' =>
        rw [helapsed] at h
        cases h
        exact (lt_of_elapsed hnow helapsed).2
    · rw [Except.ok.injEq] at h
      exact LocalClock.isOrdinary_of_resolve? hcandidate h

/-- The occurrence of a period lies after the present. -/
theorem lt_of_nextTime (hnow : now.utc.IsOrdinary) (h : p.nextTime behavior clock now = .ok m) :
    now < m ∧ m.utc.IsOrdinary := by
  obtain ⟨start, candidate, resolved, hstart, hcandidate, hresolution, hcases⟩ :=
    exists_of_nextTime h
  rcases hcases with ⟨rfl, hlt⟩ | ⟨-, helapsed⟩
  · have hstartOrdinary := Moment.isOrdinary_of_local? hnow hstart
    have hcandidateOrdinary := (hstartOrdinary.add? hcandidate).1
    exact ⟨hlt, isOrdinary_of_resolution hnow hstartOrdinary hcandidateOrdinary hresolution⟩
  · exact lt_of_elapsed hnow helapsed

end Period

end Almanac
