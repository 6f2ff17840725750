import Almanac.Proofs.Recurrence.Failure
import Almanac.Proofs.Recurrence.Periods
import Almanac.Proofs.Recurrence.Requests

/-!
# The time until an occurrence

Every occurrence lies after the present moment of its call, whatever the zone does and whatever
has been requested before: calendar rules examine candidates until one does, and periods fall back
on elapsed time. Outside leap seconds the due time is then the positive difference of both
instants. An iteration calls for each occurrence from the one before, so its occurrences ascend,
its due times add up, and no call of it after the first one is discontinuous unless somebody else
uses the recurrence.
-/

namespace Almanac

/-- No time of day of a recurrence is inside a leap second. -/
def RecurrenceKind.HasOrdinaryTimes (kind : RecurrenceKind) : Prop :=
  ∀ rule times, kind.calendar? = some (rule, times) → ∀ t ∈ times.toList, t.isLeap = false

/-- The schedule of a call: its occurrence lies after the present, at an ordinary instant, and
the due time is the positive difference. -/
structure Schedule.DueAfter (s : Schedule) (now : Moment) : Prop where
  lt_occursOn : now < s.occursOn
  nanos_due : s.due.nanos = s.occursOn.utc.nanos - now.utc.nanos
  due_pos : 0 < s.due.nanos
  isOrdinary : s.occursOn.utc.IsOrdinary

/-- What lies after an ordinary instant is due after a positive length of time. -/
theorem Schedule.dueAfter_ofMoment {m now : Moment} (hnow : now.utc.IsOrdinary)
    (hm : m.utc.IsOrdinary) (hlt : now < m) : (Schedule.ofMoment m now).DueAfter now := by
  have hdue : (m.since now).nanos = m.utc.nanos - now.utc.nanos := hm.nanos_since hnow
  have hpos := (hnow.lt_iff_nanos hm).mp hlt
  refine ⟨hlt, hdue, ?_, hm⟩
  change 0 < (m.since now).nanos
  omega

namespace Recurrence

variable {r : Recurrence} {clock : LocalClock} {state : RecurrenceState} {now m : Moment}
  {s : Schedule} {requests : List Request} {turns : List (List Request)} {k n : Nat}

/-! ## One call -/

/-- A call from an ordinary instant in a reachable state. -/
theorem Reachable.dueAfter (hreach : r.Reachable state) (htimes : r.kind.HasOrdinaryTimes)
    (hnow : now.utc.IsOrdinary) (hok : (r.next clock state now).result = .ok s) :
    s.DueAfter now := by
  obtain ⟨m, c, hoccurrence, rfl, -⟩ := occurrence_of_next_ok hok
  have hshowing : (clock.showing now).utc.IsOrdinary := hnow
  -- Both the present moment and the moment as the clock shows it are one instant.
  suffices h : clock.showing now < m ∧ m.utc.IsOrdinary by
    obtain ⟨hlt, hdue, hpos, hordinary⟩ := Schedule.dueAfter_ofMoment hshowing h.2 h.1
    exact ⟨hlt, hdue, hpos, hordinary⟩
  cases hcalendar : r.kind.calendar? with
  | none =>
    obtain ⟨name, behavior, kind⟩ := r
    cases kind with
    | period p => exact Period.lt_of_nextTime hshowing (Prod.mk.inj hoccurrence).1
    | daily d => cases hcalendar
    | weekly w => cases hcalendar
    | monthly m => cases hcalendar
  | some calendar =>
    obtain ⟨rule, times⟩ := calendar
    obtain ⟨dates, hdates⟩ := RecurrenceKind.exists_dates hcalendar
    have hwalk := fun a => (hdates a).1
    obtain ⟨anchor, hanchor⟩ := hreach.exists_countsFrom hcalendar hwalk
    obtain ⟨hlt, a, -, reading, hreading, hcandidate⟩ :=
      (countsFrom_next hcalendar hwalk hanchor clock now).2 _ hok
    have hordinary : reading.IsOrdinary := htimes rule times hcalendar _ hreading.2
    exact ⟨hlt, LocalClock.isOrdinary_of_candidate? hordinary hcandidate⟩

/-! ## Iterations -/

/-- The results of an iteration from a moment on while others use the recurrence too: before each
call of the iteration, some requests of theirs are served. -/
def schedulesAmid (r : Recurrence) (clock : LocalClock) :
    List (List Request) → RecurrenceState → Moment → List (Except Fault Schedule)
  | [], _, _ => []
  | requests :: turns, state, now =>
    let answer := r.next clock (r.stateAfter state requests) now
    match answer.result with
    | .error fault => [.error fault]
    | .ok s => .ok s :: schedulesAmid r clock turns answer.state s.occursOn

/-- The schedules among the results of some calls. -/
def yielded (results : List (Except Fault Schedule)) : List Schedule :=
  results.filterMap Except.toOption

theorem schedulesAmid_of_error {fault : Fault}
    (h : (r.next clock (r.stateAfter state requests) now).result = .error fault) :
    r.schedulesAmid clock (requests :: turns) state now = [.error fault] := by
  simp only [schedulesAmid, h]

theorem schedulesAmid_of_ok
    (h : (r.next clock (r.stateAfter state requests) now).result = .ok s) :
    r.schedulesAmid clock (requests :: turns) state now =
      .ok s :: r.schedulesAmid clock turns
        (r.next clock (r.stateAfter state requests) now).state s.occursOn := by
  simp only [schedulesAmid, h]

/-- An iteration that has the recurrence for itself. -/
theorem result_schedulesFrom_eq (r : Recurrence) (clock : LocalClock) (state : RecurrenceState)
    (now : Moment) (k : Nat) :
    (r.schedulesFrom clock k state now).result =
      r.schedulesAmid clock (List.replicate k []) state now := by
  induction k generalizing state now with
  | zero => rfl
  | succ k ih =>
    rw [List.replicate_succ]
    cases hresult : (r.next clock state now).result with
    | error fault => rw [result_schedulesFrom_of_error hresult, schedulesAmid_of_error hresult]
    | ok s =>
      rw [result_schedulesFrom_of_ok hresult, schedulesAmid_of_ok hresult, ih]
      rfl

/-- Each schedule is due after the occurrence of the one before. -/
inductive EachDueAfter : Moment → List Schedule → Prop
  | nil {now : Moment} : EachDueAfter now []
  | cons {now : Moment} {s : Schedule} {rest : List Schedule} (hdue : s.DueAfter now)
      (hrest : EachDueAfter s.occursOn rest) : EachDueAfter now (s :: rest)

namespace EachDueAfter

variable {ss : List Schedule}

theorem sorted (h : EachDueAfter now ss) :
    (now :: ss.map (·.occursOn)).Pairwise (· < ·) := by
  induction h with
  | nil => exact List.pairwise_singleton _ _
  | @cons now s rest hdue _ ih =>
    refine List.pairwise_cons.mpr ⟨?_, ih⟩
    intro m hm
    rcases List.mem_cons.mp hm with rfl | hm
    · exact hdue.lt_occursOn
    · exact hdue.lt_occursOn.trans ((List.pairwise_cons.mp ih).1 m hm)

/-- The due times up to a schedule add up to the time until its occurrence. -/
theorem sum_due (h : EachDueAfter now ss) (hn : ss[n]? = some s) :
    ((ss.take (n + 1)).map (·.due.nanos)).sum = s.occursOn.utc.nanos - now.utc.nanos := by
  induction h generalizing n with
  | nil => cases hn
  | @cons now first rest hdue _ ih =>
    have hnanos := hdue.nanos_due
    rw [List.take_succ_cons, List.map_cons, List.sum_cons]
    cases n with
    | zero =>
      rw [List.getElem?_cons_zero, Option.some.injEq] at hn
      subst hn
      rw [List.take_zero, List.map_nil, List.sum_nil]
      omega
    | succ n =>
      rw [List.getElem?_cons_succ] at hn
      rw [ih hn]
      omega

end EachDueAfter

/-- An iteration from an ordinary instant, in a reachable state. -/
theorem Reachable.eachDueAfter (hreach : r.Reachable state) (htimes : r.kind.HasOrdinaryTimes)
    (hnow : now.utc.IsOrdinary) (turns : List (List Request)) :
    EachDueAfter now (yielded (r.schedulesAmid clock turns state now)) := by
  induction turns generalizing state now with
  | nil => exact .nil
  | cons requests turns ih =>
    have hbetween := hreach.stateAfter requests
    cases hresult : (r.next clock (r.stateAfter state requests) now).result with
    | error fault =>
      rw [schedulesAmid_of_error hresult]
      exact .nil
    | ok s =>
      rw [schedulesAmid_of_ok hresult]
      have hdue := hbetween.dueAfter htimes hnow hresult
      exact .cons hdue (ih (.next clock now hbetween) hdue.isOrdinary)

/-! ## Resets of an iteration -/

theorem resets_next_of_continuous (h : isDiscontinuous state (clock.showing now) = false) :
    (r.next clock state now).resets = 0 := by
  unfold next
  simp only [h, Bool.false_eq_true, if_false]
  split <;> rfl

theorem resets_schedulesFrom_of_error {fault : Fault}
    (h : (r.next clock state now).result = .error fault) :
    (r.schedulesFrom clock (k + 1) state now).resets = (r.next clock state now).resets := by
  simp only [schedulesFrom, h]

theorem resets_schedulesFrom_of_ok (h : (r.next clock state now).result = .ok s) :
    (r.schedulesFrom clock (k + 1) state now).resets =
      (r.next clock state now).resets +
        (r.schedulesFrom clock k (r.next clock state now).state s.occursOn).resets := by
  simp only [schedulesFrom, h]

/-- Of all calls of an iteration, only the first one can reset the recurrence. -/
theorem resets_schedulesFrom_succ (r : Recurrence) (clock : LocalClock) (state : RecurrenceState)
    (now : Moment) (k : Nat) :
    (r.schedulesFrom clock (k + 1) state now).resets = (r.next clock state now).resets := by
  induction k generalizing state now with
  | zero =>
    cases hresult : (r.next clock state now).result with
    | error fault => exact resets_schedulesFrom_of_error hresult
    | ok s => exact resets_schedulesFrom_of_ok hresult
  | succ k ih =>
    cases hresult : (r.next clock state now).result with
    | error fault => exact resets_schedulesFrom_of_error hresult
    | ok s =>
      obtain ⟨m, c, -, rfl, hstate⟩ := occurrence_of_next_ok hresult
      have hcontinuous : isDiscontinuous (r.next clock state now).state (clock.showing m) = false :=
        hstate ▸ isDiscontinuous_showing_self clock m c
      rw [resets_schedulesFrom_of_ok hresult, ih]
      exact (congrArg _ (resets_next_of_continuous hcontinuous)).trans (Nat.add_zero _)

/-- Whatever has been requested before, each schedule of a call from an ordinary instant has its
occurrence after this instant and is due after exactly the time between both. The occurrences of
every iteration therefore ascend, and the due times up to one of them add up to the time from the
start until it, even if others use the recurrence in between; if nobody does, only the first call
can reset it. -/
theorem dueAfter_and_sum_due (htimes : r.kind.HasOrdinaryTimes) :
    (∀ requests, ∀ reply ∈ r.replies requests, reply.now.utc.IsOrdinary →
      ∀ s, reply.result = .ok s → s.DueAfter reply.now) ∧
      ∀ state, r.Reachable state → ∀ clock now, now.utc.IsOrdinary →
        (∀ turns ss, ss = yielded (r.schedulesAmid clock turns state now) →
          (now :: ss.map (·.occursOn)).Pairwise (· < ·) ∧
            ∀ n s, ss[n]? = some s → ((ss.take (n + 1)).map (·.due.nanos)).sum =
              s.occursOn.utc.nanos - now.utc.nanos) ∧
        ∀ k, (r.schedulesFrom clock k state now).result =
            r.schedulesAmid clock (List.replicate k []) state now ∧
          (r.schedulesFrom clock (k + 1) state now).resets = (r.next clock state now).resets := by
  refine ⟨fun requests reply hreply hnow s hok => ?_, fun state hreach clock now hnow => ⟨?_, ?_⟩⟩
  · obtain ⟨state, hreach, hresult⟩ := Reachable.exists_of_mem_repliesFrom .fresh hreply
    exact hreach.dueAfter htimes hnow (hresult.symm.trans hok)
  · rintro turns ss rfl
    have heach : EachDueAfter now (yielded (r.schedulesAmid clock turns state now)) :=
      hreach.eachDueAfter htimes hnow turns
    exact ⟨heach.sorted, fun n s hn => heach.sum_due hn⟩
  · exact fun k => ⟨r.result_schedulesFrom_eq clock state now k,
      r.resets_schedulesFrom_succ clock state now k⟩

theorem dueAfter_and_sum_due_eachMorning :
    (eachMorning 1 rfl).kind.HasOrdinaryTimes ∧ june.utc.IsOrdinary ∧
      (∃ reply ∈ (eachMorning 1 rfl).replies [.next .utc may, .reset, .next .utc june],
        reply.now = june ∧ ∃ s, reply.result = .ok s ∧ s.DueAfter june) ∧
      ∃ first second : Schedule,
        yielded ((eachMorning 1 rfl).schedulesAmid .utc [[], [.reset]] {} june) =
          [first, second] ∧
        june < first.occursOn ∧ first.occursOn < second.occursOn ∧
        first.due.nanos + second.due.nanos = second.occursOn.utc.nanos - june.utc.nanos := by
  have htimes : (eachMorning 1 rfl).kind.HasOrdinaryTimes := by
    intro rule times hcalendar
    cases hcalendar
    decide
  have hjune : june.utc.IsOrdinary := by decide
  obtain ⟨hreplies, hiterations⟩ := dueAfter_and_sum_due htimes
  let first : Schedule := ⟨onTheHour 20605 8 (by decide) (by decide), ⟨3600000000000⟩⟩
  let second : Schedule := ⟨onTheHour 20606 8 (by decide) (by decide), ⟨86400000000000⟩⟩
  have hfirst : ((eachMorning 1 rfl).next .utc {} june).result = .ok first := by decide +kernel
  have hmem : Reply.mk .utc june (some ⟨20605, by decide⟩) (.ok first) ∈
      (eachMorning 1 rfl).replies [.next .utc may, .reset, .next .utc june] := by
    rw [← hfirst]
    exact List.mem_cons_of_mem _ List.mem_cons_self
  have hyielded : yielded ((eachMorning 1 rfl).schedulesAmid .utc [[], [.reset]] {} june) =
      [first, second] := by
    decide +kernel
  obtain ⟨hsorted, hsum⟩ := (hiterations {} .fresh .utc june hjune).1 _ _ hyielded.symm
  obtain ⟨hafter, hrest⟩ := List.pairwise_cons.mp hsorted
  have htotal := hsum 1 second rfl
  refine ⟨htimes, hjune, ⟨_, hmem, rfl, first, rfl, hreplies _ _ hmem hjune first rfl⟩, first,
    second, hyielded, hafter _ List.mem_cons_self, (List.pairwise_cons.mp hrest).1 _
    List.mem_cons_self, ?_⟩
  exact htotal

end Recurrence

end Almanac
