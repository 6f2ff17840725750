import Almanac.Proofs.Recurrence.Call
import Almanac.Proofs.Recurrence.Search

/-!
# The occurrences of a run

A run examines the readings of a recurrence one after the other and keeps those whose instants
exceed all instants before them: its occurrences are the records of a stretch of the walk. Which
calls the stretch is divided into plays no part, since every call goes on where the last one
stopped and compares with the occurrence that was found last.
-/

namespace Almanac

/-- The list goes from one reading up to another through a set of readings, in order and without
leaving any out. -/
inductive Traverses (readings : Set Reading) : Reading → List Reading → Reading → Prop
  | nil {p : Reading} : Traverses readings p [] p
  | cons {p r q : Reading} {visited : List Reading}
      (hnext : IsLeast {x ∈ readings | p < x} r) (htail : Traverses readings r visited q) :
      Traverses readings p (r :: visited) q

namespace Traverses

variable {readings : Set Reading} {p q s x : Reading} {visited further : List Reading}

theorem append (h : Traverses readings p visited q) (h' : Traverses readings q further s) :
    Traverses readings p (visited ++ further) s := by
  induction h with
  | nil => exact h'
  | cons hnext _ ih => exact .cons hnext (ih h')

theorem le (h : Traverses readings p visited q) : p ≤ q := by
  induction h with
  | nil => exact le_rfl
  | cons hnext _ ih => exact hnext.1.2.le.trans ih

/-- The list consists of all readings of the set in its stretch. -/
theorem mem_iff (h : Traverses readings p visited q) :
    x ∈ visited ↔ x ∈ readings ∧ p < x ∧ x ≤ q := by
  induction h with
  | nil =>
    refine iff_of_false List.not_mem_nil ?_
    intro hboth
    obtain ⟨-, hlt, hle⟩ := hboth
    exact not_le_of_gt hlt hle
  | @cons p r q visited hnext htail ih =>
    obtain ⟨⟨hr, hlt⟩, hleast⟩ := hnext
    rw [List.mem_cons, ih]
    constructor
    · intro hcase
      rcases hcase with rfl | ⟨hx, hrx, hxq⟩
      · exact ⟨hr, hlt, htail.le⟩
      · exact ⟨hx, hlt.trans hrx, hxq⟩
    · intro hboth
      obtain ⟨hx, hpx, hxq⟩ := hboth
      have hrx : r ≤ x := hleast ⟨hx, hpx⟩
      by_cases heq : x = r
      · exact Or.inl heq
      · exact Or.inr ⟨hx, lt_of_le_of_ne hrx (Ne.symm heq), hxq⟩

theorem sorted (h : Traverses readings p visited q) : visited.Pairwise (· < ·) := by
  induction h with
  | nil => exact .nil
  | cons _ htail ih => exact List.pairwise_cons.mpr ⟨fun x hx => (htail.mem_iff.mp hx).2.1, ih⟩

end Traverses

/-! ## Records -/

/-- The instants of candidates that lie after a moment and after all instants kept before. -/
def records (clock : LocalClock) (behavior : Behavior) (now : Moment) :
    List Reading → List Moment
  | [] => []
  | r :: rest =>
    match clock.candidate? behavior r with
    | some m => if now < m then m :: records clock behavior m rest
      else records clock behavior now rest
    | none => records clock behavior now rest

section Records

variable {clock : LocalClock} {behavior : Behavior} {now now' m : Moment} {r : Reading}
  {visited rest : List Reading}

/-- Only the instant of a moment matters. -/
theorem records_congr (h : now.utc = now'.utc) (visited : List Reading) :
    records clock behavior now visited = records clock behavior now' visited := by
  induction visited with
  | nil => rfl
  | cons r rest ih =>
    have hiff : ∀ m : Moment, now < m ↔ now' < m := by
      intro m
      change now.utc < m.utc ↔ now'.utc < m.utc
      rw [h]
    unfold records
    rw [ih]
    cases clock.candidate? behavior r with
    | none => rfl
    | some m => simp only [hiff]

theorem records_cons_of_lt (hr : clock.candidate? behavior r = some m) (hlt : now < m) :
    records clock behavior now (r :: rest) = m :: records clock behavior m rest := by
  simp only [records, hr, if_pos hlt]

theorem records_cons_of_not_lt (hr : ∀ m, clock.candidate? behavior r = some m → ¬now < m) :
    records clock behavior now (r :: rest) = records clock behavior now rest := by
  cases hcandidate : clock.candidate? behavior r with
  | none => simp only [records, hcandidate]
  | some m => simp only [records, hcandidate, if_neg (hr m hcandidate)]

end Records

/-- Readings that are dropped or do not lie after a moment add no record. -/
theorem records_append {clock : LocalClock} {behavior : Behavior} {now : Moment}
    {visited : List Reading} (h : NoneAfter clock behavior now visited) (rest : List Reading) :
    records clock behavior now (visited ++ rest) = records clock behavior now rest := by
  induction visited with
  | nil => rfl
  | cons r visited ih =>
    obtain ⟨hnot, hnone⟩ := noneAfter_cons.mp h
    rw [List.cons_append, records_cons_of_not_lt hnot]
    exact ih hnone

namespace Cursor

variable {rule : DateRule} {anchor : Date} {dates : Set Date} {times : TimesOfDay}
  {behavior : Behavior} {clock : LocalClock} {now m : Moment} {bound : Nat} {p : Reading}
  {visited : List Reading} {c c' : Cursor}

/-- The steps of a cursor traverse the readings. -/
theorem Passed.steps (hwalk : rule.WalksThrough anchor dates) (h : Passed dates times p c)
    (hsteps : Steps rule c visited c') :
    ∃ q, Traverses (readings dates times) p visited q ∧ Passed dates times q c' := by
  induction hsteps generalizing p with
  | nil => exact ⟨p, .nil, h⟩
  | cons hstep _ ih =>
    obtain ⟨hleast, hpassed⟩ := h.advance hwalk hstep
    obtain ⟨q, htraverses, hq⟩ := ih hpassed
    exact ⟨q, .cons hleast htraverses, hq⟩

/-- A search that succeeds has gone through readings of which its result is the only record. -/
theorem Passed.search_ok (hwalk : rule.WalksThrough anchor dates) (h : Passed dates times p c)
    (hsearch : search rule behavior clock now bound c = (.ok m, c')) :
    ∃ visited q, Traverses (readings dates times) p visited q ∧ Passed dates times q c' ∧
      ∀ rest, records clock behavior now (visited ++ rest) =
        m :: records clock behavior m rest := by
  obtain ⟨c₁, left, hsteps, hnone, -, hend⟩ := exists_steps_of_search hsearch
  obtain ⟨q, htraverses, hpassed⟩ := h.steps hwalk hsteps
  cases hend with
  | @found left r _ _ hstep hm hlt =>
    obtain ⟨hleast, hpassed'⟩ := hpassed.advance hwalk hstep
    refine ⟨_ ++ [r], r, htraverses.append (.cons hleast .nil), hpassed', fun rest => ?_⟩
    rw [List.append_assoc, records_append hnone]
    exact records_cons_of_lt hm hlt

theorem Passed.started (h : Passed dates times p c) :
    c.started rule times now = .ok c := by
  cases h <;> rfl

end Cursor

/-! ## Calls one after the other -/

namespace Recurrence

variable {r : Recurrence} {clock : LocalClock} {rule : DateRule} {anchor : Date}
  {dates : Set Date} {times : TimesOfDay} {state : RecurrenceState} {now : Moment}
  {p : Reading} {c : Cursor}

/-- The occurrences among the answers to some calls. -/
def occurrences (results : List (Except Fault Schedule)) : List Moment :=
  results.filterMap fun s => s.toOption.map (·.occursOn)

theorem result_schedulesFrom_of_error {fault : Fault} {k : Nat}
    (h : (r.next clock state now).result = .error fault) :
    (r.schedulesFrom clock (k + 1) state now).result = [.error fault] := by
  simp only [schedulesFrom, h]

theorem result_schedulesFrom_of_ok {s : Schedule} {k : Nat}
    (h : (r.next clock state now).result = .ok s) :
    (r.schedulesFrom clock (k + 1) state now).result =
      .ok s :: (r.schedulesFrom clock k (r.next clock state now).state s.occursOn).result := by
  simp only [schedulesFrom, h]

/-- Calls one after the other, each from the occurrence before, find the records of a stretch of
the readings. -/
theorem exists_traverses_schedulesFrom (hcalendar : r.kind.calendar? = some (rule, times))
    (hwalk : rule.WalksThrough anchor dates) (k : Nat)
    (hdiscontinuous : isDiscontinuous state (clock.showing now) = false)
    (hstarted : state.cursor.started rule times (clock.showing now) = .ok c)
    (hpassed : Cursor.Passed dates times p c) :
    ∃ visited q, Traverses (readings dates times) p visited q ∧
      occurrences (r.schedulesFrom clock k state now).result =
        records clock r.behavior now visited := by
  induction k generalizing state now p c with
  | zero => exact ⟨[], p, .nil, rfl⟩
  | succ k ih =>
    have hutc : (clock.showing now).utc = now.utc := rfl
    obtain ⟨result, c', hsearch⟩ : ∃ result c', Cursor.search rule r.behavior clock
        (clock.showing now) Cursor.maxCandidates c = (result, c') := ⟨_, _, rfl⟩
    have hoccurrence : r.occurrence clock (resumed clock state now).cursor (clock.showing now) =
        (result, c') := by
      rw [resumed_of_continuous hdiscontinuous, occurrence_of_calendar? hcalendar,
        Cursor.nextOccurrence, hstarted]
      exact hsearch
    cases result with
    | error fault =>
      rw [result_schedulesFrom_of_error (next_of_error hoccurrence).1]
      exact ⟨[], p, .nil, rfl⟩
    | ok m =>
      obtain ⟨hresult, hstate⟩ := next_of_ok hoccurrence
      rw [result_schedulesFrom_of_ok hresult, hstate]
      obtain ⟨visited, q, htraverses, hpassed', hrecords⟩ := hpassed.search_ok hwalk hsearch
      have hcontinuous := isDiscontinuous_showing_self clock m c'
      obtain ⟨further, s, htraverses', hfurther⟩ := ih hcontinuous hpassed'.started hpassed'
      refine ⟨visited ++ further, s, htraverses.append htraverses', ?_⟩
      rw [← records_congr hutc, hrecords, ← hfurther]
      rfl

end Recurrence

end Almanac
