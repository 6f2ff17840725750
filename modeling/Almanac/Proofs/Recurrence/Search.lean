import Almanac.Recurrence.Cursor

/-!
# What a search passes over

A search steps the cursor from reading to reading until a candidate lies after the moment. The
readings that it examines before are passed over: they are dropped or lie in the past. Neither
the steps nor the readings depend on the clock, so another search that also finds none of these
readings after its own moment comes to the same cursor.
-/

namespace Almanac

/-- No reading of the list means an instant after a moment. -/
def NoneAfter (clock : LocalClock) (behavior : Behavior) (now : Moment) (visited : List Reading) :
    Prop :=
  ∀ r ∈ visited, ∀ m, clock.candidate? behavior r = some m → ¬now < m

section NoneAfter

variable {clock : LocalClock} {behavior : Behavior} {now : Moment} {r : Reading}
  {visited : List Reading}

theorem noneAfter_nil : NoneAfter clock behavior now [] :=
  fun _ hr => (List.not_mem_nil hr).elim

theorem noneAfter_cons :
    NoneAfter clock behavior now (r :: visited) ↔
      (∀ m, clock.candidate? behavior r = some m → ¬now < m) ∧
        NoneAfter clock behavior now visited :=
  List.forall_mem_cons

instance : Decidable (NoneAfter clock behavior now visited) :=
  decidable_of_iff (∀ r ∈ visited, (clock.candidate? behavior r).all (¬now < ·) = true)
    (by simp [NoneAfter, Option.all_eq_true])

end NoneAfter

namespace Cursor

/-- A cursor that steps through some readings becomes another one. -/
inductive Steps (rule : DateRule) : Cursor → List Reading → Cursor → Prop
  | nil {c : Cursor} : Steps rule c [] c
  | cons {c c₁ c' : Cursor} {r : Reading} {visited : List Reading}
      (hstep : c.advance rule = (.ok r, c₁)) (htail : Steps rule c₁ visited c') :
      Steps rule c (r :: visited) c'

/-- The readings that a search examines in vain. -/
def passedOver (rule : DateRule) (behavior : Behavior) (clock : LocalClock) (now : Moment) :
    Nat → Cursor → List Reading
  | 0, _ => []
  | bound + 1, c =>
    match c.advance rule with
    | (.error _, _) => []
    | (.ok reading, c) =>
      match clock.candidate? behavior reading with
      | some m =>
        if now < m then [] else reading :: passedOver rule behavior clock now bound c
      | none => reading :: passedOver rule behavior clock now bound c

/-- How a search ends at a cursor: all candidates it may examine have been examined, the cursor
cannot step on, or the next candidate lies after the moment. -/
inductive SearchEnd (rule : DateRule) (behavior : Behavior) (clock : LocalClock) (now : Moment)
    (c : Cursor) : Nat → Except Fault Moment → Cursor → Prop
  | limit : SearchEnd rule behavior clock now c 0 (.error (.noOccurrence maxCandidates now)) c
  | fault {left : Nat} {fault : Fault} {c' : Cursor} (hstep : c.advance rule = (.error fault, c')) :
      SearchEnd rule behavior clock now c (left + 1) (.error fault) c'
  | found {left : Nat} {r : Reading} {m : Moment} {c' : Cursor}
      (hstep : c.advance rule = (.ok r, c')) (hm : clock.candidate? behavior r = some m)
      (hlt : now < m) : SearchEnd rule behavior clock now c (left + 1) (.ok m) c'

variable {rule : DateRule} {behavior : Behavior} {clock : LocalClock} {now m : Moment}
  {bound left : Nat} {c c₁ c' : Cursor} {r : Reading} {visited : List Reading} {fault : Fault}
  {result : Except Fault Moment}

/-! ## One candidate -/

theorem search_of_fault (hstep : c.advance rule = (.error fault, c')) :
    search rule behavior clock now (bound + 1) c = (.error fault, c') := by
  simp only [search, hstep]

theorem search_of_after (hstep : c.advance rule = (.ok r, c'))
    (hm : clock.candidate? behavior r = some m) (hlt : now < m) :
    search rule behavior clock now (bound + 1) c = (.ok m, c') := by
  simp only [search, hstep, hm, if_pos hlt]

/-- A search goes on when the candidate is dropped or does not lie after the moment. -/
theorem search_of_not_after (hstep : c.advance rule = (.ok r, c₁))
    (hnot : ∀ m, clock.candidate? behavior r = some m → ¬now < m) :
    search rule behavior clock now (bound + 1) c = search rule behavior clock now bound c₁ := by
  simp only [search, hstep]
  cases hcandidate : clock.candidate? behavior r with
  | none => rfl
  | some m => simp only [if_neg (hnot m hcandidate)]

theorem passedOver_of_fault (hstep : c.advance rule = (.error fault, c')) :
    passedOver rule behavior clock now (bound + 1) c = [] := by
  simp only [passedOver, hstep]

theorem passedOver_of_after (hstep : c.advance rule = (.ok r, c'))
    (hm : clock.candidate? behavior r = some m) (hlt : now < m) :
    passedOver rule behavior clock now (bound + 1) c = [] := by
  simp only [passedOver, hstep, hm, if_pos hlt]

theorem passedOver_of_not_after (hstep : c.advance rule = (.ok r, c₁))
    (hnot : ∀ m, clock.candidate? behavior r = some m → ¬now < m) :
    passedOver rule behavior clock now (bound + 1) c =
      r :: passedOver rule behavior clock now bound c₁ := by
  simp only [passedOver, hstep]
  cases hcandidate : clock.candidate? behavior r with
  | none => rfl
  | some m => simp only [if_neg (hnot m hcandidate)]

/-! ## A whole search -/

/-- A search steps through the readings that it passes over, none of which lies after the moment,
and ends. -/
theorem exists_steps_of_search (hsearch : search rule behavior clock now bound c = (result, c')) :
    ∃ c₁ left, Steps rule c (passedOver rule behavior clock now bound c) c₁ ∧
      NoneAfter clock behavior now (passedOver rule behavior clock now bound c) ∧
      (passedOver rule behavior clock now bound c).length + left = bound ∧
      SearchEnd rule behavior clock now c₁ left result c' := by
  induction bound generalizing c with
  | zero =>
    cases hsearch
    exact ⟨c', 0, .nil, noneAfter_nil, rfl, .limit⟩
  | succ bound ih =>
    obtain ⟨answer, c₁, hstep⟩ : ∃ answer c₁, c.advance rule = (answer, c₁) := ⟨_, _, rfl⟩
    cases answer with
    | error fault =>
      rw [search_of_fault hstep] at hsearch
      cases hsearch
      rw [passedOver_of_fault hstep]
      exact ⟨c, bound + 1, .nil, noneAfter_nil, Nat.zero_add _, .fault hstep⟩
    | ok r =>
      by_cases hafter : ∃ m, clock.candidate? behavior r = some m ∧ now < m
      · obtain ⟨m, hm, hlt⟩ := hafter
        rw [search_of_after hstep hm hlt] at hsearch
        cases hsearch
        rw [passedOver_of_after hstep hm hlt]
        exact ⟨c, bound + 1, .nil, noneAfter_nil, Nat.zero_add _, .found hstep hm hlt⟩
      · have hnot : ∀ m, clock.candidate? behavior r = some m → ¬now < m :=
          fun m hm hlt => hafter ⟨m, hm, hlt⟩
        rw [search_of_not_after hstep hnot] at hsearch
        rw [passedOver_of_not_after hstep hnot]
        obtain ⟨c₂, left, hsteps, hnone, hlength, hend⟩ := ih hsearch
        refine ⟨c₂, left, .cons hstep hsteps, noneAfter_cons.mpr ⟨hnot, hnone⟩, ?_, hend⟩
        rw [List.length_cons]
        omega

/-- A search that finds none of some readings after its moment steps through them. -/
theorem Steps.search_of_noneAfter (h : Steps rule c visited c')
    (hnone : NoneAfter clock behavior now visited) :
    search rule behavior clock now (visited.length + left) c =
      search rule behavior clock now left c' := by
  induction h with
  | nil => rw [List.length_nil, Nat.zero_add]
  | @cons c c₁ c' r visited hstep _ ih =>
    obtain ⟨hnot, hnone⟩ := noneAfter_cons.mp hnone
    rw [List.length_cons, Nat.add_right_comm, search_of_not_after hstep hnot]
    exact ih hnone

/-- A search that comes by a reading after its moment succeeds. -/
theorem Steps.exists_search_of_not_noneAfter (h : Steps rule c visited c')
    (hafter : ¬NoneAfter clock behavior now visited) (hbound : visited.length ≤ bound) :
    ∃ m c₁, search rule behavior clock now bound c = (.ok m, c₁) := by
  induction h generalizing bound with
  | nil => exact (hafter noneAfter_nil).elim
  | @cons c c₁ c' r visited hstep _ ih =>
    rw [List.length_cons] at hbound
    obtain ⟨bound, rfl⟩ : ∃ n, bound = n + 1 := ⟨bound - 1, by omega⟩
    by_cases hfound : ∃ m, clock.candidate? behavior r = some m ∧ now < m
    · obtain ⟨m, hm, hlt⟩ := hfound
      exact ⟨m, c₁, search_of_after hstep hm hlt⟩
    · have hnot : ∀ m, clock.candidate? behavior r = some m → ¬now < m :=
        fun m hm hlt => hfound ⟨m, hm, hlt⟩
      rw [search_of_not_after hstep hnot]
      exact ih (fun hnone => hafter (noneAfter_cons.mpr ⟨hnot, hnone⟩)) (by omega)

end Cursor

end Almanac
