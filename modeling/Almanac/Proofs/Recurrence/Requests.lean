import Almanac.Proofs.Recurrence.Started

/-!
# Requests one after the other

A recurrence serves calls, by any clocks and at any moments, and resets in between. Every call
that begins with a fresh cursor starts it, and the dates of the recurrence are counted from the
local date of that call until the cursor is fresh again. What a call finds is the instant of a
reading on one of these dates. One call keeps this up; so all calls do, whatever is requested
before them.
-/

namespace Almanac

/-- What a recurrence is asked for. -/
inductive Request
  /-- The next occurrence after a moment, by a clock. -/
  | next (clock : LocalClock) (now : Moment)
  /-- To forget its state. -/
  | reset

/-- The result of a call, with the date that the call counted from. -/
structure Reply where
  clock : LocalClock
  now : Moment
  anchor : Option Date
  result : Except Fault Schedule

namespace Recurrence

/-- The state after some requests. -/
def stateAfter (r : Recurrence) : RecurrenceState → List Request → RecurrenceState
  | state, [] => state
  | state, .next clock now :: requests => stateAfter r (r.next clock state now).state requests
  | _, .reset :: requests => stateAfter r {} requests

/-- The replies to the calls among some requests, of which the first one finds a state that has
counted from an anchor. -/
def repliesFrom (r : Recurrence) : Option Date → RecurrenceState → List Request → List Reply
  | _, _, [] => []
  | anchor, state, .next clock now :: requests =>
    let anchor := (resumed clock state now).cursor.anchorAt anchor (clock.showing now)
    ⟨clock, now, anchor, (r.next clock state now).result⟩ ::
      repliesFrom r anchor (r.next clock state now).state requests
  | _, _, .reset :: requests => repliesFrom r none {} requests

/-- The replies to the calls among some requests to a recurrence with a fresh state. -/
def replies (r : Recurrence) (requests : List Request) : List Reply :=
  r.repliesFrom none {} requests

variable {r : Recurrence} {clock : LocalClock} {rule : DateRule} {times : TimesOfDay}
  {dates : Date → Set Date} {anchor : Option Date} {state : RecurrenceState} {now : Moment}
  {requests : List Request} {reply : Reply} {s : Schedule}

/-- The first call finds a fresh state. -/
theorem exists_reply_to_first (r : Recurrence) (clock : LocalClock) (now : Moment)
    (requests : List Request) :
    ∃ reply ∈ r.replies (.next clock now :: requests), reply.clock = clock ∧ reply.now = now ∧
      reply.result = (r.next clock {} now).result :=
  ⟨_, List.mem_cons_self, rfl, rfl, rfl⟩

theorem Reachable.stateAfter (h : r.Reachable state) (requests : List Request) :
    r.Reachable (r.stateAfter state requests) := by
  induction requests generalizing state with
  | nil => exact h
  | cons request requests ih =>
    cases request with
    | next clock now => exact ih (.next clock now h)
    | reset => exact ih .fresh

/-- Every reply is the result of a call in a reachable state. -/
theorem Reachable.exists_of_mem_repliesFrom (h : r.Reachable state)
    (hreply : reply ∈ r.repliesFrom anchor state requests) :
    ∃ state', r.Reachable state' ∧ reply.result = (r.next reply.clock state' reply.now).result := by
  induction requests generalizing anchor state with
  | nil => cases hreply
  | cons request requests ih =>
    cases request with
    | next clock now =>
      rcases List.mem_cons.mp hreply with rfl | hreply
      · exact ⟨state, h, rfl⟩
      · exact ih (.next clock now h) hreply
    | reset => exact ih .fresh hreply

section Walk

variable (hcalendar : r.kind.calendar? = some (rule, times))
  (hwalk : ∀ a, rule.WalksThrough a (dates a))

include hcalendar hwalk

/-- What all calls find. -/
theorem exists_reading_of_mem_repliesFrom
    (h : Cursor.CountsFrom rule times dates anchor state.cursor)
    (hreply : reply ∈ r.repliesFrom anchor state requests) (hok : reply.result = .ok s) :
    ∃ a, reply.anchor = some a ∧ ∃ reading ∈ readings (dates a) times,
      reply.clock.candidate? r.behavior reading = some s.occursOn := by
  induction requests generalizing anchor state with
  | nil => cases hreply
  | cons request requests ih =>
    cases request with
    | next clock now =>
      obtain ⟨hcounts, hfound⟩ := countsFrom_next hcalendar hwalk h clock now
      rcases List.mem_cons.mp hreply with rfl | hreply
      · exact (hfound s hok).2
      · exact ih hcounts hreply
    | reset => exact ih (Or.inl rfl) hreply

end Walk

/-- The occurrences of a calendar recurrence are instants of its readings, counted from the date
of the latest start. -/
theorem exists_reading_of_mem_replies (hcalendar : r.kind.calendar? = some (rule, times))
    (hreply : reply ∈ r.replies requests) (hok : reply.result = .ok s) :
    ∃ a, reply.anchor = some a ∧ ∃ reading ∈ r.kind.readings a,
      reply.clock.candidate? r.behavior reading = some s.occursOn := by
  obtain ⟨dates, hdates⟩ := RecurrenceKind.exists_dates hcalendar
  obtain ⟨a, ha, reading, hreading, hcandidate⟩ := exists_reading_of_mem_repliesFrom hcalendar
    (fun a => (hdates a).1) (Or.inl rfl) hreply hok
  refine ⟨a, ha, reading, ?_, hcandidate⟩
  rw [(hdates a).2]
  exact hreading

end Recurrence

end Almanac
