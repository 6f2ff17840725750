import Almanac.Recurrence.Daily
import Almanac.Recurrence.Monthly
import Almanac.Recurrence.Period
import Almanac.Recurrence.Weekly

/-!
# Recurrences

A recurrence is a period or a calendar rule with its policies and perhaps a name. Asking it for
the next occurrence moves its state: the occurrence is remembered, and calendar rules keep a
cursor. When the present moment lies before the occurrence given last, the sequence is
discontinuous and the state starts afresh; that is no error. The configuration and the state are
separate values, so a copy of a recurrence is the recurrence with a fresh state.
-/

namespace Almanac

inductive RecurrenceKind
  | period (p : Period)
  | daily (d : Daily)
  | weekly (w : Weekly)
  | monthly (m : Monthly)
deriving DecidableEq, Repr

structure Recurrence where
  name : Option String := none
  behavior : Behavior := {}
  kind : RecurrenceKind
deriving DecidableEq, Repr

/-- What a recurrence remembers between two calls. -/
structure RecurrenceState where
  lastScheduled : Option Moment := none
  cursor : Cursor := {}
deriving Repr

instance : Inhabited RecurrenceState := ⟨{}⟩

/-- An occurrence and the length of time until it. -/
structure Schedule where
  occursOn : Moment
  due : Duration
deriving DecidableEq, Repr

inductive Occurrences
  | bounded (n : Nat)
  | unbounded
deriving DecidableEq, Repr

/-- A number that is not positive sets no bound; bounds have 32 bits. -/
def Occurrences.ofInt (n : Int) : Occurrences :=
  if n ≤ 0 then unbounded else bounded (min n.toNat 4294967295)

namespace Schedule

/-- The schedule of an occurrence, seen from the present moment. Its time is measured on the
universal timeline, so it includes every jump of the clock. -/
def ofMoment (occursOn now : Moment) : Schedule := ⟨occursOn, occursOn.since now⟩

/-- The occurrence, and the hours, minutes and seconds until it. -/
def text (s : Schedule) : String :=
  let seconds := s.due.seconds
  let minutes := Text.padded 2 ((seconds.tmod 3600).tdiv 60).natAbs
  let rest := Text.padded 2 (seconds.tmod 60).natAbs
  s.occursOn.rfc3339 ++ " (in " ++ Text.integerText (seconds.tdiv 3600) ++ "h" ++
    String.ofList minutes ++ "m" ++ String.ofList rest ++ "s)"

end Schedule

namespace RecurrenceKind

def text : RecurrenceKind → String
  | period p => p.text
  | daily d => d.text
  | weekly w => w.text
  | monthly m => m.text

end RecurrenceKind

/-- The answer to a call: its result, the state after it, and how often the state was started
afresh because the sequence was discontinuous. -/
structure Answer (α : Type) where
  result : α
  state : RecurrenceState
  resets : Nat

namespace Recurrence

def text (r : Recurrence) : String :=
  match r.name with
  | some name => name ++ ": " ++ r.kind.text
  | none => r.kind.text

/-- The next occurrence, and the cursor after the search. -/
def occurrence (r : Recurrence) (clock : LocalClock) (cursor : Cursor) (now : Moment) :
    Except Fault Moment × Cursor :=
  match r.kind with
  | .period p => (p.nextTime r.behavior clock now, cursor)
  | .daily d => cursor.nextOccurrence d.rule d.times r.behavior clock now
  | .weekly w => cursor.nextOccurrence w.rule w.times r.behavior clock now
  | .monthly m => cursor.nextOccurrence m.rule m.times r.behavior clock now

/-- The present moment lies before the occurrence given last. -/
def isDiscontinuous (state : RecurrenceState) (now : Moment) : Bool :=
  state.lastScheduled.any (now < ·)

/-- The next occurrence after the present moment. -/
def next (r : Recurrence) (clock : LocalClock) (state : RecurrenceState) (now : Moment) :
    Answer (Except Fault Schedule) :=
  let now := clock.showing now
  let broken := isDiscontinuous state now
  let state := if broken then {} else state
  let resets := if broken then 1 else 0
  match r.occurrence clock state.cursor now with
  | (.ok m, cursor) => ⟨.ok (Schedule.ofMoment m now), ⟨some m, cursor⟩, resets⟩
  | (.error fault, cursor) => ⟨.error fault, { state with cursor }, resets⟩

/-- Up to `bound` occurrences, each after the one before. The first fault ends the list. -/
def schedulesFrom (r : Recurrence) (clock : LocalClock) :
    Nat → RecurrenceState → Moment → Answer (List (Except Fault Schedule))
  | 0, state, _ => ⟨[], state, 0⟩
  | bound + 1, state, now =>
    let first := r.next clock state now
    match first.result with
    | .error fault => ⟨[.error fault], first.state, first.resets⟩
    | .ok s =>
      let rest := schedulesFrom r clock bound first.state s.occursOn
      ⟨.ok s :: rest.result, rest.state, first.resets + rest.resets⟩

/-- The first `take` of the wanted occurrences after the present moment. -/
def schedules (r : Recurrence) (clock : LocalClock) (state : RecurrenceState)
    (occurrences : Occurrences) (now : Moment) (take : Nat) :
    Answer (List (Except Fault Schedule)) :=
  let bound :=
    match occurrences with
    | .bounded n => min n take
    | .unbounded => take
  r.schedulesFrom clock bound state now

end Recurrence

end Almanac
