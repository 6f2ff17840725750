import Almanac.Document.Decode
import Almanac.Zone.LocalClock

/-!
# Periods

A period recurrence adds a fixed length of time to the local reading of the present moment: the
next occurrence reads that much later on the local clock. Where clocks skip or repeat that
reading, the policies decide; an occurrence that would not lie after the present is counted in
elapsed time instead.
-/

namespace Almanac

/-- A positive whole number of milliseconds, as long as durations go. -/
structure Period where
  milliseconds : Int
  pos : 0 < milliseconds
  le_max : milliseconds ≤ 9223372036854775807
deriving DecidableEq, Repr

namespace Period

def duration (p : Period) : Duration := Duration.ofMilliseconds p.milliseconds

def ofDuration (d : Duration) : Except Fault Period :=
  if d.nanos ≤ 0 then .error (.periodNotPositive d)
  else if d.nanos % 1000000 ≠ 0 then .error (.periodNotWhole d)
  else if h : 0 < d.nanos / 1000000 ∧ d.nanos / 1000000 ≤ 9223372036854775807 then
    .ok ⟨d.nanos / 1000000, h.1, h.2⟩
  else .error .periodRange

/-- The period given in seconds or in milliseconds, but not in both. -/
def ofUnits (seconds milliseconds : Option Int) : Except Fault Period := do
  let d ←
    match seconds, milliseconds with
    | some s, none => pure (Duration.ofSeconds? s)
    | none, some ms => pure (Duration.ofMilliseconds? ms)
    | _, _ => throw .periodUnits
  match d with
  | some d => ofDuration d
  | none => throw .periodRange

def isWholeSeconds (p : Period) : Bool := p.milliseconds % 1000 = 0

/-- The period in the largest unit of which it is a whole number. -/
def text (p : Period) : String :=
  if !p.isWholeSeconds then "every " ++ Text.integerText p.milliseconds ++ "ms"
  else
    let s := p.milliseconds / 1000
    if s % 86400 = 0 then "every " ++ Text.integerText (s / 86400) ++ "d"
    else if s % 3600 = 0 then "every " ++ Text.integerText (s / 3600) ++ "h"
    else if s % 60 = 0 then "every " ++ Text.integerText (s / 60) ++ "m"
    else "every " ++ Text.integerText s ++ "s"

/-- The first reading a whole number of periods after `start`, from `steps` on, that a gap does
not hold. Each step moves by a millisecond at least, which bounds their number. -/
def clearFrom (p : Period) (gap : Interval Reading) (start : Reading) :
    Nat → Int → Reading → Except Fault Reading
  | 0, _, candidate => .ok candidate
  | bound + 1, steps, candidate =>
    if gap.contains candidate then
      match (Duration.ofMilliseconds? (steps * p.milliseconds)).bind start.add? with
      | some next => clearFrom p gap start bound (steps + 1) next
      | none => .error (.periodSteps start steps)
    else .ok candidate

/-- The first reading a whole number of periods after `start` beyond the gap that holds
`candidate`. -/
def clearGap (p : Period) (clock : LocalClock) (start candidate : Reading) :
    Except Fault Reading :=
  match clock.gap? candidate with
  | none => .ok candidate
  | some (_, gap) =>
    match gap.upper.value? with
    | none => .ok candidate
    | some stop =>
      let distance := (stop.since start).milliseconds
      let steps := (distance + p.milliseconds - 1).tdiv p.milliseconds
      clearFrom p gap start (distance.toNat + 2000) steps candidate

/-- The occurrence after the present moment. The moment is read on the local clock first, which
panics if the calendar does not reach this reading. -/
def nextTime (p : Period) (behavior : Behavior) (clock : LocalClock) (now : Moment) :
    Except Fault Moment := do
  let some start := now.local? | throw (.panic .localReading)
  let some candidate := start.add? p.duration | throw (.momentSum now p.duration)
  let elapsed : Except Fault Moment :=
    match now.utc.add? p.duration with
    | some utc => .ok (clock.ofUtc utc)
    | none => .error (.momentSum now p.duration)
  let resolved ←
    if clock.isSkipped candidate then
      match behavior.skipped with
      | .shift => pure (clock.shiftSkipped? candidate)
      | .skip => do
        let cleared ← p.clearGap clock start candidate
        pure (clock.resolve? cleared behavior.repeated)
    else if clock.isRepeated candidate ∧ behavior.repeated = .daylightTime then
      elapsed.map some
    else pure (clock.resolve? candidate behavior.repeated)
  match resolved with
  | some next => if now < next then return next else elapsed
  | none => elapsed

end Period

end Almanac
