import Almanac.Clock.Moment
import Almanac.Interval.Basic

/-!
# Transitions

A transition is a change of offset as it is seen from outside a zone: by asking for the offset
at one universal reading after another. Offsets are sampled once a day, and between two samples
that differ the change is narrowed down to a second. What lies between two equal samples is not
seen, and neither is a second change between two samples that differ.
-/

namespace Almanac

/-- A change of offset: the first reading found under the new offset, and both offsets. -/
structure Transition where
  utc : Reading
  before : Int
  after : Int
deriving DecidableEq, Repr

namespace Transition

/-- The jump of the clock in seconds, positive when clocks move forward. -/
def delta (t : Transition) : Int := t.after - t.before

def isForward (t : Transition) : Bool := 0 < t.delta

/-- The local reading at the transition under the old offset. -/
def localBefore (t : Transition) : Reading := t.utc.shift t.before

/-- The local reading at the transition under the new offset. -/
def localAfter (t : Transition) : Reading := t.utc.shift t.after

/-- The local readings that clocks skip, or show twice. -/
def window (t : Transition) : Interval Reading :=
  let (start, stop) :=
    if t.isForward then (t.localBefore, t.localAfter) else (t.localAfter, t.localBefore)
  match Interval.closedOpen start stop with
  | .ok i => i
  | .error _ => Interval.empty start

section Search

variable (offset : Reading → Int)

/-- The upper end of a stretch of at most a second across which the offset stops being `before`,
found by halving the stretch between two readings in whole seconds. -/
def narrow (before : Int) (lo hi : Reading) : Reading :=
  if Duration.ofSeconds 1 < hi.since lo then
    match lo.add? (Duration.ofSeconds (max ((hi.since lo).seconds / 2) 1)) with
    | none => hi
    | some mid =>
      if _inside : lo < mid ∧ mid < hi then
        if offset mid = before then narrow before mid hi else narrow before lo mid
      else hi
  else hi
termination_by (hi.key - lo.key).toNat
decreasing_by
  all_goals
    have h1 := Reading.lt_iff_key.mp _inside.1
    have h2 := Reading.lt_iff_key.mp _inside.2
    omega

/-- The transition between two readings whose offsets differ. -/
def between (lo hi : Reading) : Transition :=
  let utc := narrow offset (offset lo) lo hi
  ⟨utc, offset lo, offset utc⟩

/-- The sample after a reading: a day later, or at the end of the search. -/
def nextSample? (stop cursor : Reading) : Option Reading :=
  (cursor.add? (Duration.ofDays 1)).map (·.earlier stop)

/-- The transitions from a reading on to another, after those already found, the latest of which
comes first. -/
def gather (stop cursor : Reading) (found : List Transition) : List Transition :=
  if _below : cursor < stop then
    match nextSample? stop cursor with
    | none => found.reverse
    | some next =>
      if _ahead : cursor < next then
        gather stop next
          (if offset cursor = offset next then found else between offset cursor next :: found)
      else found.reverse
  else found.reverse
termination_by (stop.key - cursor.key).toNat
decreasing_by
  have h1 := Reading.lt_iff_key.mp _below
  have h2 := Reading.lt_iff_key.mp _ahead
  omega

/-- The transitions from one reading to another, in order. -/
def all (start stop : Reading) : List Transition := gather offset stop start []

end Search

end Transition

end Almanac
