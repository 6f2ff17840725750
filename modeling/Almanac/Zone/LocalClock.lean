import Almanac.Zone.Policy
import Almanac.Zone.Table
import Almanac.Zone.Transition
import Almanac.Text.Blank

/-!
# Local clocks

A local clock is a zone under an identifier. It says which local readings exist, turns readings
into instants and instants into readings, and finds the transitions of a year.
-/

namespace Almanac

open Text

/-- A zone with the identifier it is known by. The clock of the host has no zone of the table. -/
structure LocalClock where
  id : String
  zone : Zone
  isNamed : Bool := true
deriving DecidableEq, Repr, Inhabited

/-- The stretch of a year in which daylight time holds, by the local readings at which it starts
and ends, and the jump at the start in seconds. -/
structure DaylightTime where
  start : Reading
  stop : Reading
  delta : Int
deriving DecidableEq, Repr

namespace LocalClock

def utc : LocalClock := { id := "UTC", zone := Zone.Table.utc }

/-- The clock of the host, which shows universal time. -/
def host : LocalClock := { id := "local", zone := Zone.Table.utc, isNamed := false }

def ofId (id : String) : Except Fault LocalClock :=
  let name := trimmed id
  if name.isEmpty then .error .emptyZoneId
  else
    match Zone.find? name with
    | some zone => .ok { id := name, zone }
    | none => .error (.unknownZone name)

/-- The clock of a zone of the table, or the one of the host. -/
def ofIdOrHost (id : String) : LocalClock :=
  match ofId id with
  | .ok c => c
  | .error _ => host

variable (c : LocalClock)

def offsetAt (utc : Reading) : Int := c.zone.offsetAt utc.seconds

/-- The offsets under which the clock shows a local reading. -/
def offsetsOf (r : Reading) : LocalOffsets := c.zone.localOffsets r.seconds

def isSkipped (r : Reading) : Bool :=
  match c.offsetsOf r with
  | .skipped => true
  | _ => false

def isRepeated (r : Reading) : Bool :=
  match c.offsetsOf r with
  | .repeated .. => true
  | _ => false

def ofUtc (utc : Reading) : Moment := ⟨utc, c.offsetAt utc⟩

/-- An instant as this clock shows it. -/
def showing (m : Moment) : Moment := c.ofUtc m.utc

/-- The moment that a local reading means. -/
def resolve? (r : Reading) (policy : RepeatedPolicy) : Option Moment :=
  match c.offsetsOf r, policy with
  | .skipped, _ => none
  | .single offset, _ => Moment.ofLocal? r offset
  | .repeated earlier _, .daylightTime => Moment.ofLocal? r earlier
  | .repeated _ later, .standardTime => Moment.ofLocal? r later

/-- The universal reading that a local reading means, the later of two. -/
def toUtc (r : Reading) : Except Fault Reading :=
  match c.resolve? r .standardTime with
  | some m => .ok m.utc
  | none => .error (.skippedReading r c.id)

def transitionsBetween (start stop : Reading) : List Transition :=
  Transition.all c.offsetAt start stop

/-- The first transition in one direction, at most two days from a local reading, whose window
holds the reading. -/
def windowAround? (r : Reading) (forward : Bool) : Option (Transition × Interval Reading) := do
  let start ← r.add? (Duration.ofDays (-2))
  let stop ← r.add? (Duration.ofDays 2)
  let ts := (c.transitionsBetween start stop).filter (·.isForward == forward)
  let t ← ts.find? (·.window.contains r)
  return (t, t.window)

/-- The transition that skips a local reading, with the readings it skips. -/
def gap? (r : Reading) : Option (Transition × Interval Reading) := c.windowAround? r true

/-- The transition that repeats a local reading, with the readings it repeats. -/
def overlap? (r : Reading) : Option (Transition × Interval Reading) := c.windowAround? r false

/-- The moment that a reading means, where a skipped one is taken under the offset before the
transition; the clock then shows it later by the size of the jump. -/
def shiftSkipped? (r : Reading) : Option Moment :=
  match c.gap? r with
  | some (t, _) => (r.shift? (-t.before)).map c.ofUtc
  | none => c.resolve? r .standardTime

/-- The transitions whose local reading under the old offset falls in a year. The search goes a
few days beyond both ends of the year, since universal time may be in another one. -/
def transitionsOf (year : Int) : List Transition :=
  match Date.ofYearMonthDay? (year - 1) 12 30, Date.ofYearMonthDay? (year + 1) 1 3 with
  | some start, some stop =>
    (c.transitionsBetween (.ofDate start) (.ofDate stop)).filter fun t =>
      t.localBefore.date.year == year
  | _, _ => []

/-- The daylight time of a year: from its first transition forward to its first one back. -/
def daylightTime? (year : Int) : Option DaylightTime := do
  let ts := c.transitionsOf year
  let start ← ts.find? (·.isForward)
  let stop ← ts.find? (!·.isForward)
  return ⟨start.localBefore, stop.localBefore, start.delta⟩

end LocalClock

namespace DaylightTime

/-- The jump in minutes, with its sign. -/
def deltaText (delta : Int) : String :=
  let minutes := delta.tdiv 60
  if minutes < 0 then integerText minutes else "+" ++ integerText minutes

/-- Start, end and jump. -/
def text (d : DaylightTime) : String :=
  d.start.text ++ " -> " ++ d.stop.text ++ " (" ++ deltaText d.delta ++ " min)"

end DaylightTime

end Almanac
