/-!
# Policies for local readings

What becomes of an occurrence whose local reading clocks skip, and which instant is meant by a
reading that clocks show twice.
-/

namespace Almanac

/-- What to do with a reading that clocks jump over. -/
inductive SkippedPolicy
  /-- Move it forward by the size of the jump. -/
  | shift
  /-- Drop it. -/
  | skip
deriving DecidableEq, Repr, Inhabited

/-- Which instant a reading means that clocks show twice. -/
inductive RepeatedPolicy
  /-- The second, after clocks fell back. -/
  | standardTime
  /-- The first, before clocks fell back. -/
  | daylightTime
deriving DecidableEq, Repr, Inhabited

/-- Both policies of a recurrence. -/
structure Behavior where
  skipped : SkippedPolicy := .shift
  repeated : RepeatedPolicy := .standardTime
deriving DecidableEq, Repr, Inhabited

end Almanac
