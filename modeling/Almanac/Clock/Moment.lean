import Almanac.Clock.Reading

/-!
# Moments

A moment is a point of the universal timeline together with the offset of a local clock, in
seconds east of Greenwich. Moments are compared on the universal timeline alone.
-/

namespace Almanac

/-- An instant, by its universal reading, and the offset of the clock that shows it. -/
structure Moment where
  utc : Reading
  offset : Int
deriving DecidableEq, Repr, Inhabited

namespace Moment

/-- What the local clock shows. -/
def wall (m : Moment) : Wall := m.utc.toWall.shift m.offset

/-- The local reading, if its day belongs to the calendar. -/
def local? (m : Moment) : Option Reading := m.wall.reading?

/-- The moment that a local reading denotes at a known offset. -/
def ofLocal? (r : Reading) (offset : Int) : Option Moment :=
  (r.shift? (-offset)).map (⟨·, offset⟩)

instance : LT Moment := ⟨fun a b => a.utc < b.utc⟩

instance : LE Moment := ⟨fun a b => a.utc ≤ b.utc⟩

instance (a b : Moment) : Decidable (a < b) := inferInstanceAs (Decidable (a.utc < b.utc))

instance (a b : Moment) : Decidable (a ≤ b) := inferInstanceAs (Decidable (a.utc ≤ b.utc))

/-- The length of time from `b` to `a` on the universal timeline. -/
def since (a b : Moment) : Duration := a.utc.since b.utc

end Moment

end Almanac
