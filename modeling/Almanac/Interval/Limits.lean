import Almanac.Interval.Bound

/-!
# Limits of a domain

The values that intervals range over may be limited to those between two bounds. The limits are
an argument of every operation that depends on them; `Limits.unlimited` is the whole line.
-/

namespace Almanac

/-- The outermost bounds of a domain. -/
structure Limits (α : Type) where
  lowest : Bound α
  upmost : Bound α
deriving DecidableEq, Repr

namespace Limits

variable {α : Type}

def unlimited : Limits α := ⟨.bottom, .top⟩

instance : Inhabited (Limits α) := ⟨unlimited⟩

/-- Limits between a lower and an upper bound with room between them. -/
def ofBounds [Ord α] (lowest upmost : Bound α) : Except Fault (Limits α) :=
  if lowest.side ≠ .lower ∨ upmost.side ≠ .upper then .error .limitSides
  else if lowest.cutOrder upmost ≠ .lt then .error .limitOrder
  else .ok ⟨lowest, upmost⟩

end Limits

end Almanac
