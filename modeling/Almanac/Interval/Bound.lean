import Almanac.Fault

/-!
# Bounds

A bound closes an interval on one side. Its value is finite or one of the two infinities, which
are values of their own and no sentinels, and its direction says whether a finite value itself
belongs to the interval.

Bounds of both sides are compared by the *cut* that they make in the line of values: `[3` and
`3)` cut just before 3, `(3` and `3]` just after it.
-/

namespace Almanac

/-- The end of an interval that a bound closes. -/
inductive Side
  | lower
  | upper
deriving DecidableEq, Repr, Ord

/-- Whether the value at a bound is left out or belongs to the interval. -/
inductive Direction
  | exclusive
  | inclusive
deriving DecidableEq, Repr, Ord

/-- A value, or an infinity below or above all values. -/
inductive Extended (α : Type)
  | negInfinity
  | finite (v : α)
  | posInfinity
deriving DecidableEq, Repr

/-- One end of an interval. -/
structure Bound (α : Type) where
  side : Side
  direction : Direction
  value : Extended α
deriving DecidableEq, Repr

namespace Side

def reverse : Side → Side
  | lower => upper
  | upper => lower

end Side

namespace Direction

def reverse : Direction → Direction
  | exclusive => inclusive
  | inclusive => exclusive

end Direction

namespace Extended

variable {α : Type}

def isInfinite : Extended α → Bool
  | finite _ => false
  | _ => true

def toOption : Extended α → Option α
  | finite v => some v
  | _ => none

/-- The order of the extended line. -/
def order [Ord α] : Extended α → Extended α → Ordering
  | negInfinity, negInfinity => .eq
  | negInfinity, _ => .lt
  | finite _, negInfinity => .gt
  | finite a, finite b => compare a b
  | finite _, posInfinity => .lt
  | posInfinity, posInfinity => .eq
  | posInfinity, _ => .gt

instance [Ord α] : Ord (Extended α) := ⟨order⟩

end Extended

namespace Bound

variable {α : Type}

def lowerAt (direction : Direction) (v : α) : Bound α := ⟨.lower, direction, .finite v⟩

def upperAt (direction : Direction) (v : α) : Bound α := ⟨.upper, direction, .finite v⟩

def bottom : Bound α := ⟨.lower, .exclusive, .negInfinity⟩

def top : Bound α := ⟨.upper, .exclusive, .posInfinity⟩

/-- A bound that describes an end: an infinite one is open and lies on its own side. -/
def Valid (b : Bound α) : Prop :=
  match b.value, b.side with
  | .finite _, _ => True
  | .negInfinity, .lower => b.direction = .exclusive
  | .posInfinity, .upper => b.direction = .exclusive
  | _, _ => False

/-- The bound with the given parts, if they describe an end. -/
def ofParts (side : Side) (direction : Direction) (value : Extended α) :
    Except Fault (Bound α) :=
  if value.isInfinite ∧ direction = .inclusive then .error .closedInfinity
  else
    match side, value with
    | .lower, .posInfinity => .error .lowerAtTop
    | .upper, .negInfinity => .error .upperAtBottom
    | _, _ => .ok ⟨side, direction, value⟩

def isInfinite (b : Bound α) : Bool := b.value.isInfinite

def value? (b : Bound α) : Option α := b.value.toOption

def isExclusive (b : Bound α) : Bool := b.direction == .exclusive

def isInclusive (b : Bound α) : Bool := b.direction == .inclusive

/-- The bound cuts just after its value, and not just before it. -/
def cutsAfter (b : Bound α) : Bool :=
  match b.side, b.direction with
  | .lower, .inclusive | .upper, .exclusive => false
  | .lower, .exclusive | .upper, .inclusive => true

/-- The bound of the other side at the same cut. Infinite bounds have none. -/
def reverse? (b : Bound α) : Option (Bound α) :=
  match b.value with
  | .finite v => some ⟨b.side.reverse, b.direction.reverse, .finite v⟩
  | _ => none

/-- The bound of a side at the same cut. -/
def onSide? (side : Side) (b : Bound α) : Option (Bound α) :=
  if b.side = side then some b else b.reverse?

variable [Ord α]

/-- The order of the cuts. -/
def cutOrder (a b : Bound α) : Ordering :=
  (compare a.value b.value).then <|
    match a.value, b.value with
    | .finite _, .finite _ => compare a.cutsAfter b.cutsAfter
    | _, _ => .eq

/-- Bounds are ordered by cut, then by side and direction. -/
instance : Ord (Bound α) :=
  ⟨fun a b =>
    (cutOrder a b).then ((compare a.side b.side).then (compare a.direction b.direction))⟩

/-- The lower of two bounds; the first of two equal ones. -/
def min (a b : Bound α) : Bound α := if compare a b = .gt then b else a

/-- The upper of two bounds; the second of two equal ones. -/
def max (a b : Bound α) : Bound α := if compare a b = .gt then a else b

/-- A value lies on the inner side of the bound. -/
def admits (b : Bound α) (v : α) : Bool :=
  match b.value, b.side with
  | .finite w, .lower =>
    match compare v w with
    | .gt => true
    | .eq => b.isInclusive
    | .lt => false
  | .finite w, .upper =>
    match compare v w with
    | .lt => true
    | .eq => b.isInclusive
    | .gt => false
  | _, _ => true

end Bound

end Almanac
