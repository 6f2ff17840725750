import Almanac.Interval.Limits

/-!
# Intervals

An interval lies between a lower and an upper bound. It is well-formed when its lower value does
not exceed its upper value and, if both are one value, the bounds have one direction; two
degenerate shapes remain, the singleton `[v, v]` and the empty `(v, v)`.
-/

namespace Almanac

/-- The values between two bounds. -/
structure Interval (α : Type) where
  lower : Bound α
  upper : Bound α
deriving DecidableEq, Repr

namespace Interval

variable {α : Type} [Ord α]

/-- What `ofBounds` accepts. -/
def WellFormed (i : Interval α) : Prop :=
  i.lower.Valid ∧ i.upper.Valid ∧ i.lower.side = .lower ∧ i.upper.side = .upper ∧
    (compare i.lower.value i.upper.value = .lt ∨
      (compare i.lower.value i.upper.value = .eq ∧ i.lower.direction = i.upper.direction))

/-- The interval between two bounds, if they are in order. -/
def ofBounds (lower upper : Bound α) : Except Fault (Interval α) :=
  if lower.side ≠ .lower ∨ upper.side ≠ .upper then .error .intervalSides
  else
    match compare lower.value upper.value with
    | .gt => .error .boundsReversed
    | .eq =>
      if lower.direction ≠ upper.direction then .error .boundsMixed else .ok ⟨lower, upper⟩
    | .lt => .ok ⟨lower, upper⟩

/-- The values from `a` to `b`: `[a, b]`. -/
def closed (a b : α) : Except Fault (Interval α) :=
  ofBounds (.lowerAt .inclusive a) (.upperAt .inclusive b)

/-- The values between `a` and `b`: `(a, b)`. -/
def opened (a b : α) : Except Fault (Interval α) :=
  ofBounds (.lowerAt .exclusive a) (.upperAt .exclusive b)

/-- The values from `a` on and before `b`: `[a, b)`. -/
def closedOpen (a b : α) : Except Fault (Interval α) :=
  ofBounds (.lowerAt .inclusive a) (.upperAt .exclusive b)

/-- The values after `a` and up to `b`: `(a, b]`. -/
def openClosed (a b : α) : Except Fault (Interval α) :=
  ofBounds (.lowerAt .exclusive a) (.upperAt .inclusive b)

omit [Ord α] in
/-- The interval of a single value: `[v, v]`. -/
def singleton (v : α) : Interval α := ⟨.lowerAt .inclusive v, .upperAt .inclusive v⟩

omit [Ord α] in
/-- The interval that contains nothing: `(v, v)`. -/
def empty (v : α) : Interval α := ⟨.lowerAt .exclusive v, .upperAt .exclusive v⟩

/-- Nothing lies between the bounds: the cuts are not in order. -/
def isEmpty (i : Interval α) : Bool := i.lower.cutOrder i.upper != .lt

/-- The interval is `[v, v]` for some value. -/
def isSingleton (i : Interval α) : Bool :=
  match i.lower.value, i.upper.value with
  | .finite a, .finite b => compare a b == .eq && i.lower.isInclusive && i.upper.isInclusive
  | _, _ => false

def contains (i : Interval α) (v : α) : Bool := i.lower.admits v && i.upper.admits v

/-- The values of both intervals. When there are none, the empty interval at the lower end of
where they would be, or at the upper end if only that is finite. -/
def intersection (a b : Interval α) : Interval α :=
  let lower := a.lower.max b.lower
  let upper := a.upper.min b.upper
  if lower.cutOrder upper = .lt then ⟨lower, upper⟩
  else
    match lower.value?.or upper.value? with
    | some v => empty v
    | none => ⟨lower, upper⟩

/-- The intervals have a value in common, or room for one. -/
def intersects (a b : Interval α) : Bool := !(a.intersection b).isEmpty

section Limited

variable (limits : Limits α)

omit [Ord α] in
def whole : Interval α := ⟨limits.lowest, limits.upmost⟩

omit [Ord α] in
def isWhole [DecidableEq α] (i : Interval α) : Bool := i = whole limits

/-- The part of an interval within the limits. -/
def clipped (i : Interval α) : Interval α := i.intersection (whole limits)

/-- The part of `[v, +inf)` within the limits. -/
def atLeast (v : α) : Interval α := clipped limits ⟨.lowerAt .inclusive v, limits.upmost⟩

/-- The part of `(v, +inf)` within the limits. -/
def greaterThan (v : α) : Interval α := clipped limits ⟨.lowerAt .exclusive v, limits.upmost⟩

/-- The part of `(-inf, v]` within the limits. -/
def atMost (v : α) : Interval α := clipped limits ⟨limits.lowest, .upperAt .inclusive v⟩

/-- The part of `(-inf, v)` within the limits. -/
def lessThan (v : α) : Interval α := clipped limits ⟨limits.lowest, .upperAt .exclusive v⟩

end Limited

end Interval

end Almanac
