import Almanac.Interval.Basic

/-!
# Collections of intervals

A collection is a list of intervals, in any order and with any overlap. Its union is canonical:
the members within the limits are sorted and swept from left to right, and each run of members
that overlap or touch becomes one interval, or is split at every cut of its members. Complement
and difference are built on the union.
-/

namespace Almanac

/-- How finely a union is divided. -/
inductive Denominator
  /-- One interval for each run of members that overlap or touch. -/
  | highest
  /-- Each run is split at every bound of its members. -/
  | lowest
deriving DecidableEq, Repr

/-- Intervals whose values belong together. -/
abbrev Collection (α : Type) := List (Interval α)

namespace Collection

variable {α : Type} [Ord α]

def contains (c : Collection α) (v : α) : Bool := c.any (·.contains v)

/-- The values within the limits that all members contain. -/
def intersection (limits : Limits α) (c : Collection α) : Interval α :=
  c.foldl Interval.intersection (Interval.whole limits)

/-- The order of the sweep: by lower bound, then by upper bound. -/
def sweepOrder (a b : Interval α) : Ordering :=
  (compare a.lower b.lower).then (compare a.upper b.upper)

/-- The members within the limits, without the empty ones, in the order of the sweep. -/
def swept (limits : Limits α) (c : Collection α) : Collection α :=
  ((c.map (Interval.clipped limits)).filter (!·.isEmpty)).mergeSort
    (fun a b => sweepOrder a b != .gt)

/-- Members that overlap or touch: the first of them, the others and the upper bound that they
reach. -/
structure Run (α : Type) where
  first : Interval α
  others : List (Interval α)
  reach : Bound α
deriving Repr

namespace Run

omit [Ord α] in
def members (r : Run α) : List (Interval α) := r.first :: r.others

/-- The next member of the sweep overlaps or touches the run. -/
def joins (r : Run α) (i : Interval α) : Bool := i.lower.cutOrder r.reach != .gt

def add (r : Run α) (i : Interval α) : Run α :=
  { r with
    others := r.others ++ [i]
    reach := if compare i.upper r.reach = .gt then i.upper else r.reach }

end Run

/-- The runs of a sweep that has gathered one run so far. -/
def runsFrom (run : Run α) : List (Interval α) → List (Run α)
  | [] => [run]
  | i :: rest =>
    if run.joins i then runsFrom (run.add i) rest
    else run :: runsFrom ⟨i, [], i.upper⟩ rest

/-- The runs of intervals in the order of the sweep. -/
def runs : List (Interval α) → List (Run α)
  | [] => []
  | i :: rest => runsFrom ⟨i, [], i.upper⟩ rest

/-- Ordered bounds without those that repeat the cut before them. -/
def distinctCuts (last : Bound α) : List (Bound α) → List (Bound α)
  | [] => []
  | b :: rest =>
    if b.cutOrder last = .eq then distinctCuts last rest else b :: distinctCuts b rest

/-- The intervals between neighbouring bounds of a list. -/
def between : List (Bound α) → List (Interval α)
  | a :: b :: rest =>
    let piece := do
      let lower ← a.onSide? .lower
      let upper ← b.onSide? .upper
      (Interval.ofBounds lower upper).toOption
    piece.toList ++ between (b :: rest)
  | _ => []

/-- The members of a run split at every cut that one of them makes. -/
def Run.pieces (r : Run α) : List (Interval α) :=
  let cuts := (r.members.flatMap fun i => [i.lower, i.upper]).mergeSort
    (fun a b => a.cutOrder b != .gt)
  match cuts with
  | [] => []
  | first :: rest => between (first :: distinctCuts first rest)

def Run.merged (r : Run α) : List (Interval α) :=
  (Interval.ofBounds r.first.lower r.reach).toOption.toList

/-- The values of all members within the limits, as intervals from left to right. -/
def union (limits : Limits α) (d : Denominator) (c : Collection α) : Collection α :=
  (runs (swept limits c)).flatMap fun run =>
    match d with
    | .highest => run.merged
    | .lowest => run.pieces

/-- The gaps between intervals in order, of which the next one starts at a lower bound, or
nowhere when an interval has reached the upper infinity. -/
def gapsFrom (upmost : Bound α) : Option (Bound α) → List (Interval α) → List (Interval α)
  | none, [] => []
  | some start, [] =>
    if start.cutOrder upmost = .lt then (Interval.ofBounds start upmost).toOption.toList else []
  | none, i :: rest => gapsFrom upmost i.upper.reverse? rest
  | some start, i :: rest =>
    let gap :=
      if start.cutOrder i.lower = .lt then
        (i.lower.reverse?.bind fun stop => (Interval.ofBounds start stop).toOption).toList
      else []
    gap ++ gapsFrom upmost (i.upper.reverse?.map start.max) rest

/-- The values within the limits that no member contains. -/
def complement (limits : Limits α) (c : Collection α) : Collection α :=
  gapsFrom limits.upmost (some limits.lowest) (union limits .highest c)

end Collection

namespace Interval

variable {α : Type} [Ord α] (limits : Limits α)

def union (d : Denominator) (a b : Interval α) : Collection α :=
  Collection.union limits d [a, b]

def complement (i : Interval α) : Collection α := Collection.complement limits [i]

/-- The values of one interval that another does not contain. -/
def difference (a b : Interval α) : Collection α :=
  ((b.complement limits).map a.intersection).filter (!·.isEmpty)

end Interval

end Almanac
