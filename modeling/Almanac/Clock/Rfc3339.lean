import Almanac.Clock.Moment
import Almanac.Clock.Pattern

/-!
# Reading RFC 3339 instants

The form `2026-03-08T02:30:00.5-08:00`: every number has its full width, `T` may be small or a
blank, the fraction is optional and the offset is `Z` or a sign with hours and minutes, where
the sign may be the minus sign of typography.
-/

namespace Almanac

open Text

/-- Exactly `width` digits and what follows them. -/
def fixedNumber? (width : Nat) (cs : List Char) : Option (Nat × List Char) :=
  let run := cs.take width
  if run.length = width ∧ run.all Char.isDigit then some (valueOf run, cs.drop width) else none

/-- What follows a character, if the text starts with it. -/
def after? (c : Char) (cs : List Char) : Option (List Char) :=
  match cs with
  | d :: rest => if c = d then some rest else none
  | [] => none

namespace Moment

/-- An offset in seconds, and what follows it. -/
def readOffset? (cs : List Char) : Option (Int × List Char) :=
  match cs with
  | 'Z' :: rest | 'z' :: rest => some (0, rest)
  | sign :: rest => do
    let negative ←
      if sign = '+' then some false
      else if sign = '-' ∨ sign = '−' then some true
      else none
    let (hours, rest) ← fixedNumber? 2 rest
    let rest ← after? ':' rest
    let (minutes, rest) ← fixedNumber? 2 rest
    guard (minutes < 60)
    let size : Int := hours * 3600 + minutes * 60
    return (if negative then -size else size, rest)
  | [] => none

/-- The fraction of a second after its point, if there is one. -/
def readFraction? (cs : List Char) : Option (Nat × List Char) :=
  match cs with
  | '.' :: rest => (takeFraction rest).toOption
  | _ => some (0, cs)

def ofRfc3339? (cs : List Char) : Option Moment := do
  let (year, cs) ← fixedNumber? 4 cs
  let cs ← after? '-' cs
  let (month, cs) ← fixedNumber? 2 cs
  let cs ← after? '-' cs
  let (day, cs) ← fixedNumber? 2 cs
  let cs ← (after? 'T' cs).or ((after? 't' cs).or (after? ' ' cs))
  let (hour, cs) ← fixedNumber? 2 cs
  let cs ← after? ':' cs
  let (minute, cs) ← fixedNumber? 2 cs
  let cs ← after? ':' cs
  let (second, cs) ← fixedNumber? 2 cs
  let (nano, cs) ← readFraction? cs
  let (offset, cs) ← readOffset? cs
  guard cs.isEmpty
  guard (-86400 < offset ∧ offset < 86400)
  let parts : Parts := { year, month, day, hour, minute, second, nano }
  let reading ← parts.reading?
  ofLocal? reading offset

end Moment

end Almanac
