import Almanac.Recurrence.Basic

/-!
# Recurrences in documents

The document form of a recurrence is one object: its name and behavior, the word `type` and the
members of that type. Name and behavior are decoded as they are met. All other members are kept
until the type is known and are then decoded in their order, so a fault of the behavior is found
before any fault of theirs.
-/

namespace Almanac

namespace SkippedPolicy

def name : SkippedPolicy → String
  | shift => "shift"
  | skip => "skip"

def decode : Decoder SkippedPolicy :=
  Decoder.word [("shift", shift), ("skip", skip)] Json.isNull

end SkippedPolicy

namespace RepeatedPolicy

def name : RepeatedPolicy → String
  | standardTime => "standard_time"
  | daylightTime => "daylight_time"

def decode : Decoder RepeatedPolicy :=
  Decoder.word [("standard_time", standardTime), ("daylight_time", daylightTime)] Json.isNull

end RepeatedPolicy

namespace Behavior

def toJson (b : Behavior) : Json :=
  .object [("invalid_time", .string b.skipped.name), ("ambiguous_time", .string b.repeated.name)]

structure Draft where
  skipped : Option SkippedPolicy := none
  repeated : Option RepeatedPolicy := none

def Draft.add (draft : Draft) (entry : String × Json) : Except DecodeFault Draft := do
  match entry with
  | ("invalid_time", j) =>
    return { draft with skipped := ← Decoder.member draft.skipped SkippedPolicy.decode j }
  | ("ambiguous_time", j) =>
    return { draft with repeated := ← Decoder.member draft.repeated RepeatedPolicy.decode j }
  | (_, j) =>
    Decoder.ignored j
    return draft

/-- A behavior; the policies that are missing are the usual ones. -/
def decode : Decoder Behavior
  | .object members => do
    let draft ← members.foldlM Draft.add {}
    return ⟨draft.skipped.getD .shift, draft.repeated.getD .standardTime⟩
  | .array [] => .ok {}
  | .array [skipped] => return { skipped := ← SkippedPolicy.decode skipped }
  | .array [skipped, repeated] =>
    return ⟨← SkippedPolicy.decode skipped, ← RepeatedPolicy.decode repeated⟩
  | _ => .error .shape

end Behavior

namespace Period

/-- A whole number of seconds is given in seconds. -/
def members (p : Period) : List (String × Json) :=
  if p.isWholeSeconds then [("period_secs", .integer (p.milliseconds / 1000))]
  else [("period_ms", .integer p.milliseconds)]

structure Draft where
  seconds : Option (Option Int) := none
  milliseconds : Option (Option Int) := none

/-- An optional integer of 64 bits. -/
def decodeUnits : Decoder (Option Int) :=
  Decoder.optional (Decoder.integer (-9223372036854775808) 9223372036854775807)

def Draft.add (draft : Draft) (entry : String × Json) : Except DecodeFault Draft := do
  match entry with
  | ("period_secs", j) =>
    return { draft with seconds := ← Decoder.member draft.seconds decodeUnits j }
  | ("period_ms", j) =>
    return { draft with milliseconds := ← Decoder.member draft.milliseconds decodeUnits j }
  | _ => return draft

def ofMembers (members : List (String × Json)) : Except DecodeFault Period := do
  let draft ← members.foldlM Draft.add {}
  checked (ofUnits (draft.seconds.getD none) (draft.milliseconds.getD none))

end Period

namespace Daily

def members (d : Daily) : List (String × Json) :=
  ("times_of_day", d.times.toJson) ::
    match d.selection with
    | .everyDays n => [("days", .integer n.toNat)]
    | .weekDays days => [("week_days", days.toJson)]

structure Draft where
  times : Option TimesOfDay := none
  days : Option (Option Nat) := none
  weekDays : Option (Option WeekDays) := none

def Draft.add (draft : Draft) (entry : String × Json) : Except DecodeFault Draft := do
  match entry with
  | ("times_of_day", j) =>
    return { draft with times := ← Decoder.member draft.times TimesOfDay.decode j }
  | ("days", j) =>
    return { draft with days := ← Decoder.member draft.days (Decoder.optional Decoder.count) j }
  | ("week_days", j) =>
    let weekDays ← Decoder.member draft.weekDays (Decoder.optional WeekDays.decode) j
    return { draft with weekDays }
  | _ => return draft

/-- Every day, unless a day count or days of the week are given, but not both. -/
def selectionOf (days : Option Nat) (weekDays : Option WeekDays) : Except Fault DailySelection :=
  match days, weekDays with
  | some n, none => .ok (.everyDays (UInt32.ofNat n))
  | none, some s => .ok (.weekDays s)
  | none, none => .ok (.everyDays 1)
  | some _, some _ => .error .dailySelection

def ofMembers (members : List (String × Json)) : Except DecodeFault Daily := do
  let draft ← members.foldlM Draft.add {}
  let times ← Decoder.require draft.times
  let selection ← checked (selectionOf (draft.days.getD none) (draft.weekDays.getD none))
  checked (ofParts times selection)

end Daily

namespace Weekly

def members (w : Weekly) : List (String × Json) :=
  [("times_of_day", w.times.toJson), ("weeks", .integer w.weeks.toNat),
    ("week_days", w.weekDays.toJson)]

structure Draft where
  times : Option TimesOfDay := none
  weeks : Option Nat := none
  weekDays : Option WeekDays := none

def Draft.add (draft : Draft) (entry : String × Json) : Except DecodeFault Draft := do
  match entry with
  | ("times_of_day", j) =>
    return { draft with times := ← Decoder.member draft.times TimesOfDay.decode j }
  | ("weeks", j) => return { draft with weeks := ← Decoder.member draft.weeks Decoder.count j }
  | ("week_days", j) =>
    return { draft with weekDays := ← Decoder.member draft.weekDays WeekDays.decode j }
  | _ => return draft

def ofMembers (members : List (String × Json)) : Except DecodeFault Weekly := do
  let draft ← members.foldlM Draft.add {}
  let times ← Decoder.require draft.times
  let weekDays ← Decoder.require draft.weekDays
  checked (ofParts times (UInt32.ofNat (draft.weeks.getD 1)) weekDays)

end Weekly

namespace WeekPosition

def decode : Decoder WeekPosition :=
  Decoder.word
    [("first", first), ("second", second), ("third", third), ("fourth", fourth), ("last", last)]
    Json.isBare

end WeekPosition

namespace WeekDaysOfMonth

def toJson (w : WeekDaysOfMonth) : Json :=
  .object [("position", .string w.position.name), ("week_days", w.weekDays.toJson),
    ("any_week_days", .bool w.any)]

structure Draft where
  position : Option WeekPosition := none
  weekDays : Option WeekDays := none
  any : Option Bool := none

def Draft.add (draft : Draft) (entry : String × Json) : Except DecodeFault Draft := do
  match entry with
  | ("position", j) =>
    return { draft with position := ← Decoder.member draft.position WeekPosition.decode j }
  | ("week_days", j) =>
    return { draft with weekDays := ← Decoder.member draft.weekDays WeekDays.decode j }
  | ("any_week_days", j) =>
    return { draft with any := ← Decoder.member draft.any Decoder.bool j }
  | _ => return draft

/-- Days of the week at a position; an array gives the parts in order. -/
def decode : Decoder WeekDaysOfMonth
  | .object members => do
    let draft ← members.foldlM Draft.add {}
    let position ← Decoder.require draft.position
    let weekDays ← Decoder.require draft.weekDays
    return ⟨position, weekDays, draft.any.getD false⟩
  | .array [position, weekDays] =>
    return ⟨← WeekPosition.decode position, ← WeekDays.decode weekDays, false⟩
  | .array [position, weekDays, any] =>
    return ⟨← WeekPosition.decode position, ← WeekDays.decode weekDays, ← Decoder.bool any⟩
  | _ => .error .shape

end WeekDaysOfMonth

namespace Monthly

def members (m : Monthly) : List (String × Json) :=
  let selection :=
    match m.selection with
    | .dayOfMonth day => ("day_of_month", .integer day)
    | .weekDaysOfMonth w => ("week_days_of_month", w.toJson)
  [("times_of_day", m.times.toJson), selection, ("months", m.months.toJson)]

structure Draft where
  times : Option TimesOfDay := none
  day : Option (Option Nat) := none
  weekDays : Option (Option WeekDaysOfMonth) := none
  months : Option Months := none

def Draft.add (draft : Draft) (entry : String × Json) : Except DecodeFault Draft := do
  match entry with
  | ("times_of_day", j) =>
    return { draft with times := ← Decoder.member draft.times TimesOfDay.decode j }
  | ("day_of_month", j) =>
    return { draft with day := ← Decoder.member draft.day (Decoder.optional Decoder.count) j }
  | ("week_days_of_month", j) =>
    let weekDays ← Decoder.member draft.weekDays (Decoder.optional WeekDaysOfMonth.decode) j
    return { draft with weekDays }
  | ("months", j) => return { draft with months := ← Decoder.member draft.months Months.decode j }
  | _ => return draft

/-- A day of the month or days of the week. -/
def selectionOf (day : Option Nat) (weekDays : Option WeekDaysOfMonth) :
    Except Fault MonthlySelection :=
  match day, weekDays with
  | some day, none => .ok (.dayOfMonth day)
  | none, some w => .ok (.weekDaysOfMonth w)
  | _, _ => .error .monthlySelection

def ofMembers (members : List (String × Json)) : Except DecodeFault Monthly := do
  let draft ← members.foldlM Draft.add {}
  let times ← Decoder.require draft.times
  let selection ← checked (selectionOf (draft.day.getD none) (draft.weekDays.getD none))
  checked (ofParts times selection (draft.months.getD .all))

end Monthly

inductive RecurrenceType
  | period
  | daily
  | weekly
  | monthly
deriving DecidableEq, Repr

namespace RecurrenceType

def name : RecurrenceType → String
  | period => "period"
  | daily => "daily"
  | weekly => "weekly"
  | monthly => "monthly"

/-- A type by its name, or by its place in the list of types. -/
def decode : Decoder RecurrenceType
  | .string "period" | .integer 0 => .ok period
  | .string "daily" | .integer 1 => .ok daily
  | .string "weekly" | .integer 2 => .ok weekly
  | .string "monthly" | .integer 3 => .ok monthly
  | _ => .error .shape

end RecurrenceType

namespace RecurrenceKind

def members : RecurrenceKind → List (String × Json)
  | period p => ("type", .string "period") :: p.members
  | daily d => ("type", .string "daily") :: d.members
  | weekly w => ("type", .string "weekly") :: w.members
  | monthly m => ("type", .string "monthly") :: m.members

/-- The type among some members, which must be given once, met so far. -/
def findType (found : Option RecurrenceType) (entry : String × Json) :
    Except DecodeFault (Option RecurrenceType) :=
  match entry with
  | ("type", j) => Decoder.member found RecurrenceType.decode j
  | _ => .ok found

/-- A recurrence of the type that the members give. -/
def ofMembers (members : List (String × Json)) : Except DecodeFault RecurrenceKind := do
  let type ← Decoder.require (← members.foldlM findType none)
  let parts := members.filter (·.1 != "type")
  match type with
  | .period => return period (← Period.ofMembers parts)
  | .daily => return daily (← Daily.ofMembers parts)
  | .weekly => return weekly (← Weekly.ofMembers parts)
  | .monthly => return monthly (← Monthly.ofMembers parts)

end RecurrenceKind

namespace Recurrence

/-- How deep the parts of a recurrence may nest. -/
def maxDepth : Nat := 126

def toJson (r : Recurrence) : Json :=
  let name :=
    match r.name with
    | some name => [("name", .string name)]
    | none => []
  .object (name ++ ("behavior", r.behavior.toJson) :: r.kind.members)

/-- The members of a recurrence met so far; the members of its kind come last first. -/
structure Draft where
  name : Option (Option String) := none
  behavior : Option Behavior := none
  kept : List (String × Json) := []

def Draft.add (draft : Draft) (entry : String × Json) : Except DecodeFault Draft := do
  match entry with
  | ("name", j) =>
    let name ← Decoder.member draft.name (Decoder.optional Decoder.string) j
    return { draft with name }
  | ("behavior", j) =>
    return { draft with behavior := ← Decoder.member draft.behavior Behavior.decode j }
  | (_, j) =>
    if j.isStorable maxDepth then return { draft with kept := entry :: draft.kept }
    else throw .shape

def decode : Decoder Recurrence
  | .object members => do
    let draft ← members.foldlM Draft.add {}
    let kind ← RecurrenceKind.ofMembers draft.kept.reverse
    return { name := draft.name.getD none, behavior := draft.behavior.getD {}, kind }
  | _ => .error .shape

end Recurrence

end Almanac
