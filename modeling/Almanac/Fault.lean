import Almanac.Clock.Text
import Almanac.Text.ReadFault

/-!
# Faults

Why an operation of the library gives no result. Each constructor of `Fault` is one cause;
`Fault.category` groups the causes and `Fault.message` words them. An operation that has met a
cause returns it as an error, unless the cause is a panic: then it does not return at all.
-/

namespace Almanac

open Text

/-- What kind of value was refused, or which operation had no result. -/
inductive FaultCategory
  | bound
  | interval
  | flag
  | recurrence
  | zone
  | timeOfDay
  | localTime
  | range
  | text
deriving DecidableEq, Repr

/-- How a message of the category starts. -/
def FaultCategory.heading : FaultCategory → String
  | bound => "Invalid bound: "
  | interval => "Invalid interval: "
  | flag => "Invalid flag value: "
  | recurrence => "Invalid recurrence: "
  | zone => "Invalid timezone: "
  | timeOfDay => "Invalid time of day: "
  | localTime => "Invalid local time: "
  | range => "Date arithmetic out of range: "
  | text => "Parse error: "

/-- Why a text is no interval. -/
inductive IntervalTextFault
  | opening
  | closing
  | comma
  | lower (reason : ReadFault)
  | upper (reason : ReadFault)
deriving DecidableEq, Repr

def IntervalTextFault.message : IntervalTextFault → String
  | opening => "expected '[' or '('"
  | closing => "expected ']' or ')'"
  | comma => "expected two comma-separated bounds"
  | lower reason => "bad lower bound: " ++ reason.message
  | upper reason => "bad upper bound: " ++ reason.message

/-- A computation with dates that panics, where others return an error. -/
inductive Panic
  /-- The local reading of a moment, if the calendar does not reach it. -/
  | localReading
  /-- The Sunday before a date, if the calendar begins after it. -/
  | weekStart
deriving DecidableEq, Repr

def Panic.message : Panic → String
  | localReading => "Local time out of range for `NaiveDateTime`"
  | weekStart => "`NaiveDate - TimeDelta` overflowed"

/-- The causes for which an operation gives no result. -/
inductive Fault
  /-- An infinite bound that claims to contain its value. -/
  | closedInfinity
  /-- A lower bound at the upper infinity. -/
  | lowerAtTop
  /-- An upper bound at the lower infinity. -/
  | upperAtBottom
  /-- Limits that are no lower and upper bound. -/
  | limitSides
  /-- Limits with nothing between them. -/
  | limitOrder
  /-- An interval whose bounds are no lower and upper bound. -/
  | intervalSides
  /-- An interval that ends before it starts. -/
  | boundsReversed
  /-- An interval with one value at both ends, of which only one end contains it. -/
  | boundsMixed
  /-- A text that is no interval. -/
  | intervalText (text : String) (reason : IntervalTextFault)
  /-- An exponent beyond the bits of a mask. -/
  | exponentRange (exponent : Nat)
  /-- An exponent without a flag. -/
  | noFlagAt (exponent : Nat)
  /-- A mask that does not have exactly one bit. -/
  | notSingleBit (mask : Nat)
  /-- A bit that is no flag. -/
  | undefinedBit (mask : Nat)
  /-- A period given in both units or in neither. -/
  | periodUnits
  /-- A period longer than any duration. -/
  | periodRange
  | periodNotPositive (period : Duration)
  | periodNotWhole (period : Duration)
  /-- A daily rule with a day count and week days. -/
  | dailySelection
  | dayCount
  | weekCount
  /-- A set of week days that is empty or has undefined bits. -/
  | weekDayMask (mask : Nat)
  /-- A set of months that is empty or has undefined bits. -/
  | monthMask (mask : Nat)
  /-- A day of the month that none of the selected months has. -/
  | dayOfMonth (day longest : Nat)
  /-- A monthly rule with a day of the month and week days, or with neither. -/
  | monthlySelection
  | cursorNotStarted
  | noWeekDaySelected
  | emptyZoneId
  | unknownZone (id : String)
  | noTimes
  | outsideDay (offset : Duration)
  | timeText (text : String) (reason : ReadFault)
  /-- A reading that clocks in a zone never show. -/
  | skippedReading (reading : Reading) (zone : String)
  /-- A date too far from another. -/
  | dateSum (date : Date) (days : Int)
  /-- No day of a set of week days, given by name, in the week after a date. -/
  | noWeekDayAfter (names : String) (date : Date)
  /-- No date of a monthly rule in the months after a date. -/
  | noMonthlyDate (months : Nat) (date : Date)
  /-- A moment too far from another. -/
  | momentSum (moment : Moment) (period : Duration)
  /-- A reading too many periods after another. -/
  | periodSteps (reading : Reading) (steps : Int)
  /-- No occurrence among the candidates examined. -/
  | noOccurrence (candidates : Nat) (now : Moment)
  /-- No error is returned. -/
  | panic (cause : Panic)
deriving DecidableEq, Repr

namespace Fault

/-- The operation panics instead of returning an error. -/
def isPanic : Fault → Bool
  | panic _ => true
  | _ => false

/-- The group that a cause belongs to. A panic, which is no error, goes with the computations that
are out of range. -/
def category : Fault → FaultCategory
  | closedInfinity | lowerAtTop | upperAtBottom | limitSides | limitOrder => .bound
  | intervalSides | boundsReversed | boundsMixed => .interval
  | intervalText .. => .text
  | exponentRange _ | noFlagAt _ | notSingleBit _ | undefinedBit _ => .flag
  | periodUnits | periodRange | periodNotPositive _ | periodNotWhole _ | dailySelection
  | dayCount | weekCount | weekDayMask _ | monthMask _ | dayOfMonth .. | monthlySelection
  | cursorNotStarted | noWeekDaySelected => .recurrence
  | emptyZoneId | unknownZone _ => .zone
  | noTimes | outsideDay _ | timeText .. => .timeOfDay
  | skippedReading .. => .localTime
  | dateSum .. | noWeekDayAfter .. | noMonthlyDate .. | momentSum .. | periodSteps ..
  | noOccurrence .. | panic _ => .range

/-- The wording of a cause, without its heading. -/
def detail : Fault → String
  | closedInfinity => "an infinite bound cannot be closed"
  | lowerAtTop => "a lower bound cannot be +inf"
  | upperAtBottom => "an upper bound cannot be -inf"
  | limitSides => "domain limits must be a lower and an upper bound"
  | limitOrder => "the lowest bound must sit below the upmost bound"
  | intervalSides => "expected a lower bound followed by an upper bound"
  | boundsReversed => "lower bound exceeds upper bound"
  | boundsMixed => "bounds on the same value must share a direction"
  | intervalText text reason => "'" ++ text ++ "': " ++ reason.message
  | exponentRange exponent => "exponent " ++ integerText exponent ++ " out of range"
  | noFlagAt exponent => "no flag defined for 2^" ++ integerText exponent
  | notSingleBit mask => binaryText mask ++ " is not a power of two"
  | undefinedBit mask => binaryText mask ++ " is not a defined flag"
  | periodUnits => "exactly one of period_secs and period_ms is required"
  | periodRange => "period is out of range"
  | periodNotPositive period => "period must be positive, got " ++ period.text
  | periodNotWhole period =>
    "period must be a whole number of milliseconds, got " ++ period.text
  | dailySelection => "daily recurrence takes either `days` or `week_days`, not both"
  | dayCount => "day count must be positive"
  | weekCount => "week count must be positive"
  | weekDayMask mask => "week days must name at least one day, got " ++ binaryText mask
  | monthMask mask => "months must name at least one month, got " ++ binaryText mask
  | dayOfMonth day longest =>
    "day " ++ integerText day ++ " does not exist in the selected months (at most " ++
      integerText longest ++ " days)"
  | monthlySelection =>
    "monthly recurrence takes exactly one of `day_of_month` or `week_days_of_month`"
  | cursorNotStarted => "calendar cursor used before start"
  | noWeekDaySelected => "no week days selected"
  | emptyZoneId => "empty identifier"
  | unknownZone id => id
  | noTimes => "at least one time of day is required"
  | outsideDay offset => offset.text ++ " is outside [0, 24h)"
  | timeText text reason => "'" ++ text ++ "': " ++ reason.message
  | skippedReading reading zone => reading.text ++ " in " ++ zone
  | dateSum date days => date.text ++ " + " ++ integerText days ++ " days"
  | noWeekDayAfter names date => "no WeekDays(" ++ names ++ ") after " ++ date.text
  | noMonthlyDate months date =>
    "no qualifying date within " ++ integerText months ++ " months of " ++ date.text
  | momentSum moment period => moment.text ++ " + " ++ period.text
  | periodSteps reading steps =>
    reading.text ++ " + " ++ integerText steps ++ " periods"
  | noOccurrence candidates now =>
    "no occurrence after " ++ now.text ++ " within " ++ integerText candidates ++ " candidates"
  | panic cause => cause.message

def message (f : Fault) : String :=
  if f.isPanic then f.detail else f.category.heading ++ f.detail

end Fault

end Almanac
