import Almanac.Clock.Rfc3339
import Almanac.CommandLine.Arguments
import Almanac.CommandLine.Configuration
import Almanac.Interval.Collection
import Almanac.Interval.Text

/-!
# Running a command

What the program prints and how it ends, as a function of its arguments, of the files it can
read, of the environment and of the present moment.
-/

namespace Almanac.CommandLine

open Text

/-- What a program leaves behind: its exit code, its output and, after a failure of a command,
why it failed. -/
structure Outcome where
  exitCode : Nat
  output : String
  error : Option String
deriving DecidableEq, Repr

structure Surroundings where
  /-- The text of a file, if there is such a file. -/
  file : String → Option String
  environment : List (String × String)
  /-- The present moment on the universal timeline, if it is known. -/
  present : Option Reading := none

namespace Outcome

def success (output : String) : Outcome := ⟨0, output, none⟩

def failure (reason : String) (output : String) : Outcome := ⟨1, output, some reason⟩

end Outcome

def lines (ls : List String) : String := String.join (ls.map (· ++ "\n"))

/-- The moment that a text denotes: an instant, or a local reading without seconds or with whole
seconds. -/
def readNow (clock : LocalClock) (s : String) : Except String Moment :=
  let cs := s.toList
  match Moment.ofRfc3339? cs with
  | some m => .ok m
  | none =>
    let reading :=
      match readWith Reading.secondPattern Parts.reading? cs with
      | .ok r => Except.ok r
      | .error _ => readWith Reading.minutePattern Parts.reading? cs
    match reading with
    | .error _ => .error ("Invalid --now value: " ++ s)
    | .ok r =>
      match clock.resolve? r .standardTime with
      | some m => .ok m
      | none => .error (r.text ++ " does not exist in " ++ clock.id)

/-- Occurrences of one recurrence under its label, up to a fault. -/
structure Listing where
  label : String
  schedules : List Schedule
  failed : Bool

def listing (clock : LocalClock) (count : Nat) (now : Moment) (r : Recurrence) (index : Nat) :
    Listing :=
  let answer := r.schedules clock {} (.bounded count) now count
  { label := r.name.getD ("#" ++ integerText index)
    schedules := answer.result.filterMap Except.toOption
    failed := answer.result.any fun s => s.toOption.isNone }

/-- The listings up to the first that fails, and its label. -/
def untilFailure : List Listing → List Listing × Option String
  | [] => ([], none)
  | l :: rest =>
    if l.failed then ([l], some l.label)
    else
      let (others, failed) := untilFailure rest
      (l :: others, failed)

def scheduleLine (label : String) (s : Schedule) : String := label ++ "\t" ++ s.text

def scheduleObject (label : String) (s : Schedule) : Json :=
  .object [("name", .string label), ("occurs_on", .string s.occursOn.rfc3339),
    ("due_secs", .integer s.due.seconds)]

def listingsText (json : Bool) (ls : List Listing) : String :=
  if json then
    lines [(Json.array (ls.flatMap fun l => l.schedules.map (scheduleObject l.label))).prettyText]
  else lines (ls.flatMap fun l => l.schedules.map (scheduleLine l.label))

/-- Print the next occurrences of the recurrences of the configuration, or of those with a name. -/
def runNext (config : Configuration) (clock : LocalClock) (name : Option String) (count : Nat)
    (now : Moment) (json : Bool) : Outcome :=
  let chosen := config.recurrences.filter fun r => name.isNone || r.name == name
  if chosen.isEmpty then
    match name with
    | some name => .failure ("No recurrence named '" ++ name ++ "' in the config") ""
    | none => .failure "The config defines no recurrences" ""
  else
    match untilFailure (chosen.mapIdx fun i r => listing clock count now r i) with
    | (ls, none) => .success (listingsText json ls)
    | (ls, some label) =>
      .failure ("Failed to schedule '" ++ label ++ "'") (if json then "" else listingsText false ls)

/-- The intervals that some texts denote, or the first text that is none. -/
def readIntervals {α : Type} [Ord α] [TextForm α] :
    List String → Except String (Collection α)
  | [] => .ok []
  | s :: rest =>
    match Interval.read s with
    | .ok i => (readIntervals rest).map (i :: ·)
    | .error _ => .error s

def SetOperation.apply {α : Type} [Ord α] (c : Collection α) : SetOperation → Collection α
  | union lowest => c.union .unlimited (if lowest then .lowest else .highest)
  | intersection => [c.intersection .unlimited]
  | complement => c.complement .unlimited

def runIntervals (α : Type) [Ord α] [TextForm α] (operation : SetOperation)
    (texts : List String) : Outcome :=
  match readIntervals (α := α) texts with
  | .error s => .failure ("Invalid interval: " ++ s) ""
  | .ok c =>
    .success (lines ((operation.apply c).map fun i => if i.isEmpty then "(empty)" else i.text))

def runDaylight (clock : LocalClock) (year : Int) : Outcome :=
  let found :=
    match clock.daylightTime? year with
    | some d => d.text
    | none => "no daylight saving time"
  .success (lines [clock.id ++ " " ++ integerText year ++ ": " ++ found])

def withConfiguration (s : Surroundings) (path : String) (run : Configuration → Outcome) :
    Outcome :=
  match Configuration.load? (s.file path) s.environment with
  | some config => run config
  | none => .failure ("Failed to load config: " ++ path) ""

def Invocation.run (i : Invocation) (s : Surroundings) : Outcome :=
  match i.command with
  | .next name count now timezone json =>
    if count = 0 then .failure "--count must be at least 1" ""
    else
      withConfiguration s i.config fun config =>
        let clock := config.clock timezone
        let now :=
          match now, s.present with
          | some text, _ => readNow clock text
          | none, some present => .ok (clock.ofUtc present)
          | none, none => .error "The present moment is not known"
        match now with
        | .ok now => runNext config clock name count now json
        | .error reason => .failure reason ""
  | .intervals operation .int texts => runIntervals Int64 operation texts
  | .intervals operation .date texts => runIntervals Date operation texts
  | .intervals operation .datetime texts => runIntervals Reading operation texts
  | .daylight (some id) year =>
    match LocalClock.ofId id with
    | .ok clock => runDaylight clock year
    | .error _ => .failure ("Unknown timezone: " ++ id) ""
  | .daylight none year =>
    withConfiguration s i.config fun config => runDaylight (config.clock none) year

def versionLine : String := "chronoset 0.1.0"

def usageLine : String :=
  "Usage: chronoset [--config FILE] next|union|intersect|complement|daylight ..."

def run (args : List String) (s : Surroundings) : Outcome :=
  match readInvocation args with
  | .ok i => i.run s
  | .error .version => .success (lines [versionLine])
  | .error .help => .success (lines [usageLine])
  | .error .usage => ⟨2, "", none⟩

end Almanac.CommandLine
