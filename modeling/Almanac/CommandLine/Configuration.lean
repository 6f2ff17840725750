import Almanac.Document.Toml
import Almanac.Recurrence.Document

/-!
# Configuration

The configuration file names a time zone and describes recurrences. The time zone may also be
set in the environment, which then wins over the file. A missing file is an empty configuration,
and every recurrence is checked when the file is loaded.
-/

namespace Almanac.CommandLine

open Text

structure Configuration where
  timezone : Option String := none
  recurrences : List Recurrence := []

namespace Configuration

/-- The variable of the environment that sets the time zone. -/
def timezoneVariable : String := "CHRONOSET_TIMEZONE"

/-- A character that ends a plain setting. -/
def isDelimiter (c : Char) : Bool :=
  c == ',' || c == '{' || c == '}' || c == '[' || c == ']'

/-- A setting without brackets and quotes: a truth value, a number or, most of the time, text. -/
def plainSetting (s : String) (cs : List Char) : Json :=
  if cs = "true".toList then .bool true
  else if cs = "false".toList then .bool false
  else if cs.any isDelimiter then .string s
  else if (readInteger cs).toOption.isSome then .decimal (String.ofList cs)
  else if cs.contains '.' ∧ (Json.readNumber? cs).any (·.2.isEmpty) then
    .decimal (String.ofList cs)
  else .string (String.ofList cs)

/-- A setting of the environment. Only a setting in quotes or without any special form is text. -/
def setting (s : String) : Json :=
  let cs := trim s.toList
  match cs.head?, cs.getLast? with
  | some '"', some '"' =>
    let body := cs.tail.dropLast
    if cs.length < 2 ∨ body.contains '"' then .string s else .string (String.ofList body)
  | some '[', some ']' => .array []
  | some '\x7b', some '\x7d' => .object []
  | _, _ => plainSetting s cs

/-- A recurrence of the file, whose type is given by its name. -/
def decodeRecurrence : Decoder Recurrence := fun j =>
  match j.get? "type" with
  | some (.integer _) => .error .shape
  | _ => Recurrence.decode j

def decode : Decoder Configuration := fun j => do
  let timezone ←
    match j.get? "timezone" with
    | some t => (Decoder.string t).map some
    | none => pure none
  let recurrences ←
    match j.get? "recurrences" with
    | some r => Decoder.array decodeRecurrence r
    | none => pure []
  return { timezone, recurrences }

/-- The members of a table with one of them replaced. -/
def override (members : List (String × Json)) (name : String) (value : Json) :
    List (String × Json) :=
  (name, value) :: members.filter (·.1 != name)

/-- The configuration of a file, if there is one, and an environment. -/
def load? (file : Option String) (environment : List (String × String)) :
    Option Configuration := do
  let members ←
    match file with
    | none => some []
    | some text =>
      match Toml.parse? text with
      | some (.object members) => some members
      | _ => none
  let members :=
    match environment.lookup timezoneVariable with
    | some s => override members "timezone" (setting s)
    | none => members
  (decode (.object members)).toOption

/-- The clock to use: the one of a given zone, else the one that the configuration names, else
the one of the host. -/
def clock (c : Configuration) (given : Option String) : LocalClock :=
  match given.or c.timezone with
  | some id => LocalClock.ofIdOrHost id
  | none => LocalClock.host

end Configuration

end Almanac.CommandLine
