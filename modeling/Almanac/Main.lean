import Almanac.CommandLine.Run
import Std.Time.DateTime.Timestamp

/-!
# The program

Hands the arguments, the configuration file, the environment and the present moment to
`CommandLine.run`, and prints what it returns.
-/

namespace Almanac

open CommandLine

/-- The configuration file that the arguments name, with its text if it exists. -/
def configFile (args : List String) : IO (List (String × String)) := do
  match readInvocation args with
  | .ok i =>
    try
      return [(i.config, ← IO.FS.readFile i.config)]
    catch _ => return []
  | .error _ => return []

/-- The part of the environment that matters. -/
def environment : IO (List (String × String)) := do
  match ← IO.getEnv Configuration.timezoneVariable with
  | some s => return [(Configuration.timezoneVariable, s)]
  | none => return []

/-- The present moment. -/
def present : IO (Option Reading) := do
  let t := (← Std.Time.Timestamp.now).toNanosecondsSinceUnixEpoch.val
  return Reading.ofUnix? (t / 1000000000) (t % 1000000000).toNat

end Almanac

def main (args : List String) : IO UInt32 := do
  let files ← Almanac.configFile args
  let outcome := Almanac.CommandLine.run args
    { file := fun path => files.lookup path
      environment := ← Almanac.environment
      present := ← Almanac.present }
  IO.print outcome.output
  if let some reason := outcome.error then
    IO.eprintln ("Error: " ++ reason)
  return UInt32.ofNat outcome.exitCode
