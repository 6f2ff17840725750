import Almanac.Clock.Reading
import Almanac.Text.Blank
import Almanac.Text.ReadFault

/-!
# Reading dates and times

A pattern is a list of items that are matched from left to right. A number may have blanks in
front of it and is taken as long as its width allows; a literal character has to be there. The
first item that does not match, or that reads a number its field does not admit, decides the
reason for refusing the text; then comes text left over, then a date that does not exist.
-/

namespace Almanac

open Text

inductive Field
  | year
  | month
  | day
  | hour
  | minute
  | second
deriving DecidableEq, Repr

namespace Field

/-- The values that a field admits. A second may be 60, in a leap second. -/
def admits (f : Field) (v : Int) : Bool :=
  match f with
  | year => -2147483648 ≤ v && v ≤ 2147483647
  | month => 1 ≤ v && v ≤ 12
  | day => 1 ≤ v && v ≤ 31
  | hour => 0 ≤ v && v ≤ 23
  | minute => 0 ≤ v && v ≤ 59
  | second => 0 ≤ v && v ≤ 60

end Field

inductive Item
  | blanks
  /-- A character that has to be there. -/
  | literal (c : Char)
  | number (f : Field)
  /-- A decimal fraction of a second, if a point follows. -/
  | fraction
deriving DecidableEq, Repr

/-- What a pattern has read so far. -/
structure Parts where
  year : Int := 1970
  month : Nat := 1
  day : Nat := 1
  hour : Nat := 0
  minute : Nat := 0
  second : Nat := 0
  nano : Nat := 0
deriving DecidableEq, Repr

namespace Parts

def set (p : Parts) (f : Field) (v : Int) : Parts :=
  match f with
  | .year => { p with year := v }
  | .month => { p with month := v.toNat }
  | .day => { p with day := v.toNat }
  | .hour => { p with hour := v.toNat }
  | .minute => { p with minute := v.toNat }
  | .second => { p with second := v.toNat }

def date? (p : Parts) : Option Date :=
  Date.ofYearMonthDay? p.year p.month p.day

def time? (p : Parts) : Option TimeOfDay :=
  TimeOfDay.ofParts? p.hour p.minute p.second p.nano

def reading? (p : Parts) : Option Reading := do
  let date ← p.date?
  let time ← p.time?
  return ⟨date, time⟩

end Parts

/-- A run of one to `limit` digits, with what follows it. -/
def takeNumber (limit : Nat) (cs : List Char) : Except ReadFault (List Char × List Char) :=
  match cs with
  | [] => .error .premature
  | _ :: _ =>
    let run := digitRun limit cs
    if run.1.isEmpty then .error .malformed else .ok run

/-- A number of one field. A year takes four digits, or any number of them after a sign; other
fields take two. -/
def takeField (f : Field) (cs : List Char) : Except ReadFault (Int × List Char) := do
  let (value, rest) ← match f, cs with
    | .year, '-' :: tail =>
      let (run, rest) ← takeNumber tail.length tail
      pure (-(valueOf run : Int), rest)
    | .year, '+' :: tail =>
      let (run, rest) ← takeNumber tail.length tail
      pure ((valueOf run : Int), rest)
    | _, _ =>
      let (run, rest) ← takeNumber (if f = .year then 4 else 2) cs
      pure ((valueOf run : Int), rest)
  if f.admits value then return (value, rest) else throw .outOfRange

/-- The nanoseconds that decimal places stand for; places after the ninth are dropped. -/
def takeFraction (cs : List Char) : Except ReadFault (Nat × List Char) := do
  let (run, rest) ← takeNumber 9 cs
  return (valueOf run * Nat.pow 10 (9 - run.length), rest.dropWhile Char.isDigit)

/-- The parts that a pattern reads at the start of a text, with the text left over. -/
def matchPattern : List Item → Parts → List Char → Except ReadFault (Parts × List Char)
  | [], parts, cs => .ok (parts, cs)
  | .blanks :: items, parts, cs => matchPattern items parts (trimStart cs)
  | .literal c :: items, parts, cs =>
    match cs with
    | [] => .error .premature
    | d :: rest => if c = d then matchPattern items parts rest else .error .malformed
  | .number f :: items, parts, cs =>
    match takeField f (trimStart cs) with
    | .error e => .error e
    | .ok (value, rest) => matchPattern items (parts.set f value) rest
  | .fraction :: items, parts, cs =>
    match cs with
    | '.' :: tail =>
      match takeFraction tail with
      | .error e => .error e
      | .ok (nano, rest) => matchPattern items { parts with nano } rest
    | _ => matchPattern items parts cs

/-- The parts of a text that a pattern matches as a whole. -/
def readParts (pattern : List Item) (cs : List Char) : Except ReadFault Parts := do
  let (parts, rest) ← matchPattern pattern {} cs
  if rest.isEmpty then return parts else throw .trailing

/-- The value of a text that a pattern matches, built from the parts it reads. -/
def readWith {α : Type} (pattern : List Item) (build : Parts → Option α) (cs : List Char) :
    Except ReadFault α := do
  let parts ← readParts pattern cs
  match build parts with
  | some value => return value
  | none => throw .outOfRange

namespace Date

/-- Year, month and day of the month with hyphens between, and blanks before each hyphen and at
the end. -/
def pattern : List Item :=
  [.number .year, .blanks, .literal '-', .number .month, .blanks, .literal '-', .number .day,
    .blanks]

def read (cs : List Char) : Except ReadFault Date :=
  readWith pattern Parts.date? cs

end Date

namespace Reading

/-- A date, `T`, and a time down to the second with an optional fraction. -/
def pattern : List Item :=
  Date.pattern ++ [.literal 'T', .number .hour, .blanks, .literal ':', .number .minute, .blanks,
    .literal ':', .number .second, .fraction, .blanks]

def read (cs : List Char) : Except ReadFault Reading :=
  readWith pattern Parts.reading? cs

/-- A date, `T`, hour and minute, without blanks before the literals. -/
def minutePattern : List Item :=
  [.number .year, .literal '-', .number .month, .literal '-', .number .day, .literal 'T',
    .number .hour, .literal ':', .number .minute]

/-- A date, `T`, hour, minute and second, without blanks before the literals. -/
def secondPattern : List Item :=
  minutePattern ++ [.literal ':', .number .second]

end Reading

namespace TimeOfDay

def minutePattern : List Item :=
  [.number .hour, .literal ':', .number .minute]

/-- Hour, minute and second with an optional fraction. -/
def secondPattern : List Item :=
  minutePattern ++ [.literal ':', .number .second, .fraction]

/-- A time of day, with or without seconds. When neither form matches, the reason is the one of
the form without. -/
def read (cs : List Char) : Except ReadFault TimeOfDay :=
  match readWith secondPattern Parts.time? cs with
  | .ok t => .ok t
  | .error _ => readWith minutePattern Parts.time? cs

end TimeOfDay

end Almanac
