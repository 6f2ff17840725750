import Almanac.Document.Json

/-!
# Reading JSON

A text is read into the tree of what it says up to the point where it stops being JSON; from
there on the tree is `broken`. Reading a value never fails as a whole, so that a document can be
refused for what its beginning says even when its end is damaged.
-/

namespace Almanac.Json

def isSpace (c : Char) : Bool := c == ' ' || c == '\t' || c == '\n' || c == '\r'

def skipSpace (cs : List Char) : List Char := cs.dropWhile isSpace

/-- The value of a hexadecimal digit of either case. -/
def hexValue? (c : Char) : Option Nat :=
  if c.isDigit then some (c.toNat - '0'.toNat)
  else if 'a' ≤ c ∧ c ≤ 'f' then some (c.toNat - 'a'.toNat + 10)
  else if 'A' ≤ c ∧ c ≤ 'F' then some (c.toNat - 'A'.toNat + 10)
  else none

/-- A code unit of four hexadecimal digits. -/
def codeUnit? : List Char → Option (Nat × List Char)
  | a :: b :: c :: d :: rest => do
    let a ← hexValue? a
    let b ← hexValue? b
    let c ← hexValue? c
    let d ← hexValue? d
    return (a * 4096 + b * 256 + c * 16 + d, rest)
  | _ => none

/-- What the characters after a backslash stand for. -/
inductive Escape
  | char (c : Char) (rest : List Char)
  /-- Half of a surrogate pair without the other half. -/
  | half (rest : List Char)
  /-- Nothing: the escape is malformed. -/
  | malformed

def shortEscape? (c : Char) : Option Char :=
  if c = '"' ∨ c = '\\' ∨ c = '/' then some c
  else if c = 'b' then some (Char.ofNat 8)
  else if c = 'f' then some (Char.ofNat 12)
  else if c = 'n' then some '\n'
  else if c = 'r' then some '\r'
  else if c = 't' then some '\t'
  else none

/-- The second half of a surrogate pair, written as an escape. -/
def lowSurrogate? : List Char → Option (Nat × List Char)
  | '\\' :: 'u' :: rest => do
    let (unit, rest) ← codeUnit? rest
    if 0xDC00 ≤ unit ∧ unit < 0xE000 then some (unit, rest) else none
  | _ => none

def readEscape : List Char → Escape
  | 'u' :: rest =>
    match codeUnit? rest with
    | none => .malformed
    | some (unit, rest) =>
      if 0xD800 ≤ unit ∧ unit < 0xDC00 then
        match lowSurrogate? rest with
        | some (low, rest) =>
          .char (Char.ofNat (0x10000 + (unit - 0xD800) * 1024 + (low - 0xDC00))) rest
        | none => .half rest
      else if 0xDC00 ≤ unit ∧ unit < 0xE000 then .half rest
      else .char (Char.ofNat unit) rest
  | c :: rest =>
    match shortEscape? c with
    | some d => .char d rest
    | none => .malformed
  | [] => .malformed

/-- A string after its opening quote: its characters in reverse, whether all of it has a value,
and what follows the closing quote. -/
def readString : Nat → List Char → Bool → List Char →
    Option (List Char × Bool × List Char)
  | 0, _, _, _ => none
  | fuel + 1, read, usable, cs =>
    match cs with
    | [] => none
    | '"' :: rest => some (read, usable, rest)
    | '\\' :: rest =>
      match readEscape rest with
      | .char c rest => readString fuel (c :: read) usable rest
      | .half rest => readString fuel read false rest
      | .malformed => none
    | c :: rest => if c.toNat < 32 then none else readString fuel (c :: read) usable rest

/-- A string after its opening quote, and what follows it. -/
def stringAfterQuote? (cs : List Char) : Option (Json × List Char) :=
  (readString (cs.length + 1) [] true cs).map fun (read, usable, rest) =>
    (if usable then string (String.ofList read.reverse) else unusable, rest)

/-- The least number that rounds to infinity in double precision. -/
def doubleOverflow : Nat := (1 <<< 1024) - (1 <<< 970)

/-- The number with a digit string and a decimal exponent has no finite value in double
precision. The count of digits decides unless the magnitude is that of the largest number. -/
def overflowsDouble (digits : List Char) (exponent : Int) : Bool :=
  let significant := digits.dropWhile (· == '0')
  let magnitude : Int := significant.length + exponent
  if significant.isEmpty ∨ magnitude < 309 then false
  else if 309 < magnitude then true
  else
    let value := Text.valueOf significant
    if 0 ≤ exponent then doubleOverflow ≤ value * Nat.pow 10 exponent.toNat
    else doubleOverflow * Nat.pow 10 (-exponent).toNat ≤ value

/-- The exponent of a number, if it has one: none for a malformed one. -/
def readExponent (cs : List Char) : Option (Int × List Char) :=
  match cs with
  | e :: rest =>
    if e = 'e' ∨ e = 'E' then
      let (negative, rest) :=
        match rest with
        | '-' :: tail => (true, tail)
        | '+' :: tail => (false, tail)
        | _ => (false, rest)
      let (run, rest) := Text.digitRun rest.length rest
      if run.isEmpty then none
      else
        let size : Int := Text.valueOf run
        some (if negative then -size else size, rest)
    else some (0, cs)
  | [] => some (0, cs)

/-- The decimal places of a number, if it has any: none for a malformed one. -/
def readPlaces (cs : List Char) : Option (List Char × List Char) :=
  match cs with
  | '.' :: rest =>
    let (run, rest) := Text.digitRun rest.length rest
    if run.isEmpty then none else some (run, rest)
  | _ => some ([], cs)

def readNumber? (cs : List Char) : Option (Json × List Char) := do
  let (negative, body) :=
    match cs with
    | '-' :: rest => (true, rest)
    | _ => (false, cs)
  let (whole, rest) := Text.digitRun body.length body
  guard !whole.isEmpty
  guard (whole.length = 1 ∨ whole.head? ≠ some '0')
  let (places, afterPlaces) ← readPlaces rest
  let (exponent, afterExponent) ← readExponent afterPlaces
  let written := cs.take (cs.length - afterExponent.length)
  let size := Text.valueOf whole
  if written.length = whole.length ∧ size < 18446744073709551616 then
    return (integer size, afterExponent)
  else if negative ∧ written.length = whole.length + 1 ∧ 0 < size ∧ size ≤ 9223372036854775808 then
    return (integer (-(size : Int)), afterExponent)
  else if overflowsDouble (whole ++ places) (exponent - places.length) then
    return (unusable, afterExponent)
  else return (decimal (String.ofList written), afterExponent)

def readWord? (word : String) (value : Json) (cs : List Char) : Option (Json × List Char) :=
  let w := word.toList
  if w.isPrefixOf cs then some (value, cs.drop w.length) else none

/-- A value other than an array or an object. -/
def readScalar? (cs : List Char) : Option (Json × List Char) :=
  match cs with
  | '"' :: rest => stringAfterQuote? rest
  | 'n' :: _ => readWord? "null" null cs
  | 't' :: _ => readWord? "true" (bool true) cs
  | 'f' :: _ => readWord? "false" (bool false) cs
  | _ => readNumber? cs

mutual

/-- A value and what follows it, or its tree alone when the text breaks inside it. -/
def readValue : Nat → List Char → Json × Option (List Char)
  | 0, _ => (broken, none)
  | fuel + 1, cs =>
    match skipSpace cs with
    | '[' :: rest =>
      match skipSpace rest with
      | ']' :: tail => (array [], some tail)
      | _ =>
        let (items, tail) := readItems fuel rest
        (array items, tail)
    | '\x7b' :: rest =>
      match skipSpace rest with
      | '\x7d' :: tail => (object [], some tail)
      | _ =>
        let (members, tail) := readMembers fuel rest
        (object members, tail)
    | start =>
      match readScalar? start with
      | some (value, rest) => (value, some rest)
      | none => (broken, none)

/-- The items of an array up to its closing bracket. -/
def readItems : Nat → List Char → List Json × Option (List Char)
  | 0, _ => ([broken], none)
  | fuel + 1, cs =>
    match readValue fuel cs with
    | (value, none) => ([value], none)
    | (value, some rest) =>
      match skipSpace rest with
      | ',' :: rest =>
        let (items, tail) := readItems fuel rest
        (value :: items, tail)
      | ']' :: rest => ([value], some rest)
      | _ => ([value, broken], none)

/-- The members of an object up to its closing brace. -/
def readMembers : Nat → List Char → List (String × Json) × Option (List Char)
  | 0, _ => ([("", broken)], none)
  | fuel + 1, cs =>
    match skipSpace cs with
    | '"' :: rest =>
      match stringAfterQuote? rest with
      | some (string name, rest) =>
        match skipSpace rest with
        | ':' :: rest =>
          match readValue fuel rest with
          | (value, none) => ([(name, value)], none)
          | (value, some rest) =>
            match skipSpace rest with
            | ',' :: rest =>
              let (members, tail) := readMembers fuel rest
              ((name, value) :: members, tail)
            | '\x7d' :: rest => ([(name, value)], some rest)
            | _ => ([(name, value), ("", broken)], none)
        | _ => ([(name, broken)], none)
      | _ => ([("", broken)], none)
    | _ => ([("", broken)], none)

end

/-- What a text says, and whether nothing but blanks follows. Each level of nesting takes at
most two steps and one character, so the steps allowed are enough for any text. -/
def read (s : String) : Json × Bool :=
  let cs := s.toList
  match readValue (2 * cs.length + 2) cs with
  | (value, some rest) => (value, (skipSpace rest).isEmpty)
  | (value, none) => (value, false)

/-- The tree of a text that is JSON as a whole. -/
def parse? (s : String) : Option Json :=
  match read s with
  | (value, true) => some value
  | _ => none

end Almanac.Json
