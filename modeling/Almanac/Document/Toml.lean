import Almanac.Document.Reader
import Almanac.Text.Split

/-!
# Reading TOML

A configuration text is a sequence of entries `key = value` under headers that name tables. It
is read into the same trees as JSON: tables are objects, and tables that are repeated under a
double header are the items of an array. Floating point numbers and dates are kept as they are
written. Unlike a JSON text, a text with any fault has no tree at all.
-/

namespace Almanac.Toml

abbrev Table := List (String × Json)

def isGap (c : Char) : Bool := c == ' ' || c == '\t'

def skipGap (cs : List Char) : List Char := cs.dropWhile isGap

/-- The text from the end of the line on, if only a comment stands before it. -/
def lineEnd? (cs : List Char) : Option (List Char) :=
  match skipGap cs with
  | [] => some []
  | '\n' :: rest => some rest
  | '\r' :: '\n' :: rest => some rest
  | '#' :: rest => some (rest.dropWhile (· != '\n'))
  | _ => none

/-- The text after blanks, line ends and comments. -/
def skipLines : Nat → List Char → List Char
  | 0, cs => cs
  | fuel + 1, cs =>
    match skipGap cs with
    | '\n' :: rest => skipLines fuel rest
    | '\r' :: '\n' :: rest => skipLines fuel rest
    | '#' :: rest => skipLines fuel (rest.dropWhile (· != '\n'))
    | other => other

/-- The text after all blanks, line ends and comments that it starts with. -/
def skipAll (cs : List Char) : List Char := skipLines (cs.length + 1) cs

def hexNumber? (cs : List Char) : Option Nat :=
  cs.foldlM (fun n c => (n * 16 + ·) <$> Json.hexValue? c) 0

/-- The character with a code of `width` hexadecimal digits. -/
def codePoint? (width : Nat) (cs : List Char) : Option (Char × List Char) := do
  guard (width ≤ cs.length)
  let n ← hexNumber? (cs.take width)
  if n.isValidChar then some (Char.ofNat n, cs.drop width) else none

def readEscape? : List Char → Option (Char × List Char)
  | 'u' :: rest => codePoint? 4 rest
  | 'U' :: rest => codePoint? 8 rest
  | c :: rest => if c = '/' then none else (Json.shortEscape? c).map (·, rest)
  | [] => none

/-- A character that cannot stand in a string of one line. -/
def isControl (c : Char) : Bool := (c.toNat < 32 && c != '\t') || c.toNat == 127

/-- A basic string after its opening quote, read so far in reverse. -/
def basicString? : Nat → List Char → List Char → Option (String × List Char)
  | 0, _, _ => none
  | fuel + 1, read, cs =>
    match cs with
    | '"' :: rest => some (String.ofList read.reverse, rest)
    | '\\' :: rest => do
      let (c, rest) ← readEscape? rest
      basicString? fuel (c :: read) rest
    | c :: rest => if isControl c then none else basicString? fuel (c :: read) rest
    | [] => none

/-- A literal string after its opening quote. -/
def literalString? (cs : List Char) : Option (String × List Char) :=
  let body := cs.takeWhile fun c => c != '\x27' && !isControl c
  match cs.drop body.length with
  | '\x27' :: rest => some (String.ofList body, rest)
  | _ => none

def string? (cs : List Char) : Option (String × List Char) :=
  match cs with
  | '"' :: rest => basicString? (rest.length + 1) [] rest
  | '\x27' :: rest => literalString? rest
  | _ => none

def isKeyChar (c : Char) : Bool := c.isAlphanum || c == '_' || c == '-'

def keyPart? (cs : List Char) : Option (String × List Char) :=
  match cs with
  | '"' :: _ | '\x27' :: _ => string? cs
  | _ =>
    let name := cs.takeWhile isKeyChar
    if name.isEmpty then none else some (String.ofList name, cs.drop name.length)

/-- A key of one or more parts with points between. -/
def key? : Nat → List Char → Option (List String × List Char)
  | 0, _ => none
  | fuel + 1, cs => do
    let (part, rest) ← keyPart? (skipGap cs)
    match skipGap rest with
    | '.' :: rest =>
      let (parts, rest) ← key? fuel rest
      return (part :: parts, rest)
    | rest => return ([part], rest)

/-- The digits of a number without the underscores between them. -/
def bareDigits? (cs : List Char) : Option (List Char) :=
  let pieces := Text.splitAt '_' cs
  if pieces.any List.isEmpty then none else some pieces.flatten

def inBase? (base : Nat) (cs : List Char) : Option Nat :=
  cs.foldlM (fun n c => do
    let digit ← Json.hexValue? c
    if digit < base then some (n * base + digit) else none) 0

/-- The value of an integer: decimal with an optional sign, or with a prefix for its base. -/
def integer? (cs : List Char) : Option Int := do
  let value ←
    match cs with
    | '0' :: 'x' :: digits => do pure ((← inBase? 16 (← bareDigits? digits)) : Int)
    | '0' :: 'o' :: digits => do pure ((← inBase? 8 (← bareDigits? digits)) : Int)
    | '0' :: 'b' :: digits => do pure ((← inBase? 2 (← bareDigits? digits)) : Int)
    | _ => do
      let (negative, body) :=
        match cs with
        | '-' :: rest => (true, rest)
        | '+' :: rest => (false, rest)
        | _ => (false, cs)
      let digits ← bareDigits? body
      guard (digits.length = 1 ∨ digits.head? ≠ some '0')
      let size : Int ← inBase? 10 digits
      pure (if negative then -size else size)
  guard (-9223372036854775808 ≤ value ∧ value ≤ 9223372036854775807)
  return value

def isScalarChar (c : Char) : Bool :=
  c.isAlphanum || c == '_' || c == '-' || c == '+' || c == '.' || c == ':'

/-- The text looks like a floating point number or a date. -/
def isOtherScalar (cs : List Char) : Bool :=
  match cs.dropWhile (fun c => c == '+' || c == '-') with
  | 'i' :: 'n' :: 'f' :: [] | 'n' :: 'a' :: 'n' :: [] => true
  | c :: rest =>
    c.isDigit && rest.any (fun d => d == '.' || d == 'e' || d == 'E' || d == ':' || d == '-') &&
      (rest.getLast?.any Char.isAlphanum)
  | [] => false

def scalar? (cs : List Char) : Option (Json × List Char) :=
  let token := cs.takeWhile isScalarChar
  let rest := cs.drop token.length
  if token = ['t', 'r', 'u', 'e'] then some (.bool true, rest)
  else if token = ['f', 'a', 'l', 's', 'e'] then some (.bool false, rest)
  else
    match integer? token with
    | some i => some (.integer i, rest)
    | none =>
      if isOtherScalar token then some (.decimal (String.ofList token), rest) else none

/-- A table with a change at the end of a path. Missing tables on the way are created, and a
repeated table stands for its last item. -/
def update? (change : Table → Option Table) : List String → Table → Option Table
  | [], table => change table
  | name :: path, table =>
    match table.lookup name with
    | none => do
      let inner ← update? change path []
      return table ++ [(name, .object inner)]
    | some (.object inner) => do
      let inner ← update? change path inner
      return table.map fun m => if m.1 == name then (name, .object inner) else m
    | some (.array items) =>
      match items.getLast? with
      | some (.object inner) => do
        let inner ← update? change path inner
        let items := items.dropLast ++ [.object inner]
        return table.map fun m => if m.1 == name then (name, .array items) else m
      | _ => none
    | some _ => none

/-- A table with one more member, which must be new. -/
def insert? (name : String) (value : Json) (table : Table) : Option Table :=
  if (table.lookup name).isSome then none else some (table ++ [(name, value)])

def put? (path : List String) (value : Json) (table : Table) : Option Table :=
  match path.getLast? with
  | some name => update? (insert? name value) path.dropLast table
  | none => none

mutual

def value? : Nat → List Char → Option (Json × List Char)
  | 0, _ => none
  | fuel + 1, cs =>
    match cs with
    | '[' :: rest => items? fuel (skipAll rest)
    | '\x7b' :: rest =>
      match skipGap rest with
      | '\x7d' :: rest => some (.object [], rest)
      | rest => entries? fuel rest []
    | '"' :: _ | '\x27' :: _ => (string? cs).map fun (s, rest) => (.string s, rest)
    | _ => scalar? cs

/-- The items of an array and its closing bracket; a comma may follow the last item. -/
def items? : Nat → List Char → Option (Json × List Char)
  | 0, _ => none
  | fuel + 1, cs =>
    match cs with
    | ']' :: rest => some (.array [], rest)
    | _ => do
      let (item, rest) ← value? fuel cs
      match skipAll rest with
      | ',' :: rest =>
        let (others, rest) ← items? fuel (skipAll rest)
        match others with
        | .array others => return (.array (item :: others), rest)
        | _ => none
      | ']' :: rest => return (.array [item], rest)
      | _ => none

/-- The entries of a table on one line and its closing brace. -/
def entries? : Nat → List Char → Table → Option (Json × List Char)
  | 0, _, _ => none
  | fuel + 1, cs, table => do
    let (path, rest) ← key? (cs.length + 1) cs
    match rest with
    | '=' :: rest =>
      let (value, rest) ← value? fuel (skipGap rest)
      let table ← put? path value table
      match skipGap rest with
      | ',' :: rest => entries? fuel (skipGap rest) table
      | '\x7d' :: rest => return (.object table, rest)
      | _ => none
    | _ => none

end

/-- What has been read of a text: the outermost table, the path of the table that entries belong
to, and the paths of the tables that have had a header. -/
structure State where
  root : Table := []
  current : List String := []
  opened : List (List String) := []
  repeated : List (List String) := []

namespace State

/-- The entry of a table header. -/
def openTable? (s : State) (path : List String) : Option State := do
  guard (!s.opened.contains path && !s.repeated.contains path)
  let root ← update? some path s.root
  return { s with root, current := path, opened := path :: s.opened }

/-- One more table under a double header. -/
def append? (path : List String) (repeated : Bool) (table : Table) : Option Table := do
  let name ← path.getLast?
  let add (inner : Table) : Option Table :=
    match inner.lookup name with
    | none => some (inner ++ [(name, .array [.object []])])
    | some (.array items) =>
      if repeated then
        some (inner.map fun m =>
          if m.1 == name then (name, .array (items ++ [.object []])) else m)
      else none
    | some _ => none
  update? add path.dropLast table

/-- The entry of a double header. Tables within the item before may be named again. -/
def openItem? (s : State) (path : List String) : Option State := do
  let root ← append? path (s.repeated.contains path) s.root
  let within := fun p : List String => path.isPrefixOf p && p != path
  return { s with
    root
    current := path
    opened := s.opened.filter (!within ·)
    repeated := path :: s.repeated.filter (!within ·) }

def put? (s : State) (path : List String) (value : Json) : Option State := do
  let root ← update? (Toml.put? path value) s.current s.root
  return { s with root }

end State

/-- The entry or header at the start of a text, and what follows its line. -/
def statement? (s : State) (cs : List Char) : Option (State × List Char) :=
  let steps := cs.length + 1
  match cs with
  | '[' :: '[' :: rest => do
    let (path, rest) ← key? steps rest
    match rest with
    | ']' :: ']' :: rest => return (← s.openItem? path, ← lineEnd? rest)
    | _ => none
  | '[' :: rest => do
    let (path, rest) ← key? steps rest
    match rest with
    | ']' :: rest => return (← s.openTable? path, ← lineEnd? rest)
    | _ => none
  | _ => do
    let (path, rest) ← key? steps cs
    match rest with
    | '=' :: rest =>
      let (value, rest) ← value? steps (skipGap rest)
      return (← s.put? path value, ← lineEnd? rest)
    | _ => none

def statements? : Nat → State → List Char → Option State
  | 0, _, _ => none
  | fuel + 1, s, cs =>
    match skipAll cs with
    | [] => some s
    | start => do
      let (s, rest) ← statement? s start
      statements? fuel s rest

def parse? (text : String) : Option Json :=
  let cs := text.toList
  (statements? (cs.length + 2) {} cs).map fun s => .object s.root

end Almanac.Toml
