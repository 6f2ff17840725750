import Almanac.Text.Decimal

/-!
# JSON trees

A tree keeps the members of an object in their order, repeated names included. Trees that come
from a text have two more leaves: `broken` stands where the text stops being JSON, so that what
comes before it can still be examined, and `unusable` for a string or number that is well
written and denotes no value, such as half of a surrogate pair.

Integers between the least of 64 bits with a sign and the largest of 64 bits without are
integers here; all other numbers are kept as they are written.
-/

namespace Almanac

inductive Json
  | null
  | bool (b : Bool)
  | integer (i : Int)
  | decimal (written : String)
  | string (s : String)
  | array (items : List Json)
  | object (members : List (String × Json))
  | unusable
  | broken
deriving Repr, Inhabited

namespace Json

def hexDigit (n : Nat) : Char := Nat.digitChar n

/-- A character inside a quoted string. -/
def escaped (c : Char) : List Char :=
  if c = '"' then ['\\', '"']
  else if c = '\\' then ['\\', '\\']
  else if c = '\n' then ['\\', 'n']
  else if c = '\r' then ['\\', 'r']
  else if c = '\t' then ['\\', 't']
  else if c.toNat = 8 then ['\\', 'b']
  else if c.toNat = 12 then ['\\', 'f']
  else if c.toNat < 32 then
    ['\\', 'u', '0', '0', hexDigit (c.toNat / 16), hexDigit (c.toNat % 16)]
  else [c]

def quoted (s : String) : List Char :=
  '"' :: (s.toList.flatMap escaped ++ ['"'])

mutual

/-- The text of a tree without blanks. -/
def compact : Json → List Char
  | null => "null".toList
  | bool true => "true".toList
  | bool false => "false".toList
  | integer i => Text.signedDigits i
  | decimal written => written.toList
  | string s => quoted s
  | array items => '[' :: compactItems items
  | object members => '\x7b' :: compactMembers members
  | unusable => []
  | broken => []

/-- Items with commas between and the closing bracket. -/
def compactItems : List Json → List Char
  | [] => [']']
  | [last] => compact last ++ [']']
  | item :: rest => compact item ++ ',' :: compactItems rest

/-- Members with commas between and the closing brace. -/
def compactMembers : List (String × Json) → List Char
  | [] => ['\x7d']
  | [(name, last)] => quoted name ++ ':' :: (compact last ++ ['\x7d'])
  | (name, value) :: rest => quoted name ++ ':' :: (compact value ++ ',' :: compactMembers rest)

end

/-- The text of a tree without blanks. -/
def text (j : Json) : String := String.ofList j.compact

/-- A new line, indented by two blanks for each level. -/
def newLine (level : Nat) : List Char := '\n' :: List.replicate (2 * level) ' '

mutual

/-- The text of a tree with a line for each item and member, inside `level` others. -/
def indented (level : Nat) : Json → List Char
  | array [] => ['[', ']']
  | array items => '[' :: indentedItems (level + 1) items
  | object [] => ['\x7b', '\x7d']
  | object members => '\x7b' :: indentedMembers (level + 1) members
  | j => compact j

/-- Items on lines of their own and the closing bracket on the next. -/
def indentedItems (level : Nat) : List Json → List Char
  | [] => newLine (level - 1) ++ [']']
  | [last] => newLine level ++ indented level last ++ newLine (level - 1) ++ [']']
  | item :: rest => newLine level ++ indented level item ++ ',' :: indentedItems level rest

/-- Members on lines of their own and the closing brace on the next. -/
def indentedMembers (level : Nat) : List (String × Json) → List Char
  | [] => newLine (level - 1) ++ ['\x7d']
  | [(name, last)] =>
    newLine level ++ quoted name ++ ':' :: ' ' :: indented level last ++
      newLine (level - 1) ++ ['\x7d']
  | (name, value) :: rest =>
    newLine level ++ quoted name ++ ':' :: ' ' :: indented level value ++
      ',' :: indentedMembers level rest

end

/-- The text of a tree with a line for each item and member. -/
def prettyText (j : Json) : String := String.ofList (j.indented 0)

mutual

/-- The text of the tree was JSON to its end. -/
def isComplete : Json → Bool
  | array items => areComplete items
  | object members => haveComplete members
  | broken => false
  | _ => true

def areComplete : List Json → Bool
  | [] => true
  | item :: rest => item.isComplete && areComplete rest

def haveComplete : List (String × Json) → Bool
  | [] => true
  | (_, value) :: rest => value.isComplete && haveComplete rest

end

mutual

/-- The tree can be kept as a value: it is complete, has no leaf without a value and nests at
most `depth` arrays and objects. -/
def isStorable (depth : Nat) : Json → Bool
  | array items => depth != 0 && areStorable (depth - 1) items
  | object members => depth != 0 && haveStorable (depth - 1) members
  | broken => false
  | unusable => false
  | _ => true

def areStorable (depth : Nat) : List Json → Bool
  | [] => true
  | item :: rest => item.isStorable depth && areStorable depth rest

def haveStorable (depth : Nat) : List (String × Json) → Bool
  | [] => true
  | (_, value) :: rest => value.isStorable depth && haveStorable depth rest

end

/-- The value of the first member with a name. -/
def get? (j : Json) (name : String) : Option Json :=
  match j with
  | object members => members.lookup name
  | _ => none

end Json

end Almanac
