import Chomsky.Decimal.Shortest
import Chomsky.Json.Value

/-!
# Printing JSON

A JSON value as text, with four spaces for each level of nesting and one item or
member in a line. Empty arrays and objects stay on the line they begin on.

## Main definitions

* `quoteJson`: A text as a JSON string.
* `Json.pretty`: A value as text.
-/

namespace Chomsky

/-- A hexadecimal digit in lower case. -/
def hexChar (n : Nat) : Char := if n < 10 then Char.ofNat (48 + n) else Char.ofNat (87 + n)

/-- A character of a JSON string. Quotes, backslashes and control characters are
    escaped, and all others stand for themselves. -/
def escapeJson (c : Char) : List Char :=
  if c = '"' then ['\\', '"']
  else if c = '\\' then ['\\', '\\']
  else if c = '\x08' then ['\\', 'b']
  else if c = '\x0c' then ['\\', 'f']
  else if c = '\n' then ['\\', 'n']
  else if c = '\r' then ['\\', 'r']
  else if c = '\t' then ['\\', 't']
  else if c.toNat < 0x20 then
    ['\\', 'u', '0', '0', hexChar (c.toNat / 16), hexChar (c.toNat % 16)]
  else [c]

/-- A text as a JSON string. -/
def quoteJson (s : String) : String :=
  String.ofList ('"' :: s.toList.flatMap escapeJson ++ ['"'])

/-- A number as text. -/
def Number.text : Number → String
  | natural n => toString n
  | negative n => "-" ++ toString (n + 1)
  | float x => floatText x

/-- The start of a new line at a level of nesting. -/
def newLine (depth : Nat) : String :=
  String.ofList ('\n' :: List.replicate (4 * depth) ' ')

namespace Json

mutual

/-- A value as text, at a level of nesting. -/
def prettyAt (depth : Nat) : Json → String
  | null => "null"
  | bool true => "true"
  | bool false => "false"
  | number n => n.text
  | string s => quoteJson s
  | array [] => "[]"
  | array (v :: rest) =>
      "[" ++ newLine (depth + 1) ++ prettyAt (depth + 1) v ++ prettyItems (depth + 1) rest ++
        newLine depth ++ "]"
  | object [] => "\x7b\x7d"
  | object ((key, v) :: rest) =>
      "\x7b" ++ newLine (depth + 1) ++ quoteJson key ++ ": " ++ prettyAt (depth + 1) v ++
        prettyMembers (depth + 1) rest ++ newLine depth ++ "\x7d"

/-- Further items of an array, each with the comma in front of it. -/
def prettyItems (depth : Nat) : List Json → String
  | [] => ""
  | v :: rest => "," ++ newLine depth ++ prettyAt depth v ++ prettyItems depth rest

/-- Further members of an object, each with the comma in front of it. -/
def prettyMembers (depth : Nat) : List (String × Json) → String
  | [] => ""
  | (key, v) :: rest =>
      "," ++ newLine depth ++ quoteJson key ++ ": " ++ prettyAt depth v ++
        prettyMembers depth rest

end

/-- A value as text. -/
def pretty (v : Json) : String := prettyAt 0 v

end Json

end Chomsky
