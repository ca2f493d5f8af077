import Chomsky.Text.Printable

/-!
# Quoted Text

A text in double quotes, for messages in which its ends and its odd characters
should be seen.

Quotes and backslashes get a backslash in front, the common control characters
have a letter each, and any other character that does not show by itself is
written by its code point in hexadecimal.

## Main definitions

* `quoted`: A text in quotes.
-/

namespace Chomsky

/-- A character of a quoted text. -/
def quotedChar (c : Char) : List Char :=
  if c = '\x00' then ['\\', '0']
  else if c = '\t' then ['\\', 't']
  else if c = '\r' then ['\\', 'r']
  else if c = '\n' then ['\\', 'n']
  else if c = '"' then ['\\', '"']
  else if c = '\\' then ['\\', '\\']
  else if isPrintable c then [c]
  else '\\' :: 'u' :: '\x7b' :: Nat.toDigits 16 c.toNat ++ ['\x7d']

/-- A text in double quotes. -/
def quoted (s : String) : String :=
  String.ofList ('"' :: s.toList.flatMap quotedChar ++ ['"'])

end Chomsky
