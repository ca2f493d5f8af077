/-!
# Masked Text

A text in which nothing acts on a terminal, for lines that a terminal may show.

Names in a grammar can hold any character, and some would make a terminal ring,
move back, clear or change its colours. The escape character, the bell, the
backspace, the form feed and the delete character are written as `\x` with two
hexadecimal digits. The control characters from U+0080 to U+009F, which can stand
for escape sequences, are written as `\u` with their code point in braces. All
other characters, and the line break among them, are left as they are. Nothing
marks a backslash of the text itself, so a masked text is for reading only.

## Main definitions

* `masked`: A text with its terminal controls written out.
-/

namespace Chomsky

/-- A character of a masked text. -/
def maskedChar (c : Char) : List Char :=
  if c = '\x07' then ['\\', 'x', '0', '7']
  else if c = '\x08' then ['\\', 'x', '0', '8']
  else if c = '\x0c' then ['\\', 'x', '0', 'c']
  else if c = '\x1b' then ['\\', 'x', '1', 'b']
  else if c = '\x7f' then ['\\', 'x', '7', 'f']
  else if 0x80 ≤ c.toNat ∧ c.toNat ≤ 0x9F then
    '\\' :: 'u' :: '\x7b' :: Nat.toDigits 16 c.toNat ++ ['\x7d']
  else [c]

/-- A text with its terminal controls written out. -/
def masked (s : String) : String := String.ofList (s.toList.flatMap maskedChar)

end Chomsky
