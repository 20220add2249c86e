import Suspension.Text.Combining
import Suspension.Text.Printable

/-!
# Quoted text

The written form of a text constant in a tree dump. A quote and a backslash are escaped, the common
controls have short forms, and every character a reader could not see, or could not tell from its
neighbour, is written by its number. What is left stands for itself, so the form is one line long
and shows each character of the text.
-/

namespace Suspension.Text

/-- The number of a character between braces, in lower-case hexadecimal without leading zeros. -/
def numbered (c : Char) : List Char :=
  '\\' :: 'u' :: '\x7b' :: Nat.toDigits 16 c.toNat ++ ['\x7d']

/-- The written form of one character of a quoted text. Combining characters come before printable
ones, because most of them are both. -/
def quotedChar (c : Char) : List Char :=
  if c = '\x00' then ['\\', '0']
  else if c = '\t' then ['\\', 't']
  else if c = '\r' then ['\\', 'r']
  else if c = '\n' then ['\\', 'n']
  else if c = '\\' ∨ c = '"' then ['\\', c]
  else if isCombining c then numbered c
  else if isPrintable c then [c]
  else numbered c

/-- A text between double quotes. -/
def quoted (s : String) : String :=
  String.ofList ('"' :: s.toList.flatMap quotedChar ++ ['"'])

end Suspension.Text
