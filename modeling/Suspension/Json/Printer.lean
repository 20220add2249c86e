import Suspension.Json.Basic

/-!
# Writing JSON

A value is written over several lines: each item of an array and each member of an object on a line
of its own, two columns further in than the bracket that holds it. An array or object without
contents is a pair of brackets.

In strings only what has to be escaped is: the quote, the backslash, and the controls below the
blank, five of which have a letter of their own.
-/

namespace Suspension.Json

/-- A number below sixteen as a hexadecimal digit. -/
def hexDigit (n : Nat) : Char :=
  Char.ofNat (if n < 10 then n + '0'.toNat else n - 10 + 'a'.toNat)

/-- The written form of one character of a string. -/
def escapedChar (c : Char) : List Char :=
  if c = '"' ∨ c = '\\' then ['\\', c]
  else if c = '\x08' then ['\\', 'b']
  else if c = '\x0c' then ['\\', 'f']
  else if c = '\n' then ['\\', 'n']
  else if c = '\r' then ['\\', 'r']
  else if c = '\t' then ['\\', 't']
  else if c.toNat < 0x20 then
    ['\\', 'u', '0', '0', hexDigit (c.toNat / 16), hexDigit (c.toNat % 16)]
  else [c]

/-- A string between its quotes, before the rest of a text. -/
def putString (s : String) (rest : List Char) : List Char :=
  '"' :: (s.toList.flatMap escapedChar ++ '"' :: rest)

/-- The start of a line at a column, before the rest of a text. -/
def putLine (column : Nat) (rest : List Char) : List Char :=
  '\n' :: (List.replicate column ' ' ++ rest)

mutual

/-- A value whose first line starts at a column, before the rest of a text. -/
def put (column : Nat) : Json → List Char → List Char
  | .null, rest => 'n' :: 'u' :: 'l' :: 'l' :: rest
  | .bool true, rest => 't' :: 'r' :: 'u' :: 'e' :: rest
  | .bool false, rest => 'f' :: 'a' :: 'l' :: 's' :: 'e' :: rest
  | .int value, rest => (toString value).toList ++ rest
  | .real text, rest => text.toList ++ rest
  | .str value, rest => putString value rest
  | .arr [], rest => '[' :: ']' :: rest
  | .arr (item :: items), rest =>
    '[' :: putLine (column + 2) (put (column + 2) item
      (putItems (column + 2) items (putLine column (']' :: rest))))
  | .obj [], rest => '\x7b' :: '\x7d' :: rest
  | .obj ((name, value) :: members), rest =>
    '\x7b' :: putLine (column + 2) (putString name (':' :: ' ' :: put (column + 2) value
      (putMembers (column + 2) members (putLine column ('\x7d' :: rest)))))

/-- The items of an array after the first one, each behind a comma. -/
def putItems (column : Nat) : List Json → List Char → List Char
  | [], rest => rest
  | item :: items, rest => ',' :: putLine column (put column item (putItems column items rest))

/-- The members of an object after the first one, each behind a comma. -/
def putMembers (column : Nat) : List (String × Json) → List Char → List Char
  | [], rest => rest
  | (name, value) :: members, rest =>
    ',' :: putLine column (putString name
      (':' :: ' ' :: put column value (putMembers column members rest)))

end

/-- The written form of a value. -/
def print (j : Json) : String :=
  String.ofList (put 0 j [])

end Suspension.Json
