import Suspension.Json.Basic
import Suspension.Json.Number

/-!
# Reading JSON

The reader is strict: blanks are the four of the standard, numbers have no leading zeros, strings no
raw controls and no lone surrogates, lists no trailing commas, and nothing but blanks follows the
value. Arrays and objects nest at most `nestingLimit` deep, which is what the recursion of
`readValue` counts down; the items of one array are counted by the length of the text.
-/

namespace Suspension.Json

/-- How many arrays and objects may enclose each other. -/
def nestingLimit : Nat := 127

/-- The blanks that may stand between tokens. -/
def isBlank (c : Char) : Bool :=
  c == ' ' || c == '\n' || c == '\t' || c == '\r'

/-- The text after its leading blanks. -/
def skipBlanks (cs : List Char) : List Char :=
  cs.dropWhile isBlank

/-- The value of a hexadecimal digit. -/
def hexValue? (c : Char) : Option Nat :=
  if '0' ≤ c ∧ c ≤ '9' then some (c.toNat - '0'.toNat)
  else if 'a' ≤ c ∧ c ≤ 'f' then some (c.toNat - 'a'.toNat + 10)
  else if 'A' ≤ c ∧ c ≤ 'F' then some (c.toNat - 'A'.toNat + 10)
  else none

/-- The 16-bit unit written by four hexadecimal digits. -/
def unit? (a b c d : Char) : Option Nat := do
  return (((← hexValue? a) * 16 + (← hexValue? b)) * 16 + (← hexValue? c)) * 16 + (← hexValue? d)

/-- The character that a backslash and a letter stand for. -/
def escaped? : Char → Option Char
  | '"' => some '"'
  | '\\' => some '\\'
  | '/' => some '/'
  | 'b' => some '\x08'
  | 'f' => some '\x0c'
  | 'n' => some '\n'
  | 'r' => some '\r'
  | 't' => some '\t'
  | _ => none

/-- The rest of a string after its opening quote, behind the characters `done` in reverse order. Two
escaped surrogates make one character, and a surrogate on its own is refused. -/
def readString (done : List Char) : List Char → Option (String × List Char)
  | '"' :: rest => some (String.ofList done.reverse, rest)
  | '\\' :: 'u' :: a :: b :: c :: d :: rest =>
    match unit? a b c d with
    | none => none
    | some high =>
      if 0xD800 ≤ high ∧ high < 0xDC00 then
        match rest with
        | '\\' :: 'u' :: e :: f :: g :: h :: rest =>
          match unit? e f g h with
          | none => none
          | some low =>
            if 0xDC00 ≤ low ∧ low < 0xE000 then
              readString (Char.ofNat (0x10000 + (high - 0xD800) * 0x400 + (low - 0xDC00)) :: done)
                rest
            else none
        | _ => none
      else if 0xDC00 ≤ high ∧ high < 0xE000 then none
      else readString (Char.ofNat high :: done) rest
  | '\\' :: c :: rest =>
    match escaped? c with
    | some c => readString (c :: done) rest
    | none => none
  | c :: rest => if c.toNat < 0x20 ∨ c = '\\' then none else readString (c :: done) rest
  | [] => none

/-- The items of an array after its opening bracket and before the first item, given how to read one
item. The first argument bounds their number. -/
def readItems (read : List Char → Option (Json × List Char)) :
    Nat → List Char → Option (List Json × List Char)
  | 0, _ => none
  | bound + 1, cs =>
    match read cs with
    | none => none
    | some (item, cs) =>
      match skipBlanks cs with
      | ',' :: cs => (readItems read bound cs).map fun (items, cs) ↦ (item :: items, cs)
      | ']' :: cs => some ([item], cs)
      | _ => none

/-- The members of an object after its opening brace and before the first name, given how to read
one value. The first argument bounds their number. -/
def readMembers (read : List Char → Option (Json × List Char)) :
    Nat → List Char → Option (List (String × Json) × List Char)
  | 0, _ => none
  | bound + 1, cs =>
    match skipBlanks cs with
    | '"' :: cs =>
      match readString [] cs with
      | none => none
      | some (name, cs) =>
        match skipBlanks cs with
        | ':' :: cs =>
          match read cs with
          | none => none
          | some (value, cs) =>
            match skipBlanks cs with
            | ',' :: cs =>
              (readMembers read bound cs).map fun (members, cs) ↦ ((name, value) :: members, cs)
            | '\x7d' :: cs => some ([(name, value)], cs)
            | _ => none
        | _ => none
    | _ => none

/-- The number at the start of a text. -/
def readNumber (cs : List Char) : Option (Json × List Char) :=
  match Numeral.scan cs with
  | none => none
  | some (n, cs) =>
    if n.isFinite then
      match n.wholeValue? with
      | some value => some (.int value, cs)
      | none => some (.real n.text, cs)
    else none

/-- The value at the start of a text, blanks before it included, and the rest. `bound` is no less
than the length of the text, and the last argument but one says how many more arrays and objects may
be opened. -/
def readValue (bound : Nat) : Nat → List Char → Option (Json × List Char)
  | depth, cs =>
    match skipBlanks cs with
    | 'n' :: 'u' :: 'l' :: 'l' :: cs => some (.null, cs)
    | 't' :: 'r' :: 'u' :: 'e' :: cs => some (.bool true, cs)
    | 'f' :: 'a' :: 'l' :: 's' :: 'e' :: cs => some (.bool false, cs)
    | '"' :: cs => (readString [] cs).map fun (s, cs) ↦ (.str s, cs)
    | '[' :: cs =>
      match depth with
      | 0 => none
      | depth + 1 =>
        match skipBlanks cs with
        | ']' :: cs => some (.arr [], cs)
        | cs => (readItems (readValue bound depth) bound cs).map fun (items, cs) ↦ (.arr items, cs)
    | '\x7b' :: cs =>
      match depth with
      | 0 => none
      | depth + 1 =>
        match skipBlanks cs with
        | '\x7d' :: cs => some (.obj [], cs)
        | cs =>
          (readMembers (readValue bound depth) bound cs).map fun (members, cs) ↦ (.obj members, cs)
    | cs => readNumber cs

/-- The value that a text holds, and nothing else. -/
def read? (text : String) : Option Json :=
  let cs := text.toList
  match readValue (cs.length + 1) nestingLimit cs with
  | some (j, rest) => if (skipBlanks rest).isEmpty then some j else none
  | none => none

end Suspension.Json
