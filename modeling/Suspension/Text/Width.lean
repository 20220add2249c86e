import Suspension.Text.Emoji
import Suspension.Text.Ligature

/-!
# The width of a text

How many columns a text takes where all columns have the same width. It is the sum of the widths of
its characters, but where several characters are shown as one: letters that share a shape, and
pictures that are put together from others, coloured by a modifier, or chosen by a selector. Which
of them that are is seen from the character behind, so the text is read from its end, and what is
kept of the part that was read is what the character before it may join.

A joiner behind a picture and in front of another makes one picture of the two, and the second one
may begin such a picture in its turn. So the width of a chain of pictures is the width of the last.
-/

namespace Suspension.Text

/-- The zero width joiner. -/
def joiner : Char := Char.ofNat 0x200D

/-- A character that chooses among the forms of the one before it. -/
inductive Selector
  /-- A quotation mark as wide as an ideograph. -/
  | wide
  /-- A letter, not a picture. -/
  | text
  /-- A picture, not a letter. -/
  | picture
  deriving DecidableEq, Repr

/-- The selector that a character is. -/
def selector? (c : Char) : Option Selector :=
  if c.toNat = 0xFE01 then some .wide
  else if c.toNat = 0xFE0E then some .text
  else if c.toNat = 0xFE0F then some .picture
  else none

/-- The end of a picture that a joiner and another picture stand behind. -/
inductive Piece
  /-- Nothing yet: the joiner comes first. -/
  | nothing
  /-- The frame of a key. -/
  | keycap
  /-- One letter of a flag. -/
  | flagLetter
  /-- An even number of letters of flags, but not none. -/
  | evenFlagLetters
  /-- An odd number of letters of flags, but not one. -/
  | oddFlagLetters
  /-- The end of a flag's tags, with some tags of letters and of digits before it. The digits come
  first in the text. -/
  | tags (letters digits : Nat)
  deriving DecidableEq, Repr

/-- What a text begins with, as far as a character before it may join it. -/
inductive Start
  | plain
  | letter (l : Letter) (across : Bool)
  /-- The second sign of a Kirat Rai vowel that is written with several. -/
  | vowel
  /-- The end of a Kirat Rai vowel that is written with three signs. -/
  | longVowel
  | modifier
  | flagLetter
  | flagLetters
  | picture
  /-- A joiner in front of a picture, and what stands before the joiner. -/
  | joined (p : Piece)
  deriving DecidableEq, Repr

/-- The part of a text that was read: its first character may be a selector, and what comes behind
it. -/
structure Rest where
  selector : Option Selector := none
  start : Start := .plain
  deriving DecidableEq, Repr

/-- A selector in front of a text. Letters are joined across it, and a picture may be joined across
a selector of pictures. -/
def Rest.select (r : Rest) (s : Selector) : Rest where
  selector := some s
  start :=
    match s, r.start with
    | _, .letter l across => .letter l across
    | .picture, .joined .nothing => .joined .nothing
    | .picture, .joined .keycap => .joined .keycap
    | _, _ => .plain

/-- What is left behind a selector that had nothing to choose. -/
def Start.unselected : Start → Start
  | .letter l across => .letter l across
  | _ => .plain

/-- What a character begins, and the columns it fills, if it joins nothing. -/
def alone (c : Char) : Int × Start :=
  if isFlagLetter c then (1, .flagLetter)
  else if isModifier c then (2, .modifier)
  else if isEmoji c then (2, .picture)
  else (charWidth c,
    match letter? c with
    | some .tone => .letter .tone true
    | some .subscript => .letter .subscript true
    | some l => .letter l false
    | none =>
      if c.toNat = 0x16D67 then .vowel else if c.toNat = 0x16D68 then .longVowel else .plain)

/-- How many columns a character adds in front of a letter it joins, and what stands there then. All
letters but alef are joined across a joiner and across marks that are not seen. -/
def beforeLetter? (c : Char) (l : Letter) (across : Bool) : Option (Int × Start) :=
  if l ≠ .alef ∧ c = joiner then some (0, .letter l true)
  else if l ≠ .alef ∧ isIgnorableMark c then some (0, .letter l across)
  else (share? c across l).map fun (n, next) ↦
    (n, match next with
      | some l => .letter l across
      | none => .plain)

/-- How many columns a character adds in front of a sign of a Kirat Rai vowel that it belongs to. -/
def beforeVowel? (c : Char) (long : Bool) : Option (Int × Start) :=
  if c.toNat = 0x16D63 then some (0, .plain)
  else if long then none
  else if c.toNat = 0x16D67 then some (0, .longVowel)
  else if c.toNat = 0x16D68 then some (1, .vowel)
  else if c.toNat = 0x16D69 then some (0, .plain)
  else none

/-- How many columns a character adds in front of a joiner and a picture, or of pieces that come
before them, and what stands there then. Letters of flags go in pairs from the first one on, so the
number of them decides about the last: where it is even, the last flag is joined to the picture and
fills no column, and where it is odd, the last letter stands alone. -/
def beforePiece? (c : Char) : Piece → Option (Int × Start)
  | .nothing =>
    if c.toNat = 0x20E3 then some (0, .joined .keycap)
    else if isFlagLetter c then some (1, .joined .flagLetter)
    else if isModifier c then some (0, .modifier)
    else if c.toNat = 0xE007F then some (0, .joined (.tags 0 0))
    else if isEmoji c then some (0, .picture)
    else none
  | .keycap => none
  | .flagLetter => if isFlagLetter c then some (-1, .joined .evenFlagLetters) else none
  | .evenFlagLetters =>
    if isFlagLetter c then some (3, .joined .oddFlagLetters)
    else if c = joiner then some (0, .joined .nothing)
    else none
  | .oddFlagLetters =>
    if isFlagLetter c then some (-1, .joined .evenFlagLetters)
    else if c = joiner then some (0, .joined .nothing)
    else none
  | .tags letters digits =>
    if isTagLetter c ∧ digits = 0 ∧ letters < 6 then some (0, .joined (.tags (letters + 1) 0))
    else if isTagDigit c ∧ letters ≤ 4 ∧ digits < 3 then
      some (0, .joined (.tags letters (digits + 1)))
    else if c.toNat = 0x1F3F4 ∧ (3 ≤ letters ∧ digits = 0 ∨ digits = 3) then some (0, .picture)
    else none

/-- How many columns a character adds in front of what it joins, and what stands there then. -/
def join? (c : Char) : Start → Option (Int × Start)
  | .plain => none
  | .letter l across => beforeLetter? c l across
  | .vowel => beforeVowel? c false
  | .longVowel => beforeVowel? c true
  | .modifier =>
    if isModifiable c then some (0, .picture)
    else if c = joiner then some (0, .joined .nothing)
    else none
  | .flagLetter => if isFlagLetter c then some (1, .flagLetters) else none
  | .flagLetters =>
    if isFlagLetter c then some (1, .flagLetters)
    else if c = joiner then some (0, .joined .nothing)
    else none
  | .picture => if c = joiner then some (0, .joined .nothing) else none
  | .joined p => beforePiece? c p

/-- How many columns a character adds that no selector chooses a form of, and what stands there
then. -/
def unselected (c : Char) (s : Start) : Int × Rest :=
  if c.toNat ≤ 0xA0 then (1, {})
  else
    let (n, start) := (join? c s).getD (alone c)
    (n, { start })

/-- How many columns a character adds in front of a text, and what stands there then. -/
def Rest.add (c : Char) (r : Rest) : Int × Rest :=
  match selector? c, r.selector with
  | some s, some .picture => (0, { start := r.start.unselected : Rest }.select s)
  | some s, _ => (0, r.select s)
  | none, none => unselected c r.start
  | none, some .picture =>
    if isStyled c then
      (match r.start with
        | .joined _ => 0
        | _ => 2, { start := .picture })
    else unselected c r.start.unselected
  | none, some .text =>
    if hasTextStyle c then (1, {}) else unselected c r.start.unselected
  | none, some .wide =>
    if inRanges c.toNat [(0x2018, 0x2019), (0x201C, 0x201D)] then (2, {})
    else unselected c r.start.unselected

/-- The columns of some characters, and what they begin with. -/
def columns (cs : List Char) : Int × Rest :=
  cs.foldr (fun c (n, r) ↦
    let (k, r) := r.add c
    (n + k, r)) (0, {})

/-- The columns that a text takes. -/
def width (s : String) : Nat :=
  (columns s.toList).1.toNat

end Suspension.Text
