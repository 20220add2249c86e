import Suspension.Text.Combining
import Suspension.Text.Ignorable
import Suspension.Text.Wide

/-!
# The width of a character, and letters that share one shape

Most characters fill one column and wide ones two. A character fills none if it joins the one before
it, if it is made not to be seen, or if it is the vowel or the end of a syllable block that the
first consonant has made room for. In some scripts two letters that meet are written as one shape,
so that one of them takes no column, or gives back a column that was counted.
-/

namespace Suspension.Text

/-- Whether a character is a sign that is written above, below or around its neighbours. -/
def isSurrounding (c : Char) : Bool :=
  inRanges c.toNat
    [(0x605, 0x605), (0x70F, 0x70F), (0x890, 0x891), (0x8E2, 0x8E2), (0xD4E, 0xD4E),
     (0xA8FA, 0xA8FA), (0x111C2, 0x111C3), (0x113D1, 0x113D1), (0x1193F, 0x1193F),
     (0x11941, 0x11941), (0x11A84, 0x11A89), (0x11D46, 0x11D46), (0x11F02, 0x11F02)]

/-- Whether a character is the vowel or the end of a syllable block. -/
def isBlockPart (c : Char) : Bool :=
  inRanges c.toNat [(0x1160, 0x11FF), (0xD7B0, 0xD7C6), (0xD7CB, 0xD7FB)]

/-- The columns that a character fills on its own. The filler for the first consonant of a syllable
block keeps the room of the block, a joiner of consonants is seen where it joins none, and two
letters are written as several. -/
def charWidth (c : Char) : Nat :=
  if c.toNat = 0x115F ∨ c.toNat = 0x17A4 then 2
  else if c.toNat = 0x17D8 then 3
  else if c.toNat = 0x2D7F then 1
  else if isCombining c || isIgnorable c || isBlockPart c || isSurrounding c then 0
  else if isWide c then 2
  else 1

/-- A letter, or a letter with what stands before it, that may share its shape with a letter
before. -/
inductive Letter
  /-- The Arabic letter alef, behind lam. -/
  | alef
  /-- The Hebrew letter lamed, behind alef and a joiner. -/
  | lamed
  /-- The Buginese letter ya, behind a joiner and the vowel sign of the letter a. -/
  | ya
  /-- The letter ya with the vowel sign and the joiner before it. -/
  | vowelYa
  /-- A Tifinagh consonant, behind a consonant and a joiner. -/
  | consonant
  /-- A Tifinagh consonant with the consonant joiner before it. -/
  | joinedConsonant
  /-- One of the tones of Lisu that another tone stands before. -/
  | tone
  /-- The Old Turkic letter i, behind the letter ec and a joiner. -/
  | orkhonI
  /-- A Khmer letter whose form below another letter takes no column of its own. -/
  | subscript
  deriving DecidableEq, Repr

/-- The letter as which a character may share its shape with a letter before it. -/
def letter? (c : Char) : Option Letter :=
  let n := c.toNat
  if inRanges n [(0x622, 0x623), (0x625, 0x625), (0x627, 0x627), (0x671, 0x673), (0x675, 0x675),
      (0x773, 0x774), (0x870, 0x882)] then some .alef
  else if n = 0x5DC then some .lamed
  else if n = 0x1A10 then some .ya
  else if inRanges n [(0x2D31, 0x2D65), (0x2D6F, 0x2D6F)] then some .consonant
  else if n = 0xA4FC ∨ n = 0xA4FD then some .tone
  else if n = 0x10C03 then some .orkhonI
  else if inRanges n [(0x1780, 0x1782), (0x1784, 0x1787), (0x1789, 0x178C), (0x178E, 0x1793),
      (0x1795, 0x1798), (0x179B, 0x179D), (0x17A0, 0x17A0), (0x17A2, 0x17A2), (0x17A7, 0x17A7),
      (0x17AB, 0x17AC), (0x17AF, 0x17AF)] then some .subscript
  else none

/-- Whether a character is a form of the Arabic letter lam. -/
def isLam (c : Char) : Bool :=
  inRanges c.toNat
    [(0x644, 0x644), (0x6B5, 0x6B8), (0x76A, 0x76A), (0x8A6, 0x8A6), (0x8C7, 0x8C7)]

/-- First and last code point of each run of characters that fill no column and keep the Arabic
letters around them apart, in ascending order. -/
def separatingRanges : List (Nat × Nat) :=
  [(0x605, 0x605), (0x890, 0x891), (0x8E2, 0x8E2), (0x9BE, 0x9BE), (0x9D7, 0x9D7), (0xB3E, 0xB3E),
   (0xB57, 0xB57), (0xBBE, 0xBBE), (0xBD7, 0xBD7), (0xCC0, 0xCC0), (0xCC2, 0xCC2), (0xCC7, 0xCC8),
   (0xCCA, 0xCCB), (0xCD5, 0xCD6), (0xD3E, 0xD3E), (0xD4E, 0xD4E), (0xD57, 0xD57), (0xDCF, 0xDCF),
   (0xDDF, 0xDDF), (0x1160, 0x11FF), (0x1715, 0x1715), (0x1734, 0x1734), (0x180E, 0x180E),
   (0x1B35, 0x1B35), (0x1B3B, 0x1B3B), (0x1B3D, 0x1B3D), (0x1B43, 0x1B44), (0x1BAA, 0x1BAA),
   (0x1BF2, 0x1BF3), (0x200C, 0x200D), (0x2065, 0x2069), (0x302E, 0x302F), (0x3164, 0x3164),
   (0xA8FA, 0xA8FA), (0xA953, 0xA953), (0xA9C0, 0xA9C0), (0xD7B0, 0xD7C6), (0xD7CB, 0xD7FB),
   (0xFFA0, 0xFFA0), (0xFFF0, 0xFFF8), (0x111C0, 0x111C0), (0x111C2, 0x111C3), (0x11235, 0x11235),
   (0x1133E, 0x1133E), (0x1134D, 0x1134D), (0x11357, 0x11357), (0x113B8, 0x113B8),
   (0x113C2, 0x113C2), (0x113C5, 0x113C5), (0x113C7, 0x113C9), (0x113CF, 0x113CF),
   (0x113D1, 0x113D1), (0x114B0, 0x114B0), (0x114BD, 0x114BD), (0x115AF, 0x115AF),
   (0x116B6, 0x116B6), (0x11930, 0x11930), (0x1193D, 0x1193D), (0x1193F, 0x1193F),
   (0x11941, 0x11941), (0x11A84, 0x11A89), (0x11D46, 0x11D46), (0x11F02, 0x11F02),
   (0x11F41, 0x11F41), (0x16FF0, 0x16FF1), (0x1D165, 0x1D166), (0x1D16D, 0x1D172),
   (0xE0000, 0xE0000), (0xE0002, 0xE001F), (0xE0080, 0xE00FF), (0xE01F0, 0xE0FFF)]

/-- Whether two Arabic letters meet across a character. -/
def isTransparent (c : Char) : Bool :=
  charWidth c == 0 && !inRanges c.toNat separatingRanges

/-- Whether a character is a mark that is made not to be seen. It changes nothing about how the
letters around it are written. -/
def isIgnorableMark (c : Char) : Bool :=
  inRanges c.toNat [(0x34F, 0x34F), (0x17B4, 0x17B5), (0x180B, 0x180D), (0x180F, 0x180F),
    (0xFE00, 0xFE0F), (0xE0100, 0xE01EF)]

/-- How many columns a character adds before a letter that it shares its shape with, and the letter
that it begins in its turn. `across` says whether a joiner stands between the two. -/
def share? (c : Char) (across : Bool) : Letter → Option (Int × Option Letter)
  | .alef =>
    if isLam c then some (0, none) else if isTransparent c then some (0, some .alef) else none
  | .lamed => if across && c.toNat == 0x05D0 then some (0, none) else none
  | .ya => if across && c.toNat == 0x1A17 then some (0, some .vowelYa) else none
  | .vowelYa => if c.toNat == 0x1A15 then some (0, none) else none
  | .consonant =>
    if c.toNat == 0x2D7F then some (1, some .joinedConsonant)
    else if across && letter? c == some .consonant then some (0, none)
    else none
  | .joinedConsonant => if letter? c == some .consonant then some (-1, none) else none
  | .tone => if inRanges c.toNat [(0xA4F8, 0xA4FB)] then some (0, none) else none
  | .orkhonI => if across && c.toNat == 0x10C32 then some (0, none) else none
  | .subscript => if c.toNat == 0x17D2 then some (-1, none) else none

end Suspension.Text
