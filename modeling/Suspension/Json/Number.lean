/-!
# Written numbers

A number of the format is a sign, digits, a fraction and an exponent. Only whole numbers are ever
used, but every number of a text has to lie in the range of a double, so the range is decided here
in exact arithmetic.

The value that is tested against the range is the one a reader gets that keeps the leading digits
that fit a 64-bit word, rounds them to a double, and multiplies by a power of ten that is itself
rounded to a double.
-/

namespace Suspension.Json

/-- The parts of a written number. -/
structure Numeral where
  negative : Bool
  /-- The digits before the point. -/
  whole : List Char
  /-- The digits after the point, none where there is no point. -/
  fraction : List Char
  /-- The sign and the digits of the exponent, where one is written. -/
  exponent : Option (Bool × List Char)

/-- The value of a decimal digit. -/
def digitValue (c : Char) : Nat :=
  c.toNat - '0'.toNat

/-- The value of a row of decimal digits. -/
def digitsValue (ds : List Char) : Nat :=
  ds.foldl (fun n d ↦ n * 10 + digitValue d) 0

/-- The digits at the start of a text, and the rest. -/
def takeDigits (cs : List Char) : List Char × List Char :=
  cs.span Char.isDigit

namespace Numeral

/-- An exponent at the start of a text, if there is one: the letter, a sign that may be absent, and
at least one digit. -/
def scanExponent : List Char → Option (Option (Bool × List Char) × List Char)
  | c :: cs =>
    if c = 'e' ∨ c = 'E' then
      let (negative, cs) := match cs with
        | '-' :: cs => (true, cs)
        | '+' :: cs => (false, cs)
        | cs => (false, cs)
      match takeDigits cs with
      | ([], _) => none
      | (ds, rest) => some (some (negative, ds), rest)
    else some (none, c :: cs)
  | [] => some (none, [])

/-- A fraction at the start of a text, if there is one: the point and at least one digit. -/
def scanFraction : List Char → Option (List Char × List Char)
  | '.' :: cs =>
    match takeDigits cs with
    | ([], _) => none
    | (ds, rest) => some (ds, rest)
  | cs => some ([], cs)

/-- The digits before the point: a zero that stands alone, or digits that do not start with one. -/
def scanWhole (cs : List Char) : Option (List Char × List Char) :=
  match takeDigits cs with
  | ([], _) => none
  | ('0' :: _ :: _, _) => none
  | (ds, rest) => some (ds, rest)

/-- The number at the start of a text, and the rest. -/
def scan (cs : List Char) : Option (Numeral × List Char) := do
  let (negative, cs) := match cs with
    | '-' :: cs => (true, cs)
    | cs => (false, cs)
  let (whole, cs) ← scanWhole cs
  let (fraction, cs) ← scanFraction cs
  let (exponent, cs) ← scanExponent cs
  return (⟨negative, whole, fraction, exponent⟩, cs)

/-- Appends digits to a significand as long as it fits a 64-bit word. The digits that are left over
come back. -/
def absorb (significand : Nat) : List Char → Nat × List Char
  | [] => (significand, [])
  | d :: ds =>
    let next := significand * 10 + digitValue d
    if next < UInt64.size then absorb next ds else (significand, d :: ds)

/-- The double nearest to a natural number below the range limit, an even significand preferred in
the middle between two. -/
def nearestDouble (n : Nat) : Nat :=
  let step := Nat.pow 2 (n.log2 + 1 - 53)
  let kept := n / step
  let cut := 2 * (n % step)
  if cut < step ∨ (cut = step ∧ kept % 2 = 0) then kept * step else (kept + 1) * step

/-- The least number that rounds to infinity instead of the largest double. -/
def rangeLimit : Nat :=
  Nat.pow 2 1024 - Nat.pow 2 970

/-- Whether the number lies in the range of a double. -/
def isFinite (n : Numeral) : Bool :=
  let (significand, dropped) := absorb 0 n.whole
  let (significand, spare) := absorb significand n.fraction
  let written : Int := match n.exponent with
    | some (true, ds) => -(digitsValue ds : Int)
    | some (false, ds) => digitsValue ds
    | none => 0
  let power : Int := written + dropped.length - (n.fraction.length - spare.length : Nat)
  significand == 0 || decide (power < 0) ||
    (decide (power ≤ 308) &&
      decide (nearestDouble significand * nearestDouble (Nat.pow 10 power.toNat) < rangeLimit))

/-- The value of a number without fraction and exponent. Negative zero is none. -/
def wholeValue? (n : Numeral) : Option Int :=
  if n.exponent.isSome || !n.fraction.isEmpty then none
  else match n.negative, digitsValue n.whole with
    | true, 0 => none
    | true, value => some (-(value : Int))
    | false, value => some value

/-- The number in one spelling: a small letter before the exponent and no plus sign. -/
def text (n : Numeral) : String :=
  let sign := if n.negative then ['-'] else []
  let fraction := if n.fraction.isEmpty then [] else '.' :: n.fraction
  let exponent := match n.exponent with
    | some (true, ds) => 'e' :: '-' :: ds
    | some (false, ds) => 'e' :: ds
    | none => []
  String.ofList (sign ++ n.whole ++ fraction ++ exponent)

end Numeral

end Suspension.Json
