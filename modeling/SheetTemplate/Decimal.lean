import SheetTemplate.Binary64

/-!
# Decimal spellings

The fewest decimal digits that read back as a given number, and the ways to lay digits out as text. `Binary64.shortest` looks
for the first decimal grid, from one digit on, that has a point between the two midpoints to the neighbouring numbers; the
number is even exactly when the midpoints themselves read back. A `Decimal.Layout` holds what a format decides: which
magnitudes are written out, how a whole number ends and which way an exact tie goes.
-/

namespace SheetTemplate

/-- The number `digits * 10 ^ exponent`. -/
structure Decimal where
  digits : Nat
  exponent : Int
  deriving DecidableEq

namespace Decimal

/-- Which of two equally near decimals is taken. -/
inductive Tie
  | up
  | even
  deriving DecidableEq

/-- The same number without zeros at the end of its digits, of which at most `count` are taken away. -/
def dropZeros (count : Nat) (d : Decimal) : Decimal :=
  match count with
  | 0 => d
  | count + 1 =>
    if d.digits ≠ 0 ∧ d.digits % 10 = 0 then dropZeros count ⟨d.digits / 10, d.exponent + 1⟩ else d

end Decimal

namespace Binary64

/-- The `p` with `10 ^ (p - 1) ≤ num / den < 10 ^ p`. -/
def decimalPlaces (num den : Nat) : Int :=
  let guess := floorLog2 num den * 30103 / 100000 + 1
  if den * tenTo guess.toNat ≤ num * tenTo (-guess).toNat then guess + 1 else guess

/-- The multiple of `10 ^ exponent` nearest to `num / den` among its two neighbours, if one of them lies between the bounds
`low / den` and `high / den`, which count as inside when `closed`. -/
def onGrid (tie : Decimal.Tie) (closed : Bool) (low num high den : Nat) (exponent : Int) : Option Decimal :=
  let shift := tenTo (-exponent).toNat
  let unit := den * tenTo exponent.toNat
  let below := num * shift / unit
  let above := below + 1
  let inside (d : Nat) : Bool :=
    if closed then low * shift ≤ d * unit && d * unit ≤ high * shift
    else low * shift < d * unit && d * unit < high * shift
  let downward := num * shift - below * unit
  let upward := above * unit - num * shift
  match inside below, inside above with
  | false, false => none
  | true, false => some ⟨below, exponent⟩
  | false, true => some ⟨above, exponent⟩
  | true, true =>
    if downward < upward then some ⟨below, exponent⟩
    else if upward < downward then some ⟨above, exponent⟩
    else
      match tie with
      | .up => some ⟨above, exponent⟩
      | .even => some ⟨if below % 2 = 0 then below else above, exponent⟩

/-- The decimal with the fewest digits that reads back as the magnitude of a finite number other than zero, and of those the
nearest. Seventeen digits always read back. -/
def shortest (tie : Decimal.Tie) (x : Binary64) : Decimal :=
  let quarters := 4 * x.mantissa
  let gapBelow := if x.fraction = 0 ∧ 1 < x.exponentField then 1 else 2
  let unit := twoTo (x.scale - 2).toNat
  let den := twoTo (2 - x.scale).toNat
  let num := quarters * unit
  let places := decimalPlaces num den
  let found := (List.range' 1 17).findSome? fun (count : Nat) =>
    onGrid tie (x.mantissa % 2 = 0) ((quarters - gapBelow) * unit) num ((quarters + 2) * unit) den (places - count)
  (found.getD ⟨0, 0⟩).dropZeros 17

end Binary64

namespace Decimal

/-- How a number is written. -/
structure Layout where
  /-- Whether a number is written out without an exponent, by the place of its first digit (0 for units). -/
  isPlain : Int → Bool
  /-- What follows a whole number that is written out. -/
  wholeTail : List Char
  /-- Which of two equally near decimals is written. -/
  tie : Tie

/-- Digits with a point, without an exponent. -/
def plainChars (wholeTail : List Char) (d : Decimal) : List Char :=
  let digits := Text.digits d.digits
  if 0 ≤ d.exponent then
    digits ++ List.replicate d.exponent.toNat '0' ++ wholeTail
  else
    let places := (-d.exponent).toNat
    if places < digits.length then
      digits.take (digits.length - places) ++ '.' :: digits.drop (digits.length - places)
    else
      '0' :: '.' :: List.replicate (places - digits.length) '0' ++ digits

/-- One digit, the others behind a point, and the power of ten with its sign. -/
def scientificChars (place : Int) (d : Decimal) : List Char :=
  let mantissa :=
    match Text.digits d.digits with
    | [] => []
    | [digit] => [digit]
    | digit :: rest => digit :: '.' :: rest
  mantissa ++ 'e' :: (if place < 0 then '-' else '+') :: Text.digits place.natAbs

/-- The spelling of a finite number. -/
def Layout.chars (layout : Layout) (x : Binary64) : List Char :=
  let sign := if x.isNegative then ['-'] else []
  if x.isZero then
    sign ++ '0' :: layout.wholeTail
  else
    let d := x.shortest layout.tie
    let place := (Text.digits d.digits).length + d.exponent - 1
    sign ++ if layout.isPlain place then plainChars layout.wholeTail d else scientificChars place d

end Decimal
end SheetTemplate
