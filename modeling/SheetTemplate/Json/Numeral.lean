import SheetTemplate.Json

/-!
# Numerals of a JSON text

A number as it stands in a text, its digits still apart, and its two readings. A numeral without fraction and exponent that
fits 64 bits is that whole number; any other is floating-point. Read as part of a document it is as many digits as fit 64
bits times a power of ten, each of the steps rounded (`Numeral.value?`), and too large a number is refused; read by itself it
is the number nearest to its value (`Numeral.nearest`).
-/

namespace SheetTemplate

/-- A number as written: a sign, the digits before and behind the point, and the exponent, of which 0 means none when
`hasExponent` is false. -/
structure Numeral where
  negative : Bool
  whole : List Char
  fraction : List Char
  hasExponent : Bool
  exponent : Int
  deriving DecidableEq

namespace Numeral

/-- The largest whole number of 64 bits. -/
def wordLimit : Nat := 18446744073709551615

/-! ## Reading a numeral -/

/-- The exponent at the start of a text, if there is a well-formed one, with what follows it. No exponent is one of zero;
`none` is an exponent without digits. -/
def takeExponent : List Char → Option (Bool × Int × List Char)
  | 'e' :: rest | 'E' :: rest =>
    let (negative, rest) :=
      match rest with
      | '-' :: rest => (true, rest)
      | '+' :: rest => (false, rest)
      | rest => (false, rest)
    let digits := rest.takeWhile Char.isDigit
    let size : Int := Nat.ofDigitChars 10 digits 0
    if digits = [] then none else some (true, if negative then -size else size, rest.drop digits.length)
  | rest => some (false, 0, rest)

/-- The digits behind a point at the start of a text, with what follows them; `none` is a point without digits. -/
def takeFraction : List Char → Option (List Char × List Char)
  | '.' :: rest =>
    let digits := rest.takeWhile Char.isDigit
    if digits = [] then none else some (digits, rest.drop digits.length)
  | rest => some ([], rest)

/-- The numeral at the start of a text, with what follows it: an optional minus, digits of which the first is zero only if it
stands alone, then perhaps a fraction and an exponent. -/
def take? (cs : List Char) : Option (Numeral × List Char) := do
  let (negative, rest) :=
    match cs with
    | '-' :: rest => (true, rest)
    | rest => (false, rest)
  let whole := rest.takeWhile Char.isDigit
  if whole = [] ∨ (whole.head? = some '0' ∧ 1 < whole.length) then none
  let (fraction, rest) ← takeFraction (rest.drop whole.length)
  let (hasExponent, exponent, rest) ← takeExponent rest
  some (⟨negative, whole, fraction, hasExponent, exponent⟩, rest)

/-! ## Its value -/

/-- Whether the numeral is written as a whole number. -/
def isWhole (n : Numeral) : Bool := n.fraction.isEmpty && !n.hasExponent

/-- The number that the digits before the point spell. -/
def magnitude (n : Numeral) : Nat := Nat.ofDigitChars 10 n.whole 0

/-- The digits before the point with the sign. -/
def wholeValue (n : Numeral) : Int := if n.negative then -n.magnitude else n.magnitude

/-- The number nearest to the value of the numeral. -/
def nearest (n : Numeral) : Binary64 :=
  Binary64.ofDecimal n.negative (Nat.ofDigitChars 10 (n.whole ++ n.fraction) 0) (n.exponent - n.fraction.length)

/-- Takes digits into a number while it fits 64 bits. Returns the number and how many digits are left. -/
def leading (n : Nat) : List Char → Nat × Nat
  | [] => (n, 0)
  | digit :: rest =>
    let longer := Nat.ofDigitChars 10 [digit] n
    if longer ≤ wordLimit then leading longer rest else (n, rest.length + 1)

/-- A number times a power of ten of at most 308 places, rounded after the product or the quotient. -/
def scaled (x : Binary64) (exponent : Int) : Binary64 :=
  let power := Binary64.ofDecimal false 1 exponent.natAbs
  if 0 ≤ exponent then x.mul power else x.div power

/-- The digits that fit 64 bits times the power of ten that is left, each step rounded. The digits behind the point are taken as
they come, also where some before it did not fit. Powers beyond 10 ^ 308 are taken in two steps, after which nothing is left of a
small number; a large one is refused, as is one that is not finite. -/
def stepwise? (n : Numeral) : Option Binary64 :=
  let (start, dropped) := leading 0 n.whole
  let (digits, unread) := leading start n.fraction
  let exponent := n.exponent + dropped - (n.fraction.length - unread : Nat)
  let x := Binary64.ofRatio n.negative digits 1
  if digits = 0 ∨ exponent < -616 then
    some (Binary64.zero n.negative)
  else if 308 < exponent then
    none
  else
    let y := if exponent < -308 then scaled (scaled x (-308)) (exponent + 308) else scaled x exponent
    if y.isFinite then some y else none

/-- The value of a numeral in a document: a whole number where it fits 64 bits and is not a negative zero, otherwise a
floating-point number; `none` beyond those. -/
def value? (n : Numeral) : Option Json :=
  if n.isWhole ∧ n.magnitude ≤ wordLimit then
    if n.negative ∧ (n.magnitude = 0 ∨ twoTo 63 < n.magnitude) then
      some (.float (Binary64.ofRatio true n.magnitude 1))
    else
      some (.int n.wholeValue)
  else
    n.stepwise?.map .float

end Numeral
end SheetTemplate
