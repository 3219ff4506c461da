import SheetTemplate.Text

/-!
# Binary numbers of 64 bits

A floating-point number as its 64 bits: a sign, eleven bits of exponent and fifty-two bits of fraction. Everything here is
exact arithmetic on natural numbers. `Binary64.ofRatio` takes a fraction to the nearest number, an exact half to the even one;
every other way to build a number goes through it.
-/

namespace SheetTemplate

/-- Two to the power `n`. -/
def twoTo (n : Nat) : Nat := Nat.pow 2 n

/-- Ten to the power `n`. -/
def tenTo (n : Nat) : Nat := Nat.pow 10 n

/-- A floating-point number of 64 bits. -/
structure Binary64 where
  bits : UInt64
  deriving DecidableEq

namespace Binary64

/-! ## The parts of a number -/

def isNegative (x : Binary64) : Bool := twoTo 63 ≤ x.bits.toNat

/-- The eleven bits of the exponent. -/
def exponentField (x : Binary64) : Nat := x.bits.toNat / twoTo 52 % twoTo 11

/-- The fifty-two bits of the fraction. -/
def fraction (x : Binary64) : Nat := x.bits.toNat % twoTo 52

def isFinite (x : Binary64) : Bool := x.exponentField < 2047

def isNaN (x : Binary64) : Bool := x.exponentField = 2047 && x.fraction ≠ 0

def isZero (x : Binary64) : Bool := x.exponentField = 0 && x.fraction = 0

/-- The magnitude of a finite number is `mantissa * 2 ^ scale`. -/
def mantissa (x : Binary64) : Nat :=
  if x.exponentField = 0 then x.fraction else x.fraction + twoTo 52

/-- The magnitude of a finite number is `mantissa * 2 ^ scale`. -/
def scale (x : Binary64) : Int := (max x.exponentField 1 : Nat) - 1075

/-! ## Rounding -/

/-- The number with the given sign and magnitude bits. -/
def ofFields (negative : Bool) (magnitude : Nat) : Binary64 :=
  ⟨UInt64.ofNat (magnitude + if negative then twoTo 63 else 0)⟩

def zero (negative : Bool) : Binary64 := ofFields negative 0

def infinity (negative : Bool) : Binary64 := ofFields negative (2047 * twoTo 52)

def nan : Binary64 := ofFields false (4095 * twoTo 51)

/-- The quotient `num / den` rounded to the nearest whole number, an exact half to the even one. -/
def roundDiv (num den : Nat) : Nat :=
  let q := num / den
  let r := num % den
  if den < 2 * r ∨ (2 * r = den ∧ q % 2 = 1) then q + 1 else q

/-- The largest `l` with `2 ^ l ≤ num / den`. -/
def floorLog2 (num den : Nat) : Int :=
  let guess : Int := (Nat.log2 num : Int) - Nat.log2 den
  if den * twoTo guess.toNat ≤ num * twoTo (-guess).toNat then guess else guess - 1

/-- The number nearest to `num / den`, an exact half rounded to the even mantissa; infinite beyond the largest number. -/
def ofRatio (negative : Bool) (num den : Nat) : Binary64 :=
  if num = 0 then
    zero negative
  else
    let scale := max (floorLog2 num den - 52) (-1074)
    let mantissa := roundDiv (num * twoTo (-scale).toNat) (den * twoTo scale.toNat)
    let magnitude := (scale + 1074).toNat * twoTo 52 + mantissa
    if magnitude < 2047 * twoTo 52 then ofFields negative magnitude else infinity negative

/-- The number nearest to a whole number. -/
def ofInt (n : Int) : Binary64 := ofRatio (n < 0) n.natAbs 1

/-- The number nearest to `digits * 10 ^ exponent`. Far outside the range of finite numbers the power is not computed. -/
def ofDecimal (negative : Bool) (digits : Nat) (exponent : Int) : Binary64 :=
  if digits = 0 then
    zero negative
  else if 400 < exponent then
    infinity negative
  else if exponent + (Text.digits digits).length < -400 then
    zero negative
  else
    ofRatio negative (digits * tenTo exponent.toNat) (tenTo (-exponent).toNat)

/-! ## Arithmetic -/

/-- A finite magnitude as a numerator. -/
def numerator (x : Binary64) : Nat := x.mantissa * twoTo x.scale.toNat

/-- A finite magnitude as a denominator. -/
def denominator (x : Binary64) : Nat := twoTo (-x.scale).toNat

/-- The product of two finite numbers, rounded once. -/
def mul (x y : Binary64) : Binary64 :=
  ofRatio (x.isNegative != y.isNegative) (x.numerator * y.numerator) (x.denominator * y.denominator)

/-- The quotient of two finite numbers, the second not zero, rounded once. -/
def div (x y : Binary64) : Binary64 :=
  ofRatio (x.isNegative != y.isNegative) (x.numerator * y.denominator) (x.denominator * y.numerator)

end Binary64
end SheetTemplate
