/-!
# Binary floating-point values

The values of the 64-bit binary format as exact numbers: a mantissa below `2 ^ 53` times a power of
two that is at least `2 ^ (-1074)`. `ofDecimal` gives the value nearest to a decimal number, the
one with the even mantissa if two are equally near, and infinity beyond the largest value.

A mantissa below `2 ^ 52` occurs only with the lowest exponent, so every value has one form and
equality of values is equality of forms. The two zeros are different values.
-/

set_option autoImplicit false
set_option relaxedAutoImplicit false

namespace StackCompiler

inductive Binary64 where
  /-- The value `mantissa * 2 ^ exponent`, or its opposite. -/
  | finite (negative : Bool) (mantissa : Nat) (exponent : Int)
  | infinite (negative : Bool)
  | notANumber
  deriving DecidableEq, Repr

namespace Binary64

def lowestExponent : Int := -1074

def highestExponent : Int := 971

/-- The least mantissa of a value with a higher exponent than the lowest, `2 ^ 52`. -/
def fullMantissa : Nat := Nat.pow 2 52

/-- The quotient rounded to the nearest integer, a half to the even one. -/
def roundDiv (numerator denominator : Nat) : Nat :=
  let quotient := numerator / denominator
  let twice := 2 * (numerator % denominator)
  if denominator < twice || (twice == denominator && quotient % 2 == 1) then quotient + 1
  else quotient

/-- Numerator and denominator of `numerator / (denominator * base ^ exponent)`. -/
def overPower (base numerator denominator : Nat) (exponent : Int) : Nat × Nat :=
  if 0 ≤ exponent then (numerator, denominator * Nat.pow base exponent.toNat)
  else (numerator * Nat.pow base (-exponent).toNat, denominator)

/-- The exponent that leaves a mantissa from `2 ^ 52` on, below `2 ^ 53`, but no lower than the
lowest. The quotient of the leading powers of two is off by less than a factor of two. -/
def exponentFor (numerator denominator : Nat) : Int :=
  let guess : Int := (numerator.log2 : Int) - denominator.log2 - 52
  let scaled := overPower 2 numerator denominator guess
  max lowestExponent (if scaled.1 < fullMantissa * scaled.2 then guess - 1 else guess)

/-- The value nearest to a quotient of positive integers. -/
def ofRatio (negative : Bool) (numerator denominator : Nat) : Binary64 :=
  if numerator == 0 then finite negative 0 lowestExponent
  else
    let exponent := exponentFor numerator denominator
    let scaled := overPower 2 numerator denominator exponent
    let mantissa := roundDiv scaled.1 scaled.2
    let carried := mantissa == 2 * fullMantissa
    let exponent := if carried then exponent + 1 else exponent
    if highestExponent < exponent then infinite negative
    else finite negative (if carried then fullMantissa else mantissa) exponent

/-- The value nearest to `digits * 10 ^ scale`. -/
def ofDecimal (negative : Bool) (digits : Nat) (scale : Int) : Binary64 :=
  let ratio := overPower 10 digits 1 (-scale)
  ofRatio negative ratio.1 ratio.2

end Binary64

end StackCompiler
