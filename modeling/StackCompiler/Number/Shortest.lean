import StackCompiler.Number.Binary64
import StackCompiler.Number.Digits

/-!
# Shortest decimals

The text of a floating-point value is the decimal number with the fewest digits that reads back as
the value, and of those the nearest to it. It is written positionally with at least one decimal
place if the leading digit stands from ten thousandths up to the sixteenth place before the point,
and with an exponent of at least two digits otherwise.

The numbers that read back as a value are those between the midpoints to its two neighbours, the
midpoints included if the mantissa is even. If some number of a decimal grid lies there, then so
does one of the two grid numbers around the value, and only these are tried.
-/

set_option autoImplicit false
set_option relaxedAutoImplicit false

namespace StackCompiler

/-- The number `digits * 10 ^ exponent`. -/
structure Decimal where
  digits : Nat
  exponent : Int
  deriving DecidableEq, Repr

namespace Decimal

/-- Zeros at the end of the digits go into the exponent. The number of digits bounds how many. -/
def trimWithin : Nat → Decimal → Decimal
  | 0, d => d
  | bound + 1, d =>
    if d.digits % 10 == 0 && d.digits != 0 then trimWithin bound ⟨d.digits / 10, d.exponent + 1⟩
    else d

def trim (d : Decimal) : Decimal :=
  trimWithin (digitsOfNat d.digits).length d

/-- How a decimal is written: positional notation is used for leading digits whose power of ten is
from `lowest` up to `highest`. -/
structure Layout where
  lowest : Int
  highest : Int

def standardLayout : Layout := ⟨-4, 15⟩

/-- An exponent with its sign and at least two digits. -/
def exponentText (exponent : Int) : List Char :=
  let digits := digitsOfNat exponent.natAbs
  (if exponent < 0 then '-' else '+') :: (if digits.length < 2 then '0' :: digits else digits)

def zeros (count : Int) : List Char :=
  List.replicate count.toNat '0'

/-- The text of a decimal without zeros at the end of its digits. -/
def text (style : Layout) (d : Decimal) : List Char :=
  let digits := digitsOfNat d.digits
  let point : Int := digits.length + d.exponent
  if style.lowest ≤ point - 1 && point - 1 ≤ style.highest then
    if point ≤ 0 then '0' :: '.' :: zeros (-point) ++ digits
    else if digits.length ≤ point then digits ++ zeros d.exponent ++ ['.', '0']
    else digits.take point.toNat ++ '.' :: digits.drop point.toNat
  else
    let fraction := digits.drop 1
    digits.take 1 ++ (if fraction.isEmpty then [] else '.' :: fraction) ++
      'e' :: exponentText (point - 1)

end Decimal

namespace Binary64

/-- A positive value among its neighbours, over one denominator: the value, the midpoint below, the
midpoint above, and whether the midpoints read back as the value. -/
structure Surroundings where
  value : Nat
  below : Nat
  above : Nat
  denominator : Nat
  closed : Bool

/-- The value below the lowest mantissa of a binade is only half as far away. -/
def surroundings (mantissa : Nat) (exponent : Int) : Surroundings :=
  let quarter := overPower 2 1 1 (-(exponent - 2))
  let gap := if mantissa == fullMantissa && lowestExponent < exponent then 1 else 2
  { value := 4 * mantissa * quarter.1
    below := (4 * mantissa - gap) * quarter.1
    above := (4 * mantissa + 2) * quarter.1
    denominator := quarter.2
    closed := mantissa % 2 == 0 }

/-- The power of ten of the leading digit of a positive quotient. -/
def leadingPower (numerator denominator : Nat) : Int :=
  if denominator ≤ numerator then (digitsOfNat (numerator / denominator)).length - 1
  else -((digitsOfNat ((denominator - 1) / numerator)).length : Int)

/-- Whether a number of the grid of `10 ^ exponent` reads back as the value. -/
def readsBack (s : Surroundings) (d : Decimal) : Bool :=
  let below := overPower 10 s.below s.denominator d.exponent
  let above := overPower 10 s.above s.denominator d.exponent
  if s.closed then below.1 ≤ d.digits * below.2 && d.digits * above.2 ≤ above.1
  else below.1 < d.digits * below.2 && d.digits * above.2 < above.1

/-- The grid number that reads back as the value, the nearer if both of those around it do, and the
even one of two equally near. -/
def onGrid? (s : Surroundings) (exponent : Int) : Option Decimal :=
  let scaled := overPower 10 s.value s.denominator exponent
  let low : Decimal := ⟨scaled.1 / scaled.2, exponent⟩
  let high : Decimal := ⟨low.digits + 1, exponent⟩
  match readsBack s low, readsBack s high with
  | true, true =>
    let twice := 2 * (scaled.1 % scaled.2)
    if scaled.2 < twice || (twice == scaled.2 && low.digits % 2 == 1) then some high else some low
  | true, false => some low
  | false, true => some high
  | false, false => none

/-- The number with the fewest digits, seventeen at most, that reads back as a positive value. -/
def shortest (mantissa : Nat) (exponent : Int) : Decimal :=
  let s := surroundings mantissa exponent
  let power := leadingPower s.value s.denominator
  let found := (List.range 17).findSome? fun (more : Nat) => onGrid? s (power - (more : Int))
  (found.getD ⟨0, 0⟩).trim

def text : Binary64 → String
  | finite negative mantissa exponent =>
    let decimal := if mantissa == 0 then ⟨0, 0⟩ else shortest mantissa exponent
    (if negative then "-" else "") ++
      String.ofList (decimal.text Decimal.standardLayout)
  | infinite negative => if negative then "-inf" else "inf"
  | notANumber => "nan"

/-- Splits a text at the first character that is one of two. -/
def splitAtMark (small large : Char) (text : List Char) : List Char × List Char :=
  let isMark (c : Char) := c == small || c == large
  (text.takeWhile (!isMark ·), (text.dropWhile (!isMark ·)).drop 1)

def isSign (c : Char) : Bool :=
  c == '-' || c == '+'

/-- Reads the texts that `text` writes, and decimals of any other length. -/
def ofText? (text : String) : Option Binary64 :=
  let negative := text.startsWith "-"
  let unsigned := text.toList.dropWhile isSign
  if unsigned == "inf".toList then some (infinite negative)
  else if unsigned == "nan".toList then some notANumber
  else
    let (significand, power) := splitAtMark 'e' 'E' unsigned
    let (whole, fraction) := splitAtMark '.' '.' significand
    let magnitude := power.dropWhile isSign
    if (whole ++ fraction).isEmpty || !(whole ++ fraction ++ magnitude).all Char.isDigit then none
    else
      let size : Int := natOfDigits magnitude
      let shift := if power.head? == some '-' then -size else size
      some (ofDecimal negative (natOfDigits (whole ++ fraction)) (shift - fraction.length))

end Binary64

end StackCompiler
