/-!
# Decimal digits

Numbers and the digits that write them in base ten.
-/

set_option autoImplicit false
set_option relaxedAutoImplicit false

namespace StackCompiler

/-- The number that a run of decimal digits stands for. -/
def natOfDigits (digits : List Char) : Nat :=
  digits.foldl (fun n c => 10 * n + (c.toNat - '0'.toNat)) 0

/-- The decimal digits of a number, without leading zeros. -/
def digitsOfNat (n : Nat) : List Char :=
  Nat.toDigits 10 n

end StackCompiler
