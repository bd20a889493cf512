-- SUMMARY: Decimal numerals below 2^64, read and written.

/-! # Numerals

Counts and ordinals are numbers below `2 ^ 64`. A numeral is a run of at least one ASCII digit,
with an optional plus sign in front; leading zeros are allowed. The written form has neither. -/

namespace LexGen.Text.Numeral

/-- Numbers from here on have no numeral. -/
def bound : Nat := UInt64.size

/-- The number that a run of digits denotes. -/
def readDigits? (digits : List Char) : Option Nat :=
  if digits.isEmpty || !digits.all Char.isDigit then none
  else
    let n := Nat.ofDigitChars 10 digits 0
    if n < bound then some n else none

/-- The number that a numeral denotes. -/
def read? : List Char → Option Nat
  | '+' :: digits => readDigits? digits
  | digits => readDigits? digits

/-- The decimal digits of `n`, without leading zeros. -/
def write (n : Nat) : List Char :=
  Nat.toDigits 10 n

end LexGen.Text.Numeral
