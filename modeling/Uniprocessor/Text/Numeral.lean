/-!
# Numerals

Natural numbers in decimal text.  Writing gives the digits without leading zeros; reading also
takes leading zeros and one plus sign, and refuses a number that does not fit the word it is read
for.
-/

namespace Uniprocessor.Text

/-- The digits of a number, most significant first. -/
def digits (n : Nat) : List Char :=
  Nat.toDigits 10 n

/-- The value of a row of digits. -/
def digitsValue (cs : List Char) : Nat :=
  cs.foldl (fun n c => 10 * n + (c.toNat - '0'.toNat)) 0

/-- The number a text of digits spells, if it lies below `bound`. -/
def readDigits? (bound : Nat) (cs : List Char) : Option Nat :=
  if cs.isEmpty || !cs.all Char.isDigit then none
  else if digitsValue cs < bound then some (digitsValue cs) else none

/-- The number below `bound` that a text spells, which may start with one plus sign. -/
def readNat? (bound : Nat) : List Char → Option Nat
  | '+' :: cs => readDigits? bound cs
  | cs => readDigits? bound cs

/-- Digits of `n` filled up with zeros on the left to at least `width` places. -/
def paddedDigits (width n : Nat) : List Char :=
  List.replicate (width - (digits n).length) '0' ++ digits n

/-- A row of digits without its trailing zeros. -/
def dropTrailingZeros (cs : List Char) : List Char :=
  (cs.reverse.dropWhile (· == '0')).reverse

end Uniprocessor.Text
