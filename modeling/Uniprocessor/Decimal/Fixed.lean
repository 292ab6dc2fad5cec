import Uniprocessor.Decimal.Binary64
import Uniprocessor.Text.Numeral

/-!
# Two decimal places

How percentages and averages are written: the exact value of the float, rounded to hundredths with
ties to even, always with two places and never with an exponent.  The sign is the float's sign, so
a negative zero, and a negative number that rounds to zero, is written `-0.00`.
-/

namespace Uniprocessor

/-- A count of hundredths as a number with two places. -/
def hundredths (n : Nat) : List Char :=
  Text.digits (n / 100) ++ '.' :: Text.paddedDigits 2 (n % 100)

/-- A float with two places. -/
def twoPlaces (x : Float) : String :=
  match Binary64.ofFloat x with
  | .nan => "NaN"
  | .infinite negative => if negative then "-inf" else "inf"
  | .finite negative m q =>
    let text := hundredths (roundDiv (100 * (Binary64.ratio m q).1) (Binary64.ratio m q).2)
    String.ofList (if negative then '-' :: text else text)

end Uniprocessor
