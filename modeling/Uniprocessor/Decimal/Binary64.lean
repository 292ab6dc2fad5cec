import Uniprocessor.Basic

/-!
# The exact value of a float

A finite 64-bit float is a sign and a number `m · 2^q` with a natural `m` and an integer `q`.
Everything that is printed or read exactly starts from this decomposition, in natural-number
arithmetic.

* `Binary64.ofFloat` --- takes a float apart;
* `Binary64.ceil` --- the least natural number not below a float;
* `roundDiv` --- a quotient rounded to the nearest natural number, ties to even.
-/

namespace Uniprocessor

/-- What a float stands for. -/
inductive Binary64 where
  /-- The number `significand · 2^exponent`, negated if `negative`; zero has a sign too. -/
  | finite (negative : Bool) (significand : Nat) (exponent : Int)
  /-- An infinity. -/
  | infinite (negative : Bool)
  /-- Not a number. -/
  | nan
  deriving Repr, DecidableEq

namespace Binary64

/-- Takes a float apart.  The exponent field is biased by `1075` against the exponent of the
integral significand; field `0` marks the numbers without the leading bit. -/
def ofFloat (x : Float) : Binary64 :=
  let bits : Nat := x.toBits.toNat
  let negative := bits / 2 ^ 63 == 1
  let field : Nat := bits / 2 ^ 52 % 2 ^ 11
  let fraction : Nat := bits % 2 ^ 52
  if field == 2047 then if fraction == 0 then .infinite negative else .nan
  else if field == 0 then .finite negative fraction (-1074)
  else .finite negative (2 ^ 52 + fraction) ((field : Int) - 1075)

/-- Numerator and denominator of `m · 2^q`. -/
def ratio (m : Nat) (q : Int) : Nat × Nat :=
  if 0 ≤ q then (m * 2 ^ q.toNat, 1) else (m, 2 ^ (-q).toNat)

/-- The least natural number not below a float; `0` for what is not finite. -/
def ceil (x : Float) : Nat :=
  match ofFloat x with
  | .finite false m q => ((ratio m q).1 + (ratio m q).2 - 1) / (ratio m q).2
  | _ => 0

end Binary64

/-- The natural number nearest to `num / den`; of two equally near ones the even one. -/
def roundDiv (num den : Nat) : Nat :=
  let below := num / den
  let twice := 2 * (num % den)
  if twice < den then below
  else if twice == den then below + below % 2
  else below + 1

end Uniprocessor
