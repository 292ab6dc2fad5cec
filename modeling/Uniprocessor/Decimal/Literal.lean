import Uniprocessor.Basic
import Uniprocessor.Decimal.Shortest
import Uniprocessor.Text.Numeral

/-!
# Number literals

The decimal literals of a data file: a sign, digits, an optional fraction, an optional exponent.
A literal is kept as it is spelled, so that the reader of a field decides what it may be: a field
for a count refuses a fraction, a field for a measured quantity takes any literal.

* `Literal.nat?` --- the natural number a plain literal spells;
* `Literal.float?` --- the float a literal is read as;
* `Literal.ofFloat?` --- the literal a float is written as.

## Reading floats

A literal is not rounded to the nearest float.  Its digits, as far as they fit a 64-bit word, are
converted to a float first, and this is then multiplied or divided by a power of ten, so two
roundings meet and the last bit can be off.  Digits that no longer fit are dropped; those dropped
before the point count in the exponent.  A power beyond `10^308` is applied in portions of
`10^308`; multiplying by one is refused, like any result that overflows, and dividing stops early
at zero.
-/

namespace Uniprocessor

/-- A number as it is spelled.  An empty `fraction` means that there is no point; the exponent is a
sign, `true` for minus, and digits. -/
structure Literal where
  negative : Bool
  whole : List Char
  fraction : List Char
  exponent : Option (Bool × List Char)
  deriving Repr, DecidableEq

namespace Literal

/-- The natural number below `bound` that a literal without sign, fraction and exponent spells. -/
def nat? (bound : Nat) (l : Literal) : Option Nat :=
  if l.negative || !l.fraction.isEmpty || l.exponent.isSome then none
  else Text.readDigits? bound l.whole

/-! ## Reading a float -/

/-- The digits of a literal that fit a 64-bit word: a number, a power of ten it is scaled by, and
whether a digit has been dropped. -/
structure Scaled where
  digits : Nat
  exponent : Int
  full : Bool

/-- Takes a digit before the point. -/
def Scaled.pushWhole (s : Scaled) (c : Char) : Scaled :=
  let next := 10 * s.digits + Text.digitsValue [c]
  if s.full || word64 ≤ next then { s with exponent := s.exponent + 1, full := true }
  else { s with digits := next }

/-- Takes a digit after the point. -/
def Scaled.pushFraction (s : Scaled) (c : Char) : Scaled :=
  let next := 10 * s.digits + Text.digitsValue [c]
  if s.full || word64 ≤ next then { s with full := true }
  else { s with digits := next, exponent := s.exponent - 1 }

/-- The digits of a literal, without its exponent.  A digit dropped before the point does not keep
a smaller digit after the point from being taken. -/
def scaled (l : Literal) : Scaled :=
  let whole := l.whole.foldl Scaled.pushWhole ⟨0, 0, false⟩
  l.fraction.foldl Scaled.pushFraction { whole with full := false }

/-- The float `10^k`. -/
def powerOfTen (k : Nat) : Float :=
  Float.ofScientific 1 false k

/-- Divides by `10^k`. -/
def divideByPower (x : Float) (k : Nat) : Float :=
  if k ≤ 308 then x / powerOfTen k
  else if x == 0 then x
  else divideByPower (x / powerOfTen 308) (k - 308)
termination_by k

/-- Multiplies by `10^k`; overflow is refused. -/
def multiplyByPower? (x : Float) (k : Nat) : Option Float :=
  if k ≤ 308 then
    let product := x * powerOfTen k
    if product.isInf then none else some product
  else if x == 0 then some x
  else none

/-- `digits · 10^exponent`, rounded after each step. -/
def scaleFloat? (digits : Nat) (exponent : Int) : Option Float :=
  if 0 ≤ exponent then multiplyByPower? (nearestFloat digits) exponent.toNat
  else some (divideByPower (nearestFloat digits) (-exponent).toNat)

/-- Exponents of this size or more are not computed with. -/
def exponentBound : Nat := 2 ^ 31

/-- The exponent `start`, moved by a written exponent and kept in the range of a 32-bit word. -/
def shiftedExponent (start : Int) (minus : Bool) (amount : Nat) : Int :=
  let bound : Int := exponentBound
  if minus then max (start - amount) (-bound) else min (start + amount) (bound - 1)

/-- The size of the float a literal is read as. -/
def magnitude? (l : Literal) : Option Float :=
  let s := l.scaled
  match l.exponent with
  | none => scaleFloat? s.digits s.exponent
  | some (minus, ds) =>
    if Text.digitsValue ds < exponentBound then
      scaleFloat? s.digits (shiftedExponent s.exponent minus (Text.digitsValue ds))
    else if s.digits == 0 || minus then some 0.0
    else none

/-- The float a literal is read as; a minus sign makes zero negative too. -/
def float? (l : Literal) : Option Float :=
  l.magnitude?.map fun x => if l.negative then -x else x

/-! ## Writing -/

/-- The literal of a natural number. -/
def ofNat (n : Nat) : Literal :=
  ⟨false, Text.digits n, [], none⟩

/-- The literal of a decimal.  The point stands inside or next to the digits while the number has
at most sixteen places before it and at most four zeros directly after it; otherwise it stands
after the first digit, and an exponent follows. -/
def ofDecimal (negative : Bool) (d : Decimal) : Literal :=
  let ds := Text.dropTrailingZeros (Text.digits d.digits)
  let exponent := d.exponent + ((Text.digits d.digits).length - ds.length : Nat)
  let point := ds.length + exponent
  if 0 ≤ exponent && point ≤ 16 then
    ⟨negative, ds ++ List.replicate exponent.toNat '0', ['0'], none⟩
  else if 0 < point && point ≤ 16 then
    ⟨negative, ds.take point.toNat, ds.drop point.toNat, none⟩
  else if -5 < point && point ≤ 0 then
    ⟨negative, ['0'], List.replicate (-point).toNat '0' ++ ds, none⟩
  else
    ⟨negative, ds.take 1, ds.drop 1, some (decide (point < 1), Text.digits (point - 1).natAbs)⟩

/-- The literal of a finite float: its shortest decimal. -/
def ofFloat? (x : Float) : Option Literal :=
  match Binary64.ofFloat x with
  | .finite negative 0 _ => some ⟨negative, ['0'], ['0'], none⟩
  | .finite negative m q => some (ofDecimal negative (Decimal.shortest m q))
  | _ => none

/-- The characters of a literal; an exponent always has a sign. -/
def chars (l : Literal) : List Char :=
  (if l.negative then ['-'] else []) ++ l.whole ++
    (if l.fraction.isEmpty then [] else '.' :: l.fraction) ++
    match l.exponent with
    | none => []
    | some (minus, ds) => 'e' :: (if minus then '-' else '+') :: ds

end Literal

end Uniprocessor
