import Uniprocessor.Decimal.Binary64

/-!
# The shortest decimal of a float

Among the decimals `d · 10^k` that round to a given positive float, the ones with the largest `k`
have the fewest digits, and of those the one nearest to the float is taken.  The decimals that
round to `m · 2^q` form an interval: it reaches half a unit up, and half a unit down, or a quarter
where `m` is the least significand and the floats below are twice as dense.  Its ends belong to it
exactly if `m` is even, because ties go to even.

For a grid `10^k` only the two neighbours of the float on the grid have to be tried: if any grid
point lies in the interval, one of them does.

* `Decimal.neighbours` --- float, interval and grid step, scaled to natural numbers;
* `Decimal.onGrid?` --- the nearest point of one grid that lies in the interval;
* `Decimal.shortest` --- digits and exponent of the coarsest such point.
-/

namespace Uniprocessor

/-- The number `digits · 10^exponent`. -/
structure Decimal where
  digits : Nat
  exponent : Int
  deriving Repr, DecidableEq

namespace Decimal

/-- A float `value`, the ends `low` and `high` of the interval that rounds to it, and the grid step
`step`, all in one unit; `closed` says whether the ends belong to the interval. -/
structure Neighbours where
  low : Nat
  value : Nat
  high : Nat
  step : Nat
  closed : Bool

/-- The interval of `m · 2^q` and the step `10^k`, in a unit that makes all of them integral.  The
interval is first counted in quarters of `2^q`. -/
def neighbours (m : Nat) (q : Int) (k : Int) : Neighbours :=
  let quarter := q - 2
  let binary := if 0 ≤ quarter then 2 ^ quarter.toNat else 1
  let fine := if 0 ≤ quarter then 1 else 2 ^ (-quarter).toNat
  let coarse := if 0 ≤ k then 1 else 10 ^ (-k).toNat
  let decimal := if 0 ≤ k then 10 ^ k.toNat else 1
  let down := if m == 2 ^ 52 && q != -1074 then 1 else 2
  { low := (4 * m - down) * binary * coarse
    value := 4 * m * binary * coarse
    high := (4 * m + 2) * binary * coarse
    step := decimal * fine
    closed := m % 2 == 0 }

/-- Whether the `d`-th grid point lies in the interval. -/
def Neighbours.holds (n : Neighbours) (d : Nat) : Bool :=
  if n.closed then n.low ≤ d * n.step && d * n.step ≤ n.high
  else n.low < d * n.step && d * n.step < n.high

/-- The grid point nearest to the value that lies in the interval; of two equally near ones the
even one. -/
def Neighbours.nearest? (n : Neighbours) : Option Nat :=
  let below := n.value / n.step
  let upper := n.value % n.step
  let preferBelow := 2 * upper < n.step || (2 * upper == n.step && below % 2 == 0)
  if n.holds below && (preferBelow || !n.holds (below + 1)) then some below
  else if n.holds (below + 1) then some (below + 1)
  else none

/-- The shortest decimal on the grid `10^k`, if the interval of `m · 2^q` meets the grid. -/
def onGrid? (m : Nat) (q : Int) (k : Int) : Option Decimal :=
  (neighbours m q k).nearest?.map fun d => ⟨d, k⟩

/-- An exponent `k` with `m · 2^q < 10^k`, at most two above the least one: `30103 / 100000` is
just above the decimal logarithm of two. -/
def upperExponent (m : Nat) (q : Int) : Int :=
  (m.log2 + 1 + q) * 30103 / 100000 + 1

/-- The shortest decimal of the positive float `m · 2^q`.  Seventeen digits always suffice, so the
grids tried reach from above the float to well below its seventeenth digit. -/
def shortest (m : Nat) (q : Int) : Decimal :=
  ((List.range 24).findSome? fun (i : Nat) => onGrid? m q (upperExponent m q - i)).getD ⟨m, 0⟩

end Decimal

end Uniprocessor
