import Uniprocessor.Decimal.Binary64

/-!
# Percentiles

Percentiles of turnaround times, to three significant decimal digits.  Values are sorted into bins:
a value of up to eleven bits has a bin of its own, and a longer one shares a bin with the values
that have the same length and the same eleven leading bits.  The percentile is the largest value
of the bin that holds the value of the wanted rank.
-/

namespace Uniprocessor

/-- Number of bits of a number. -/
def bitLength (n : Nat) : Nat :=
  if n = 0 then 0 else n.log2 + 1

/-- Number of low bits that the bin of a value leaves open. -/
def binWidth (v : Nat) : Nat :=
  bitLength v - 11

/-- The largest value of the bin of a value.  The last bin ends below the largest word. -/
def binTop (v : Nat) : Nat :=
  min (2 ^ 64 - 1) ((v / 2 ^ binWidth v + 1) * 2 ^ binWidth v) - 1

/-- The rank, counted from one, of the quantile `q` of `n` values. -/
def quantileRank (q : Float) (n : Nat) : Nat :=
  max 1 (Binary64.ceil (q * n.toUInt64.toFloat))

/-- The quantile `q` of some values; there is none of no values. -/
def quantile? (q : Float) (values : List Nat) : Option Nat :=
  let sorted := values.mergeSort fun v w => v ≤ w
  sorted[quantileRank q values.length - 1]?.map binTop

end Uniprocessor
