import Uniprocessor.Basic
import Uniprocessor.Text.Numeral

/-!
# Spans of wall-clock time

A span is a number of nanoseconds.  It is written in the largest unit of which it holds at least
one, with as many decimals as it takes: `10s`, `1.5s`, `100ms`, `1.499µs`, `999ns`, `0ns`.
-/

namespace Uniprocessor

/-- A length of wall-clock time. -/
structure Span where
  nanoseconds : Nat
  deriving Repr, DecidableEq

namespace Span

/-- A span of whole seconds and further nanoseconds. -/
def ofSeconds (seconds nanoseconds : Nat) : Span :=
  ⟨seconds * 10 ^ 9 + nanoseconds⟩

/-- A span of milliseconds. -/
def ofMilliseconds (n : Nat) : Span :=
  ⟨n * 10 ^ 6⟩

/-- Whole seconds. -/
def seconds (s : Span) : Nat :=
  s.nanoseconds / 10 ^ 9

/-- Nanoseconds beyond the whole seconds. -/
def subsecond (s : Span) : Nat :=
  s.nanoseconds % 10 ^ 9

/-- A span in a unit of `10 ^ places` nanoseconds. -/
def inUnit (places : Nat) (unit : String) (s : Span) : String :=
  let decimals := Text.dropTrailingZeros (Text.paddedDigits places (s.nanoseconds % 10 ^ places))
  let whole := Text.digits (s.nanoseconds / 10 ^ places)
  String.ofList (if decimals.isEmpty then whole else whole ++ '.' :: decimals) ++ unit

/-- The text of a span. -/
def text (s : Span) : String :=
  if 10 ^ 9 ≤ s.nanoseconds then s.inUnit 9 "s"
  else if 10 ^ 6 ≤ s.nanoseconds then s.inUnit 6 "ms"
  else if 10 ^ 3 ≤ s.nanoseconds then s.inUnit 3 "µs"
  else s.inUnit 0 "ns"

end Span

end Uniprocessor
