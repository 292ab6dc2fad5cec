/-!
# Ticks and words

Simulated time is counted in ticks from zero.  All the quantities of a run are natural numbers;
the bounds of the machine words they come from matter only where text is read, and are named here
once: identifiers and priorities are 32-bit words, every other quantity is a 64-bit word.
-/

namespace Uniprocessor

/-- Powers of natural numbers are computed by the kernel's own function, not by that of a monoid. -/
@[default_instance 20000]
scoped instance powNat : Pow Nat Nat := instPowNat

/-- The zero that the sum of no numbers is. -/
scoped instance zeroNat : Zero Nat := ⟨0⟩

/-- A point of simulated time; tick `0` is the start of a run. -/
abbrev Tick := Nat

/-- Identifiers and priorities lie below this bound. -/
def word32 : Nat := 2 ^ 32

/-- Ticks, run times, sizes and counts lie below this bound. -/
def word64 : Nat := 2 ^ 64

/-- The float nearest to `n`, ties to even. -/
def nearestFloat (n : Nat) : Float :=
  n.toUInt64.toFloat

/-- Whether `n` is one of `1, 2, 4, 8, …`: zero is not, since `2 ^ log2 0 = 1`. -/
def isPowerOfTwo (n : Nat) : Bool :=
  n == 2 ^ n.log2

end Uniprocessor
