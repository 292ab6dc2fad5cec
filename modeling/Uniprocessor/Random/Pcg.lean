import Uniprocessor.Basic

/-!
# Permuted congruential generator

A 128-bit linear congruential state with a 64-bit output: the state is stepped, the two halves of
it are combined by exclusive or, and the result is rotated by the six top bits of the state.  The
state and the increment are spread from a 64-bit seed by a smaller generator of the same family.

* `Pcg.ofSeed` --- the generator of a seed;
* `Pcg.word64`, `Pcg.word32` --- the next word;
* `Pcg.below64`, `Pcg.below32` --- the next number below a bound, without bias.

## Bounded draws

For a bound `r` a word `v` is mapped to the high half of `v · r`, and accepted only if the low half
is at most `zone r`, so that every number below `r` has the same count of accepted words.  At least
half of all words are accepted.  Rejection is limited to one full period of the generator: past it
no new word comes, so the limit is never a restriction.
-/

namespace Uniprocessor

/-- A generator: its congruential state and increment. -/
structure Pcg where
  state : BitVec 128
  increment : BitVec 128
  deriving Repr, DecidableEq

namespace Pcg

/-- The multiplier of the congruential step. -/
def multiplier : BitVec 128 := 0x2360ED051FC65DA44385DF649FCCF645#128

/-- The state after one congruential step. -/
def advance (g : Pcg) : Pcg :=
  { g with state := g.state * multiplier + g.increment }

/-- The output of a state. -/
def output (state : BitVec 128) : BitVec 64 :=
  ((state >>> 64).truncate 64 ^^^ state.truncate 64).rotateRight (state >>> 122).toNat

/-- The next 64-bit word. -/
def word64 (g : Pcg) : BitVec 64 × Pcg :=
  (output g.advance.state, g.advance)

/-- The next 32-bit word: the low half of a 64-bit word. -/
def word32 (g : Pcg) : BitVec 32 × Pcg :=
  (g.word64.1.truncate 32, g.word64.2)

/-! ## Seeding -/

/-- A step of the seed spreader. -/
def spread (seed : BitVec 64) : BitVec 64 :=
  seed * 6364136223846793005#64 + 11634580027462260723#64

/-- The output of the seed spreader. -/
def spreadOutput (seed : BitVec 64) : BitVec 32 :=
  (((seed >>> 18) ^^^ seed) >>> 27 |>.truncate 32).rotateRight (seed >>> 59).toNat

/-- The next outputs of the seed spreader. -/
def spreadWords (seed : BitVec 64) : Nat → List (BitVec 32)
  | 0 => []
  | n + 1 => spreadOutput (spread seed) :: spreadWords (spread seed) n

/-- The value of 32-bit words, least significant first. -/
def joinWords : List (BitVec 32) → Nat
  | [] => 0
  | w :: ws => w.toNat + 2 ^ 32 * joinWords ws

/-- The generator of a seed: four words for the state, four for the increment, which is made odd;
the increment is added once and one step is made before the first output. -/
def ofSeed (seed : Nat) : Pcg :=
  let ws := spreadWords (BitVec.ofNat 64 seed) 8
  let state := BitVec.ofNat 128 (joinWords (ws.take 4))
  let increment := BitVec.ofNat 128 (joinWords (ws.drop 4)) ||| 1#128
  advance ⟨state + increment, increment⟩

/-! ## Bounded draws -/

/-- The number of words after which the generator repeats. -/
def period : Nat := 2 ^ 128

/-- The largest accepted low half for a bound `r`, with words of `width` bits: the largest multiple
of `r` by a power of two that fits a word, less one. -/
def zone (width r : Nat) : Nat :=
  r * 2 ^ (width - 1 - r.log2) - 1

/-- The number below `r` that a word stands for. -/
def high (width r v : Nat) : Nat :=
  v * r / 2 ^ width

/-- Whether a word is accepted for a bound. -/
def accepts (width r v : Nat) : Bool :=
  v * r % 2 ^ width ≤ zone width r

/-- Draws words of `width` bits with `next` until one is accepted, at most `attempts` times, and
gives the number below `r` that the last one stands for. -/
def drawBelow (width : Nat) (next : Pcg → BitVec width × Pcg) (r : Nat) :
    Nat → Pcg → Nat × Pcg
  | 0, g => (high width r (next g).1.toNat, (next g).2)
  | attempts + 1, g =>
    let (v, rest) := next g
    if accepts width r v.toNat then (high width r v.toNat, rest)
    else drawBelow width next r attempts rest

/-- The next number below `r`, from 64-bit words. -/
def below64 (r : Nat) (g : Pcg) : Nat × Pcg :=
  drawBelow 64 word64 r period g

/-- The next number below `r`, from 32-bit words. -/
def below32 (r : Nat) (g : Pcg) : Nat × Pcg :=
  drawBelow 32 word32 r period g

end Pcg

end Uniprocessor
