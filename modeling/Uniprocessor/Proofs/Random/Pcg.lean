import Mathlib.Algebra.Group.Even
import Mathlib.Algebra.Ring.Parity
import Mathlib.Data.BitVec
import Mathlib.Logic.Function.Iterate
import Mathlib.Tactic.Ring
import Uniprocessor.Random.Pcg

/-!
# Bounded draws end

A bounded draw takes words until one is accepted, and nothing in the words themselves says that one will
be.  It is the period of the generator that does: its multiplier is one more than a multiple of four and
its increment is odd, so it comes through all states before it repeats, and the state zero gives the
word zero, which is accepted for every bound.

The period is counted bit by bit.  `2 ^ k` steps change the state by an odd multiple of `2 ^ k`, up to a
multiple of `2 ^ (k + 2)` of the state itself.  So if the lowest `k` bits are zero, then bit `k` is zero
as well, or is so after `2 ^ k` more steps.

* `Pcg.exists_iterate_stepFrom`: what `2 ^ k` steps do;
* `Pcg.exists_iterate_eq_zero`: **every generator comes to the state zero**;
* `Pcg.Drawn`: a draw that takes as many words as it needs, and is below its bound (`Drawn.lt`);
* `Pcg.below64_drawn`, `below32_drawn`: **the next number below a bound is drawn so.**
-/

namespace Uniprocessor.Pcg

/-! ## The period -/

/-- The state after one step with an increment. -/
def stepFrom (increment state : BitVec 128) : BitVec 128 :=
  state * multiplier + increment

variable {inc : BitVec 128} {g : Pcg} {r : Nat}

/-- **What `2 ^ k` steps do.** -/
theorem exists_iterate_stepFrom (hodd : Odd inc) (k : Nat) : ∃ b d : BitVec 128, ∀ state,
    (stepFrom inc)^[2 ^ k] state =
      (1 + (2 : BitVec 128) ^ (k + 2) * b) * state + (2 : BitVec 128) ^ k * (2 * d + 1) := by
  induction k with
  | zero =>
    obtain ⟨d, hd⟩ := hodd
    have hmultiplier : (1 : BitVec 128) + (2 : BitVec 128) ^ 2 * (multiplier >>> 2) = multiplier := by
      decide
    refine ⟨multiplier >>> 2, d, fun state => ?_⟩
    rw [Nat.pow_zero, Function.iterate_one, stepFrom, hd, Nat.zero_add, hmultiplier]
    ring
  | succ k ih =>
    obtain ⟨b, d, h⟩ := ih
    -- the two halves of the steps, multiplied out
    refine ⟨b + (2 : BitVec 128) ^ (k + 1) * b * b, d + (2 : BitVec 128) ^ k * b * (2 * d + 1),
      fun state => ?_⟩
    rw [Nat.pow_succ, Nat.mul_two, Function.iterate_add_apply, h, h]
    ring

/-- A number is twice another one, or one more. -/
theorem exists_half (q : BitVec 128) : ∃ h, q = 2 * h ∨ q = 2 * h + 1 := by
  have hlt := q.isLt
  refine ⟨BitVec.ofNat 128 (q.toNat / 2), ?_⟩
  rcases Nat.mod_two_eq_zero_or_one q.toNat with hparity | hparity
  · left
    bv_omega
  · right
    bv_omega

/-- The lowest bits of the state are zero at some time. -/
theorem exists_iterate_low (hodd : Odd inc) (state : BitVec 128) (k : Nat) :
    ∃ n < 2 ^ k, ∃ q, (stepFrom inc)^[n] state = (2 : BitVec 128) ^ k * q := by
  induction k with
  | zero => exact ⟨0, Nat.one_pos, state, by simp⟩
  | succ k ih =>
    obtain ⟨n, hn, q, hq⟩ := ih
    obtain ⟨h, rfl | rfl⟩ := exists_half q
    · refine ⟨n, by omega, h, ?_⟩
      rw [hq]
      ring
    · -- bit `k` is set, and the odd multiple of `2 ^ k` that the steps add clears it
      obtain ⟨b, d, hjump⟩ := exists_iterate_stepFrom hodd k
      refine ⟨2 ^ k + n, by omega, h + d + 1 + (2 : BitVec 128) ^ (k + 1) * b * (2 * h + 1), ?_⟩
      rw [Function.iterate_add_apply, hq, hjump]
      ring

/-- **Every state is followed by the state zero.** -/
theorem exists_iterate_eq_zero (hodd : Odd inc) (state : BitVec 128) :
    ∃ n < period, (stepFrom inc)^[n] state = 0 := by
  obtain ⟨n, hn, q, hq⟩ := exists_iterate_low hodd state 128
  have hzero : (2 : BitVec 128) ^ 128 = 0 := by decide +kernel
  exact ⟨n, hn, by rw [hq, hzero, zero_mul]⟩

theorem advance_increment (g : Pcg) : g.advance.increment = g.increment := by
  cases g
  rfl

theorem iterate_advance (g : Pcg) (n : Nat) :
    advance^[n] g = ⟨(stepFrom g.increment)^[n] g.state, g.increment⟩ := by
  induction n with
  | zero => rfl
  | succ n ih => rw [Function.iterate_succ_apply', ih, Function.iterate_succ_apply']; rfl

/-- **The word zero comes.** -/
theorem exists_word_eq_zero (hodd : Odd g.increment) :
    ∃ n < period, (advance^[n] g).word64.1 = 0 := by
  obtain ⟨n, hn, hzero⟩ := exists_iterate_eq_zero hodd (stepFrom g.increment g.state)
  have hstate : (advance^[n] g).advance.state = 0 := by
    have hnext : (advance^[n] g).advance = advance^[n + 1] g :=
      (Function.iterate_succ_apply' advance n g).symm
    rw [hnext, iterate_advance, Function.iterate_succ_apply]
    exact hzero
  have houtput : output 0 = 0 := by decide
  exact ⟨n, hn, by rw [word64, hstate, houtput]⟩

/-- The increment of a seed is odd. -/
theorem odd_increment_ofSeed (seed : Nat) : Odd (ofSeed seed).increment := by
  obtain ⟨c, hc⟩ : ∃ c : BitVec 128, (ofSeed seed).increment = c ||| 1#128 := ⟨_, rfl⟩
  have hparity : (c ||| 1#128).toNat % 2 = 1 := by
    rw [BitVec.toNat_or]
    exact Nat.or_mod_two_eq_one.mpr (.inr rfl)
  rw [hc]
  obtain ⟨h, heven | hodd⟩ := exists_half (c ||| 1#128)
  · rw [heven] at hparity
    bv_omega
  · exact ⟨h, hodd⟩

/-! ## Draws -/

/-- The number that a word stands for is below the bound. -/
theorem high_lt {width v : Nat} (hr : 0 < r) (hv : v < 2 ^ width) : high width r v < r := by
  rw [high, Nat.div_lt_iff_lt_mul (Nat.two_pow_pos width), Nat.mul_comm r]
  exact Nat.mul_lt_mul_of_pos_right hv hr

/-- A number below `r` is drawn with words of `width` bits: words are taken with `next` until one is
accepted, and the number is what that one stands for. -/
inductive Drawn (width : Nat) (next : Pcg → BitVec width × Pcg) (r : Nat) : Pcg → Nat × Pcg → Prop
  | accepted {g : Pcg} (h : accepts width r (next g).1.toNat = true) :
      Drawn width next r g (high width r (next g).1.toNat, (next g).2)
  | refused {g : Pcg} {outcome : Nat × Pcg} (h : accepts width r (next g).1.toNat = false)
      (hrest : Drawn width next r (next g).2 outcome) : Drawn width next r g outcome

section Draws

variable {width : Nat} {next : Pcg → BitVec width × Pcg} {outcome : Nat × Pcg}

theorem accepts_zero (width r : Nat) : accepts width r 0 = true := by
  simp [accepts]

/-- A draw that comes upon an accepted word takes as many words as it needs. -/
theorem drawBelow_drawn {attempts n : Nat} (hn : n ≤ attempts)
    (h : accepts width r (next ((fun g => (next g).2)^[n] g)).1.toNat = true) :
    Drawn width next r g (drawBelow width next r attempts g) := by
  induction attempts generalizing g n with
  | zero =>
    obtain rfl := Nat.le_zero.mp hn
    exact .accepted h
  | succ attempts ih =>
    rw [drawBelow]
    dsimp only
    split
    · rename_i haccepted
      exact .accepted haccepted
    · rename_i hrefused
      have hrefused := Bool.eq_false_of_not_eq_true hrefused
      cases n with
      | zero => exact absurd (h.symm.trans hrefused) Bool.noConfusion
      | succ n => exact .refused hrefused (ih (Nat.le_of_succ_le_succ hn) h)

/-- **The next number below a bound, from 64-bit words.** -/
theorem below64_drawn (hodd : Odd g.increment) (r : Nat) : Drawn 64 word64 r g (below64 r g) := by
  obtain ⟨n, hn, hzero⟩ := exists_word_eq_zero hodd
  refine drawBelow_drawn (Nat.le_of_lt hn) ?_
  have hstep : (fun g => (word64 g).2) = advance := rfl
  rw [hstep, hzero]
  exact accepts_zero 64 r

/-- **The next number below a bound, from 32-bit words.** -/
theorem below32_drawn (hodd : Odd g.increment) (r : Nat) : Drawn 32 word32 r g (below32 r g) := by
  obtain ⟨n, hn, hzero⟩ := exists_word_eq_zero hodd
  refine drawBelow_drawn (Nat.le_of_lt hn) ?_
  have hstep : (fun g => (word32 g).2) = advance := rfl
  rw [hstep, word32, hzero]
  exact accepts_zero 32 r

/-- A drawn number is below the bound. -/
theorem Drawn.lt (h : Drawn width next r g outcome) (hr : 0 < r) : outcome.1 < r := by
  induction h with
  | accepted _ => exact high_lt hr (next _).1.isLt
  | refused _ _ ih => exact ih

/-- A draw leaves the increment odd. -/
theorem Drawn.odd (h : Drawn width next r g outcome) (hnext : ∀ g, (next g).2 = advance g)
    (hodd : Odd g.increment) : Odd outcome.2.increment := by
  induction h with
  | accepted _ => rwa [hnext, advance_increment]
  | refused _ _ ih => exact ih (by rwa [hnext, advance_increment])

end Draws

end Uniprocessor.Pcg
