import Mathlib.Tactic.Ring
import Uniprocessor.Decimal.Shortest
import Uniprocessor.Proofs.Decimal.Rounding

/-!
# The size of a shortest decimal

A decimal that rounds to a positive float is itself positive, and at most twice the float: the
interval of what rounds to a float ends half a unit above it.

* `Decimal.shortest_digits_pos`: the shortest decimal has a significant digit;
* `Decimal.shortest_le`: **the shortest decimal is at most twice the float**.
-/

namespace Uniprocessor.Decimal

open Rounding

variable {m d : Nat} {q k : Int} {n : Neighbours}

/-- The number a decimal stands for. -/
def value (d : Decimal) : ℚ :=
  d.digits * 10 ^ d.exponent

theorem holds_of_nearest? (h : n.nearest? = some d) : n.holds d = true := by
  rw [Neighbours.nearest?] at h
  split at h
  · rename_i hbelow
    rw [Bool.and_eq_true] at hbelow
    obtain rfl := Option.some.inj h
    exact hbelow.1
  · split at h
    · rename_i habove
      obtain rfl := Option.some.inj h
      exact habove
    · exact absurd h (by simp)

/-- A decimal that is found lies in the interval, on its grid. -/
theorem shortest_cases (m : Nat) (q : Int) :
    (∃ k d, shortest m q = ⟨d, k⟩ ∧ (neighbours m q k).holds d = true) ∨
      shortest m q = ⟨m, 0⟩ := by
  rw [shortest]
  cases hfind : (List.range 24).findSome? fun (i : Nat) => onGrid? m q (upperExponent m q - i) with
  | none => exact Or.inr rfl
  | some found =>
    obtain ⟨i, -, hi⟩ := List.exists_of_findSome?_eq_some hfind
    rw [onGrid?, Option.map_eq_some_iff] at hi
    obtain ⟨d, hd, rfl⟩ := hi
    exact Or.inl ⟨_, d, rfl, holds_of_nearest? hd⟩

theorem low_le_of_holds (h : n.holds d = true) : n.low ≤ d * n.step ∧ d * n.step ≤ n.high := by
  rw [Neighbours.holds] at h
  split at h <;> simp only [Bool.and_eq_true, decide_eq_true_eq] at h <;> omega

theorem neighbours_low_pos (h : 0 < m) : 0 < (neighbours m q k).low := by
  have hdown : (if (m == 2 ^ 52 && q != -1074) = true then 1 else 2) < 4 * m := by
    split <;> omega
  refine Nat.mul_pos (Nat.mul_pos (Nat.sub_pos_of_lt hdown) ?_) ?_ <;> split <;> positivity

/-- **The shortest decimal has a significant digit.** -/
theorem shortest_digits_pos (h : 0 < m) : 0 < (shortest m q).digits := by
  rcases shortest_cases m q with ⟨k, d, hshortest, hholds⟩ | hshortest
  · rw [hshortest]
    have hlow := neighbours_low_pos (q := q) (k := k) h
    refine Nat.pos_of_ne_zero fun hzero => ?_
    obtain rfl : d = 0 := hzero
    have := (low_le_of_holds hholds).1
    omega
  · rw [hshortest]
    exact h

/-- A power as a fraction of natural numbers. -/
theorem pow_eq_fraction (b : Nat) (hb : 0 < b) (k : Int) :
    ((if 0 ≤ k then b ^ k.toNat else 1 : Nat) : ℚ) =
      (b : ℚ) ^ k * ((if 0 ≤ k then 1 else b ^ (-k).toNat : Nat) : ℚ) := by
  have hne : (b : ℚ) ≠ 0 := Nat.cast_ne_zero.mpr (Nat.ne_of_gt hb)
  split
  · rename_i hk
    rw [Nat.cast_one, mul_one, Nat.cast_pow, ← zpow_natCast, Int.toNat_of_nonneg hk]
  · rename_i hk
    rw [Nat.cast_one, Nat.cast_pow, ← zpow_natCast, Int.toNat_of_nonneg (by omega), ← zpow_add₀ hne,
      Int.add_right_neg, zpow_zero]

/-- A grid point in the interval is at most half a unit above the float. -/
theorem value_le_of_holds (h : (neighbours m q k).holds d = true) :
    value ⟨d, k⟩ ≤ worth (4 * m + 2) (q - 2) := by
  have hhigh := (low_le_of_holds h).2
  simp only [neighbours] at hhigh
  have hdecimal := pow_eq_fraction 10 (by decide) k
  have hbinary := pow_eq_fraction 2 (by decide) (q - 2)
  -- the unit in which float and grid are compared
  generalize (if 0 ≤ k then 10 ^ k.toNat else 1) = decimal at hhigh hdecimal
  generalize hcoarse : (if 0 ≤ k then 1 else 10 ^ (-k).toNat) = coarse at hhigh hdecimal
  generalize (if 0 ≤ q - 2 then 2 ^ (q - 2).toNat else 1) = binary at hhigh hbinary
  generalize hfine : (if 0 ≤ q - 2 then 1 else 2 ^ (-(q - 2)).toNat) = fine at hhigh hbinary
  have hunit : (0 : ℚ) < coarse * fine := by
    have hpos : 0 < coarse ∧ 0 < fine := by
      rw [← hcoarse, ← hfine]
      constructor <;> split <;> positivity
    exact mul_pos (Nat.cast_pos.mpr hpos.1) (Nat.cast_pos.mpr hpos.2)
  have hcast : (d : ℚ) * (decimal * fine) ≤ (4 * m + 2 : Nat) * binary * coarse := by
    exact_mod_cast hhigh
  rw [hdecimal, hbinary] at hcast
  refine le_of_mul_le_mul_right ?_ hunit
  calc value ⟨d, k⟩ * (coarse * fine) = d * (((10 : Nat) : ℚ) ^ k * coarse * fine) := by
        rw [value, Nat.cast_ofNat]
        ring
    _ ≤ _ := hcast
    _ = worth (4 * m + 2) (q - 2) * (coarse * fine) := by
        rw [worth, Nat.cast_ofNat]
        ring

/-- **The shortest decimal is at most twice the float**, or the significand itself. -/
theorem shortest_le (hm : 0 < m) : value (shortest m q) ≤ max (2 * worth m q) m := by
  rcases shortest_cases m q with ⟨k, d, hshortest, hholds⟩ | hshortest
  · refine le_max_of_le_left ?_
    rw [hshortest]
    calc value ⟨d, k⟩ ≤ worth (4 * m + 2) (q - 2) := value_le_of_holds hholds
      _ ≤ worth (m * 2 ^ 3) (q - 2) := worth_le (by omega) _
      _ = worth m (q + 1) := by rw [worth_shift]; congr 1; omega
      _ = 2 * worth m q := by rw [worth, worth, zpow_add₀ (by norm_num), zpow_one]; ring
  · refine le_max_of_le_right ?_
    rw [hshortest, value, zpow_zero, mul_one]

end Uniprocessor.Decimal
