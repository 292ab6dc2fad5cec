import Mathlib.Data.List.TakeWhile
import Uniprocessor.Basic
import Uniprocessor.Text.Numeral

/-!
# Digits of numbers

The digits that are written for a number are digits, there is at least one, the first is no zero
unless it is the only one, and they are read as the number.  How many there are says how large the
number is.

* `Text.readDigits?_digits`: **what is written for a number below a bound is read as the number**;
* `Text.pow_le_of_digits`: a number with `k + 1` digits is at least `10^k`;
* `Text.dropTrailingZeros_eq_cons`: trailing zeros can be dropped without touching the first digit.
-/

namespace Uniprocessor.Text

variable {n bound : Nat} {c : Char} {cs : List Char}

theorem digits_ne_nil (n : Nat) : digits n ≠ [] :=
  Nat.toDigits_ne_nil

theorem isDigit_of_mem_digits (h : c ∈ digits n) : c.isDigit = true :=
  Nat.isDigit_of_mem_toDigits (by decide) (by decide) h

theorem all_isDigit_digits (n : Nat) : (digits n).all Char.isDigit = true :=
  List.all_eq_true.mpr fun _ => isDigit_of_mem_digits

theorem digitsValue_digits (n : Nat) : digitsValue (digits n) = n :=
  Nat.ofDigitChars_ten_toDigits

/-- **What is written for a number below a bound is read as the number.** -/
theorem readDigits?_digits (h : n < bound) : readDigits? bound (digits n) = some n := by
  rw [readDigits?, if_neg, digitsValue_digits, if_pos h]
  simp [all_isDigit_digits, digits_ne_nil]

theorem digits_of_lt (h : n < 10) : digits n = [n.digitChar] :=
  Nat.toDigits_of_lt_base h

theorem digits_of_le (h : 10 ≤ n) : digits n = digits (n / 10) ++ [(n % 10).digitChar] :=
  Nat.toDigits_of_base_le (by decide) h

theorem digitChar_ne_zero (hpos : 0 < n) (hlt : n < 10) : n.digitChar ≠ '0' := by
  have hall : ∀ m < 10, 0 < m → m.digitChar ≠ '0' := by decide
  exact hall n hlt hpos

/-- A positive number starts with a digit other than zero. -/
theorem digits_eq_cons (h : 0 < n) : ∃ c cs, digits n = c :: cs ∧ c ≠ '0' := by
  induction n using Nat.strongRecOn with
  | ind n ih =>
    by_cases hlt : n < 10
    · exact ⟨n.digitChar, [], digits_of_lt hlt, digitChar_ne_zero h hlt⟩
    · have hle := Nat.le_of_not_lt hlt
      obtain ⟨c, cs, hcs, hc⟩ := ih (n / 10) (by omega) (by omega)
      exact ⟨c, cs ++ [(n % 10).digitChar], by rw [digits_of_le hle, hcs]; rfl, hc⟩

/-- There is no leading zero unless it is the only digit. -/
theorem no_leading_zero (n : Nat) : (digits n).head? = some '0' → (digits n).length = 1 := by
  intro hhead
  by_cases h : 0 < n
  · obtain ⟨c, cs, hcs, hc⟩ := digits_eq_cons h
    rw [hcs] at hhead
    exact absurd (Option.some.inj hhead) hc
  · obtain rfl := Nat.eq_zero_of_not_pos h
    rfl

theorem length_digits_le_iff {k : Nat} (h : 0 < k) : (digits n).length ≤ k ↔ n < 10 ^ k :=
  Nat.length_toDigits_le_iff (by decide) h

theorem length_digits_pos (n : Nat) : 0 < (digits n).length :=
  Nat.length_toDigits_pos

/-- A number with `k + 1` digits is at least `10^k`. -/
theorem pow_le_of_digits (h : 0 < n) : 10 ^ ((digits n).length - 1) ≤ n := by
  by_cases hone : (digits n).length = 1
  · rw [hone]
    exact h
  · have hpos := length_digits_pos n
    refine Nat.le_of_not_lt fun hlt => ?_
    have hle := (length_digits_le_iff (n := n) (k := (digits n).length - 1) (by omega)).mpr hlt
    omega

/-! ## Trailing zeros -/

/-- Dropping zeros at the end leaves a beginning. -/
theorem dropTrailingZeros_initial (cs : List Char) : dropTrailingZeros cs <+: cs := by
  obtain ⟨zeros, hzeros⟩ := List.dropWhile_suffix (· == '0') (l := cs.reverse)
  refine ⟨zeros.reverse, ?_⟩
  rw [dropTrailingZeros, ← List.reverse_append, hzeros, List.reverse_reverse]

/-- A first digit that is no zero stays. -/
theorem dropTrailingZeros_eq_cons (cs : List Char) (h : c ≠ '0') :
    ∃ rest, dropTrailingZeros (c :: cs) = c :: rest := by
  obtain ⟨zeros, hzeros⟩ := dropTrailingZeros_initial (c :: cs)
  cases hrest : dropTrailingZeros (c :: cs) with
  | nil =>
    have hall : (c :: cs).reverse.dropWhile (· == '0') = [] := List.reverse_eq_nil_iff.mp hrest
    rw [List.dropWhile_eq_nil_iff] at hall
    exact absurd (hall c (by simp)) (by simp [h])
  | cons d rest =>
    rw [hrest, List.cons_append] at hzeros
    exact ⟨rest, by rw [(List.cons.inj hzeros).1]⟩

theorem length_dropTrailingZeros_le (cs : List Char) : (dropTrailingZeros cs).length ≤ cs.length :=
  (dropTrailingZeros_initial cs).length_le

theorem all_isDigit_dropTrailingZeros (h : cs.all Char.isDigit = true) :
    (dropTrailingZeros cs).all Char.isDigit = true :=
  List.all_eq_true.mpr fun c hc =>
    List.all_eq_true.mp h c ((dropTrailingZeros_initial cs).subset hc)

end Uniprocessor.Text
