import Uniprocessor.Proofs.Decimal.Parts
import Uniprocessor.Proofs.Decimal.Shortest
import Uniprocessor.Proofs.Decimal.Spelling

/-!
# Literals that are read as finite floats

Reading a literal rounds more than once and can overflow, so that what is written for a float need not
be read as that float, nor as a float at all.  If the literal is not far above the integers of a
64-bit word it is read as something finite: dividing by powers of ten does not make the digits
larger, and multiplying them by a small power does not overflow.

* `Literal.divideByPower_within`: dividing by powers of ten stays within any bound;
* `Literal.float?_within`: **a literal without a large exponent is read as a finite float**;
* `Literal.float?_ofFloat`: so is what is written for a float of at most `2^200`.
-/

namespace Uniprocessor.Literal

open Rounding Float.Model Float.Model.UnpackedFloat

/-! ## Powers of ten -/

section Powers

variable {k : Nat} {x : Float} {B : ℚ}

/-- A float with all its bits, the last of them worth between `2^low` and `2^high`. -/
def lastBitBetween (low high : Int) : UnpackedFloat → Bool
  | .finite _ m e _ => decide (2 ^ 52 ≤ m) && decide (low ≤ e) && decide (e ≤ high)
  | _ => false

/-- The powers of ten that floats have exactly. -/
theorem lastBit_smallPower : ∀ k < 23,
    lastBitBetween (-52) 21 (powerOfTen k).toModel.unpack = true := by
  decide +kernel

theorem size_of_lastBitBetween {u : UnpackedFloat} {low high : Int} (hcanonical : Canonical u)
    (h : lastBitBetween low high u = true) (hlow : -52 ≤ low) :
    AtLeastOne u ∧ AtMost (2 ^ (high + 53)) u := by
  cases u with
  | finite s m e hm =>
    simp only [lastBitBetween, Bool.and_eq_true, decide_eq_true_eq] at h
    obtain ⟨⟨hfull, he⟩, he'⟩ := h
    constructor
    · calc (1 : ℚ) = 2 ^ (0 : Int) := (zpow_zero 2).symm
        _ ≤ 2 ^ (e + 52) := zpow_le_zpow_right₀ (by norm_num) (by omega)
        _ = worth (2 ^ 52) e := (worth_pow 52 e).symm
        _ ≤ worth m e := worth_le hfull e
    · calc worth m e ≤ worth (2 ^ 53) e := worth_le (Nat.le_of_lt hcanonical.bits) e
        _ = 2 ^ (e + 53) := worth_pow 53 e
        _ ≤ 2 ^ (high + 53) := zpow_le_zpow_right₀ (by norm_num) (by omega)
  | _ => exact absurd h (by simp [lastBitBetween])

/-- A power of ten that is not in the table of exact ones is rounded from its exact bits. -/
theorem toModel_largePower (h : 23 ≤ k) (hhigh : k ≤ 308) :
    (powerOfTen k).toModel =
      .pack (roundWithAccuracy Format.binary64 .positive (10 ^ k * 2 ^ 53) (-53) .exact) := by
  rw [powerOfTen, Float.ofScientific, dif_neg (by omega)]
  have hk : (k : Int).toNat = k := Int.toNat_natCast k
  show Float.Model.pack (UnpackedFloat.ofScientific Format.binary64 1 (k : Int)) = _
  rw [UnpackedFloat.ofScientific, dif_neg (by decide), if_neg, if_neg, if_pos (by omega),
    UnpackedFloat.mul, hk]
  · rw [mul_comm (10 ^ k)]
    rfl
  · have hbits : ((1 : Nat).log2 : Int) = 0 := rfl
    show ¬ (k : Int) < -(2 ^ 11 + _)
    omega
  · show ¬ (k : Int) > 2 ^ 11
    omega

theorem le_place_largePower (k : Nat) : -53 ≤ place (10 ^ k * 2 ^ 53) (-53) := by
  have hlog := log2_shift_le (m := 10 ^ k) (by positivity) 53
  rw [place_eq]
  omega

theorem rounded_largePower (hB : Representable B) (hle : worth (10 ^ k) 0 ≤ B) :
    Rounded B (roundWithAccuracy Format.binary64 .positive (10 ^ k * 2 ^ 53) (-53) .exact) := by
  refine rounded_of_bits (le_place_largePower k) hB ?_ fun hne => absurd rfl hne
  rw [worth_shift]
  exact hle

/-- The largest finite float. -/
theorem representable_largest : Representable (worth (2 ^ 53 - 1) 971) :=
  ⟨_, _, by decide, by decide, by decide, rfl⟩

theorem power_le_largest (h : k ≤ 308) : worth (10 ^ k) 0 ≤ worth (2 ^ 53 - 1) 971 := by
  have hlargest : 10 ^ k ≤ (2 ^ 53 - 1) * 2 ^ 971 :=
    calc 10 ^ k ≤ 10 ^ (77 * 4) := Nat.pow_le_pow_right (by decide) h
      _ = (10 ^ 77) ^ 4 := pow_mul 10 77 4
      _ ≤ (222 * 2 ^ 248) ^ 4 := Nat.pow_le_pow_left (by decide) 4
      _ = 222 ^ 4 * 2 ^ 21 * 2 ^ 971 := by rw [mul_pow, ← pow_mul, mul_assoc, ← pow_add]
      _ ≤ (2 ^ 53 - 1) * 2 ^ 971 := Nat.mul_le_mul_right _ (by decide)
  exact (worth_le hlargest 0).trans (le_of_eq (worth_shift _ 971 0))

theorem sizable_powerOfTen (h : k ≤ 308) : Sizable (powerOfTen k) := by
  by_cases hsmall : k < 23
  · exact ⟨(size_of_lastBitBetween (canonical_unpack _) (lastBit_smallPower k hsmall)
      (by omega)).1⟩
  · have hlog := log2_shift_le (m := 10 ^ k) (by positivity) 53
    refine ⟨?_⟩
    rw [toModel_largePower (by omega) h, unpack_pack_of_rounded
      (rounded_largePower representable_largest (power_le_largest h)) representable_largest]
    exact roundWithAccuracy_atLeastOne (le_place_largePower k) (by omega)

theorem within_powerOfTen (h : k < 100) : Within (2 ^ (400 : Int)) (powerOfTen k) := by
  by_cases hsmall : k < 23
  · have hsize := (size_of_lastBitBetween (canonical_unpack _) (lastBit_smallPower k hsmall)
      (by omega)).2
    exact ⟨hsize.trans (zpow_le_zpow_right₀ (by norm_num) (by decide))⟩
  · have hB : Representable (2 ^ (400 : Int)) := representable_pow (by decide) (by decide)
    have hle : worth (10 ^ k) 0 ≤ 2 ^ (400 : Int) :=
      calc worth (10 ^ k) 0 ≤ worth (2 ^ (4 * 100)) 0 := by
            refine worth_le ?_ 0
            rw [pow_mul]
            exact (Nat.pow_le_pow_right (by decide) (by omega)).trans
              (Nat.pow_le_pow_left (show 10 ≤ 2 ^ 4 by decide) 100)
        _ = 2 ^ (400 : Int) := worth_pow (4 * 100) 0
    refine ⟨?_⟩
    rw [toModel_largePower (by omega) (by omega), unpack_pack_of_rounded (rounded_largePower hB hle) hB]
    exact (rounded_largePower hB hle).2

/-- **Dividing by powers of ten makes nothing larger.** -/
theorem divideByPower_within (hB : Representable B) (h : Within B x) (k : Nat) :
    Within B (divideByPower x k) := by
  induction x, k using divideByPower.induct with
  | case1 x k hk =>
    rw [divideByPower, if_pos hk]
    exact within_div h (sizable_powerOfTen hk) hB
  | case2 x k hk hzero =>
    rw [divideByPower, if_neg hk, if_pos hzero]
    exact h
  | case3 x k hk hzero ih =>
    rw [divideByPower, if_neg hk, if_neg hzero]
    exact ih (within_div h (sizable_powerOfTen (Nat.le_refl 308)) hB)

/-- Multiplying a word by a small power of ten does not overflow. -/
theorem multiplyByPower?_within (h : Within (2 ^ (64 : Int)) x) (hk : k < 100) :
    ∃ y, multiplyByPower? x k = some y ∧ Within (2 ^ (464 : Int)) y := by
  have hproduct : Within (2 ^ (464 : Int)) (x * powerOfTen k) :=
    within_mul h (within_powerOfTen hk) (representable_pow (by decide) (by decide))
      (le_of_eq (by rw [← zpow_add₀ (by norm_num)]; norm_num))
  refine ⟨x * powerOfTen k, ?_, hproduct⟩
  rw [multiplyByPower?, if_pos (by omega)]
  simp only [not_isInf_of_within hproduct]
  rfl

/-- **Digits scaled by no large power are finite.** -/
theorem scaleFloat?_within (digits : Nat) {exponent : Int} (h : exponent < 100) :
    ∃ y, scaleFloat? digits exponent = some y ∧ Within (2 ^ (464 : Int)) y := by
  rw [scaleFloat?]
  split
  · exact multiplyByPower?_within (within_nearestFloat digits) (by omega)
  · exact ⟨_, rfl, (divideByPower_within (representable_pow (by decide) (by decide))
      (within_nearestFloat digits) _).trans (zpow_le_zpow_right₀ (by norm_num) (by decide))⟩

end Powers

/-! ## Whole literals -/

section Literals

variable {l : Literal} {x : Float} {m : Nat} {q : Int}

/-- A literal without a large exponent. -/
structure Moderate (l : Literal) : Prop where
  whole : l.whole.length ≤ 16
  exponent : ∀ ds, l.exponent = some (false, ds) → Text.digitsValue ds ≤ 80

theorem exponent_pushWhole_le (s : Scaled) (c : Char) :
    (s.pushWhole c).exponent ≤ s.exponent + 1 := by
  rw [Scaled.pushWhole]
  split
  · exact le_refl _
  · show s.exponent ≤ _
    omega

theorem exponent_pushFraction_le (s : Scaled) (c : Char) :
    (s.pushFraction c).exponent ≤ s.exponent := by
  rw [Scaled.pushFraction]
  split
  · exact le_refl _
  · show s.exponent - 1 ≤ _
    omega

/-- Only digits before the point that are dropped raise the exponent. -/
theorem exponent_scaled_le (l : Literal) : l.scaled.exponent ≤ l.whole.length := by
  have hwhole : ∀ (cs : List Char) (s : Scaled),
      (cs.foldl Scaled.pushWhole s).exponent ≤ s.exponent + cs.length := by
    intro cs
    induction cs with
    | nil => exact fun s => by simp
    | cons c cs ih =>
      intro s
      have hone := exponent_pushWhole_le s c
      have hrest := ih (s.pushWhole c)
      rw [List.foldl_cons, List.length_cons]
      omega
  have hfraction : ∀ (cs : List Char) (s : Scaled),
      (cs.foldl Scaled.pushFraction s).exponent ≤ s.exponent := by
    intro cs
    induction cs with
    | nil => exact fun s => le_refl _
    | cons c cs ih => exact fun s => (ih _).trans (exponent_pushFraction_le s c)
  refine (hfraction l.fraction _).trans ((hwhole l.whole _).trans ?_)
  simp

theorem within_zero : Within (2 ^ (464 : Int)) 0.0 := by
  have hunpack : (0.0 : Float).toModel.unpack = .zero .positive := rfl
  refine ⟨?_⟩
  rw [hunpack]
  exact zpow_nonneg (by norm_num) _

theorem magnitude?_within (h : l.Moderate) :
    ∃ y, l.magnitude? = some y ∧ Within (2 ^ (464 : Int)) y := by
  have hscaled := exponent_scaled_le l
  have hwhole := h.whole
  rw [magnitude?]
  cases hexponent : l.exponent with
  | none => exact scaleFloat?_within _ (by omega)
  | some e =>
    obtain ⟨minus, ds⟩ := e
    cases minus with
    | true =>
      dsimp only
      split
      · refine scaleFloat?_within _ ?_
        simp only [shiftedExponent, if_true]
        omega
      · exact ⟨0.0, if_pos (Bool.or_true _), within_zero⟩
    | false =>
      have hds := h.exponent ds hexponent
      have hbound : Text.digitsValue ds < exponentBound := Nat.lt_of_le_of_lt hds (by decide)
      dsimp only
      rw [if_pos hbound]
      refine scaleFloat?_within _ ?_
      simp only [shiftedExponent, Bool.false_eq_true, if_false]
      omega

/-- **A literal without a large exponent is read as a finite float.** -/
theorem float?_within (h : l.Moderate) :
    ∃ y, l.float? = some y ∧ Within (2 ^ (464 : Int)) y := by
  obtain ⟨y, hy, hwithin⟩ := magnitude?_within h
  rw [float?, hy]
  cases l.negative with
  | true => exact ⟨-y, rfl, within_neg hwithin (representable_pow (by decide) (by decide))⟩
  | false => exact ⟨y, rfl, hwithin⟩

/-! ### What is written -/

/-- The place of the point tells how large a decimal is. -/
theorem point_le {d : Decimal} (hpos : 0 < d.digits) {k : Int} (h : d.value < 10 ^ k) :
    (Text.digits d.digits).length + d.exponent ≤ k := by
  have hdigits := Text.pow_le_of_digits hpos
  have hlength := Text.length_digits_pos d.digits
  have hlt : (10 : ℚ) ^ (((Text.digits d.digits).length - 1 : Nat) + d.exponent) < 10 ^ k := by
    refine lt_of_le_of_lt ?_ h
    rw [zpow_add₀ (by norm_num), zpow_natCast, Decimal.value]
    exact mul_le_mul_of_nonneg_right (by exact_mod_cast hdigits) (zpow_nonneg (by norm_num) _)
  have hexponents := (zpow_lt_zpow_iff_right₀ (by norm_num)).mp hlt
  omega

/-- A decimal that is not too large is written without a large exponent. -/
theorem moderate_ofDecimal (negative : Bool) {d : Decimal} (hpos : 0 < d.digits)
    (h : d.value < 10 ^ (61 : Int)) : (ofDecimal negative d).Moderate := by
  have hpoint := point_le hpos h
  have hlength := Text.length_dropTrailingZeros_le (Text.digits d.digits)
  unfold ofDecimal
  generalize Text.dropTrailingZeros (Text.digits d.digits) = ds at hlength ⊢
  have hnone : ∀ ds', (none : Option (Bool × List Char)) = some (false, ds') →
      Text.digitsValue ds' ≤ 80 := fun _ heq => absurd heq (by simp)
  dsimp only
  split
  · rename_i hplain
    simp only [Bool.and_eq_true, decide_eq_true_eq] at hplain
    refine ⟨?_, hnone⟩
    rw [List.length_append, List.length_replicate]
    omega
  · split
    · rename_i hinside
      simp only [Bool.and_eq_true, decide_eq_true_eq] at hinside
      refine ⟨?_, hnone⟩
      rw [List.length_take]
      omega
    · split
      · exact ⟨show 1 ≤ 16 by decide, hnone⟩
      · refine ⟨?_, fun ds' heq => ?_⟩
        · rw [List.length_take]
          omega
        · obtain ⟨hsign, rfl⟩ := Prod.mk.inj (Option.some.inj heq)
          rw [decide_eq_false_iff_not] at hsign
          rw [Text.digitsValue_digits]
          omega

/-- **What is written for a float of at most `2^200` is read as a finite float.** -/
theorem float?_ofFloat (h : Within (2 ^ (200 : Int)) x) :
    ∃ l y, ofFloat? x = some l ∧ l.Proper ∧ l.float? = some y ∧ y.isFinite = true := by
  obtain ⟨negative, m, q, hparts, hbits, hsize⟩ := Binary64.finite_of_within h
  obtain ⟨l, hl, hproper, hmoderate⟩ : ∃ l, ofFloat? x = some l ∧ l.Proper ∧ l.Moderate := by
    rw [ofFloat?, hparts]
    cases m with
    | zero =>
      exact ⟨_, rfl, proper_zero negative, show 1 ≤ 16 by decide, fun _ heq => absurd heq (by simp)⟩
    | succ m =>
      have hpos := Nat.succ_pos m
      refine ⟨_, rfl, proper_ofDecimal _ (Decimal.shortest_digits_pos hpos),
        moderate_ofDecimal _ (Decimal.shortest_digits_pos hpos) ?_⟩
      refine (Decimal.shortest_le hpos).trans_lt (max_lt ?_ ?_)
      · calc 2 * worth (m + 1) q ≤ 2 * 2 ^ (200 : Int) := by linarith
          _ < 10 ^ (61 : Int) := by norm_num
      · calc ((m + 1 : Nat) : ℚ) < (2 ^ 53 : Nat) := Nat.cast_lt.mpr hbits
          _ < 10 ^ (61 : Int) := by norm_num
  obtain ⟨y, hy, hwithin⟩ := float?_within hmoderate
  exact ⟨l, y, hl, hproper, hy, isFinite_of_within hwithin⟩

end Literals

end Uniprocessor.Literal
