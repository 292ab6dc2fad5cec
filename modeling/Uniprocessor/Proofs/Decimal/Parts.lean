import Uniprocessor.Proofs.Decimal.Operations

/-!
# Taking floats apart

Two accounts of what a float stands for are used side by side.  The operations unpack a float into a
sign, a significand and an exponent; what is printed starts from the fields of its bit pattern.  They
agree.

* `Binary64.ofFloat_eq`: **the two accounts agree**;
* `Binary64.finite_of_within`: a float within a bound is finite, and what it stands for is at most
  the bound.
-/

namespace Uniprocessor.Binary64

open Float.Model Float.Model.UnpackedFloat Rounding

/-- What an unpacked float stands for. -/
def ofUnpacked : UnpackedFloat → Binary64
  | .infinity s => .infinite (s == .negative)
  | .notANumber => .nan
  | .zero s => .finite (s == .negative) 0 (-1074)
  | .finite s m e _ => .finite (s == .negative) m e

section Fields

variable (b : BitVec 64)

theorem toNat_unpackMantissa :
    (@unpackMantissa Format.binary64 b).toNat = b.toNat % 2 ^ 52 := by
  rw [unpackMantissa, BitVec.toNat_cast, BitVec.extractLsb_toNat]
  rfl

theorem toNat_unpackExponent :
    (@unpackExponent Format.binary64 b).toNat = b.toNat / 2 ^ 52 % 2 ^ 11 := by
  rw [unpackExponent, BitVec.toNat_cast, BitVec.extractLsb_toNat, Nat.shiftRight_eq_div_pow]
  rfl

theorem toNat_unpackSign :
    (@unpackSign Format.binary64 b).toNat = b.toNat / 2 ^ 63 := by
  rw [unpackSign, BitVec.toNat_cast, BitVec.extractLsb_toNat, Nat.shiftRight_eq_div_pow]
  show b.toNat / 2 ^ 63 % 2 ^ 1 = b.toNat / 2 ^ 63
  have hlt := b.isLt
  omega

theorem unpackSign_eq_negative :
    (Sign.ofBitVec (@unpackSign Format.binary64 b) == .negative) =
      (b.toNat / 2 ^ 63 == 1) := by
  have hlt := b.isLt
  rw [Sign.ofBitVec, ← toNat_unpackSign b]
  by_cases hzero : @unpackSign Format.binary64 b = 0#1
  · rw [if_pos hzero, hzero]
    rfl
  · have hone : (@unpackSign Format.binary64 b).toNat = 1 := by
      have hne : (@unpackSign Format.binary64 b).toNat ≠ 0 := fun heq =>
        hzero (BitVec.eq_of_toNat_eq heq)
      have hlt' := (@unpackSign Format.binary64 b).isLt
      omega
    rw [if_neg hzero, hone]
    rfl

theorem unpackExponent_eq_iff {n : Nat} (h : n < 2 ^ 11) :
    @unpackExponent Format.binary64 b = BitVec.ofNat 11 n ↔
      b.toNat / 2 ^ 52 % 2 ^ 11 = n := by
  rw [← BitVec.toNat_inj, toNat_unpackExponent, BitVec.toNat_ofNat, Nat.mod_eq_of_lt h]

theorem unpackMantissa_eq_zero_iff :
    @unpackMantissa Format.binary64 b = 0#52 ↔ b.toNat % 2 ^ 52 = 0 := by
  rw [← BitVec.toNat_inj, toNat_unpackMantissa]
  rfl

end Fields

/-- A significand of zero needs no case of its own here. -/
theorem ofUnpacked_ofParts (s : Sign) {m : Nat} {e : Int} (h : m ≠ 0 ∨ e = -1074) :
    ofUnpacked (ofParts s m e) = .finite (s == .negative) m e := by
  rw [ofParts]
  split
  · rename_i hm
    rw [h.resolve_left (not_not_intro hm), hm]
    rfl
  · rfl

/-- **What a float stands for does not depend on how it is taken apart.** -/
theorem ofFloat_eq (x : Float) : ofFloat x = ofUnpacked x.toModel.unpack := by
  have hunpack : x.toModel.unpack =
      UnpackedFloat.unpack Format.binary64 x.toModel.toBits.toBitVec := rfl
  have hbits : x.toBits.toNat = x.toModel.toBits.toBitVec.toNat := rfl
  rw [hunpack, unpack_eq]
  generalize x.toModel.toBits.toBitVec = b at hbits ⊢
  simp only [ofFloat, hbits, beq_iff_eq, unpackExponent_eq_iff b (n := 2047) (by decide),
    unpackExponent_eq_iff b (n := 0) (by decide)]
  split
  · rw [if_congr (unpackMantissa_eq_zero_iff b) rfl rfl]
    split
    · rw [ofUnpacked, unpackSign_eq_negative]
    · rfl
  · split
    · rw [ofUnpacked_ofParts _ (Or.inr rfl), unpackSign_eq_negative, toNat_unpackMantissa]
    · rw [ofUnpacked_ofParts _ (Or.inl (by omega)), unpackSign_eq_negative, toNat_unpackMantissa,
        toNat_unpackExponent]

/-- What is within a bound stands for a number within the bound. -/
theorem finite_of_within {B : ℚ} {x : Float} (h : Within B x) :
    ∃ negative m q, ofFloat x = .finite negative m q ∧ m < 2 ^ 53 ∧ worth m q ≤ B := by
  have hcanonical : Canonical x.toModel.unpack := canonical_unpack _
  rw [ofFloat_eq]
  obtain ⟨s, hx, h0⟩ | ⟨s, m, e, hm, hx, hle⟩ := h.atMost.cases
  · rw [hx]
    refine ⟨_, _, _, rfl, by decide, ?_⟩
    rw [worth, Nat.cast_zero, zero_mul]
    exact h0
  · rw [hx] at hcanonical ⊢
    exact ⟨_, _, _, rfl, hcanonical.bits, hle⟩

end Uniprocessor.Binary64
