import Mathlib
import Uniprocessor.Decimal.Binary64

/-!
# Rounding keeps what can be represented

The operations on floats compute a few leading bits of the exact result and how the rest compares
with them, shift these to the place where the last bit of the float will be, round, and shift once
more if rounding has carried over.  The number of bits and the exponent come out as the format wants
them, provided the bits were computed far enough: `e ≤ place m e`.

Rounding is monotone.  What is needed of this is that it does not pass a number that can be
represented: if the exact result is at most such a number, so is the float.  Two facts about the
leading bits carry this, and shifting preserves them: they are at most the bound, and less than it if
something has been cut off.

* `Rounding.roundWithAccuracy_canonical`: what has been rounded is as the format wants it;
* `Rounding.roundWithAccuracy_atMost`: **rounding does not pass a number that can be represented**;
* `Rounding.unpack_pack`: a float is packed without loss.
-/

namespace Uniprocessor.Rounding

open Float.Model Float.Model.UnpackedFloat

/-! ## Numbers with a binary exponent -/

/-- The number `m · 2^e`. -/
def worth (m : Nat) (e : Int) : ℚ :=
  m * 2 ^ e

section Worth

variable {m n : Nat} {e f : Int}

theorem worth_nonneg (m : Nat) (e : Int) : 0 ≤ worth m e :=
  mul_nonneg (Nat.cast_nonneg m) (zpow_nonneg (by norm_num) e)

theorem worth_le (h : m ≤ n) (e : Int) : worth m e ≤ worth n e :=
  mul_le_mul_of_nonneg_right (Nat.cast_le.mpr h) (zpow_nonneg (by norm_num) e)

theorem worth_lt_iff : worth m e < worth n e ↔ m < n := by
  rw [worth, worth, mul_lt_mul_iff_left₀ (zpow_pos (by norm_num) e), Nat.cast_lt]

theorem worth_shift (m k : Nat) (e : Int) : worth (m * 2 ^ k) e = worth m (e + k) := by
  rw [worth, worth, zpow_add₀ (by norm_num), zpow_natCast, Nat.cast_mul, Nat.cast_pow,
    Nat.cast_ofNat, mul_assoc, mul_comm (2 ^ k)]

theorem worth_pow (k : Nat) (e : Int) : worth (2 ^ k) e = 2 ^ (e + k) := by
  have h := worth_shift 1 k e
  rw [one_mul] at h
  rw [h, worth, Nat.cast_one, one_mul]

theorem worth_add (m n : Nat) (e : Int) : worth m e + worth n e = worth (m + n) e := by
  rw [worth, worth, worth, Nat.cast_add, add_mul]

theorem worth_mul (m n : Nat) (e f : Int) : worth m e * worth n f = worth (m * n) (e + f) := by
  rw [worth, worth, worth, zpow_add₀ (by norm_num), Nat.cast_mul, mul_mul_mul_comm]

end Worth

/-! ## Leading bits -/

section Bits

variable {m M : Nat} {e : Int} {em : ExtendedMantissa} {B : ℚ}

/-- Nothing has been cut off. -/
def Exact (em : ExtendedMantissa) : Prop :=
  em.roundBit = false ∧ em.stickyBit = false

/-- The number with the leading bits `em`, the last of them worth `2^e`, is at most `B`. -/
structure Below (B : ℚ) (e : Int) (em : ExtendedMantissa) : Prop where
  le : worth em.mantissa e ≤ B
  lt : ¬ Exact em → worth em.mantissa e < B

theorem Below.shiftOne (h : Below B e em) : Below B (e + 1) em.shiftRightOne := by
  have heven : worth (em.mantissa / 2 * 2 ^ 1) e = worth (em.mantissa / 2) (e + 1) :=
    worth_shift _ 1 e
  have hle : worth (em.mantissa / 2) (e + 1) ≤ worth em.mantissa e := by
    rw [← heven]
    exact worth_le (by omega) e
  refine ⟨hle.trans h.le, fun hcut => ?_⟩
  by_cases hodd : em.mantissa % 2 = 0
  · refine hle.trans_lt (h.lt fun hexact => hcut ⟨?_, ?_⟩)
    · simp [ExtendedMantissa.shiftRightOne, hodd]
    · simp [ExtendedMantissa.shiftRightOne, hexact.1, hexact.2]
  · refine lt_of_lt_of_le ?_ h.le
    show worth (em.mantissa / 2) (e + 1) < _
    rw [← heven, worth_lt_iff]
    omega

theorem Below.shift (h : Below B e em) (k : Nat) : Below B (e + k) (em >>> k) := by
  induction k with
  | zero =>
    rw [Nat.cast_zero, add_zero]
    exact h
  | succ k ih =>
    have hone := ih.shiftOne
    rw [add_assoc] at hone
    exact_mod_cast hone

theorem mantissa_shift (em : ExtendedMantissa) (k : Nat) :
    (em >>> k).mantissa = em.mantissa / 2 ^ k := by
  induction k with
  | zero => exact (Nat.div_one _).symm
  | succ k ih =>
    show (em >>> k).mantissa / 2 = _
    rw [ih, Nat.div_div_eq_div_mul, pow_succ]

theorem mantissa_ofMantissaAndAccuracy (m : Nat) (acc : Accuracy) :
    (ExtendedMantissa.ofMantissaAndAccuracy m acc).mantissa = m := by
  cases acc with
  | exact => rfl
  | inexact o => cases o <;> rfl

theorem roundedMantissa_of_exact (h : Exact em) : em.roundedMantissa = em.mantissa := by
  obtain ⟨m, roundBit, stickyBit⟩ := em
  obtain ⟨rfl, rfl⟩ := h
  rfl

/-- Rounding leaves the significand as it is or counts it up. -/
theorem roundedMantissa_eq_or (em : ExtendedMantissa) :
    em.roundedMantissa = em.mantissa ∨ em.roundedMantissa = em.mantissa + 1 := by
  obtain ⟨m, roundBit, stickyBit⟩ := em
  cases roundBit <;> cases stickyBit <;>
    simp [ExtendedMantissa.roundedMantissa, ExtendedMantissa.accuracy,
      Accuracy.roundToNearestEven]
  omega

theorem le_roundedMantissa (em : ExtendedMantissa) : em.mantissa ≤ em.roundedMantissa := by
  rcases roundedMantissa_eq_or em with h | h <;> omega

theorem roundedMantissa_le (em : ExtendedMantissa) : em.roundedMantissa ≤ em.mantissa + 1 := by
  rcases roundedMantissa_eq_or em with h | h <;> omega

/-- **Rounding to an integral significand does not pass an integral bound.** -/
theorem Below.rounded {N : Nat} (h : Below (worth N e) e em) : em.roundedMantissa ≤ N := by
  by_cases hexact : Exact em
  · rw [roundedMantissa_of_exact hexact]
    exact Nat.le_of_not_lt fun hlt => absurd h.le (not_le_of_gt (worth_lt_iff.mpr hlt))
  · exact (roundedMantissa_le em).trans (worth_lt_iff.mp (h.lt hexact))

end Bits

/-! ## The place of the last bit -/

section Place

variable {m M : Nat} {e : Int}

/-- The exponent the format wants for a number. -/
def place (m : Nat) (e : Int) : Int :=
  Format.binary64.targetExponent (totalExponent m e)

theorem place_eq (m : Nat) (e : Int) : place m e = max (m.log2 + 1 + e - 53) (-1074) :=
  rfl

/-- How far a number is shifted to come to its place. -/
def steps (m : Nat) (e : Int) : Nat :=
  (place m e - e).toNat

/-- Significand and exponent as the format wants them: at most 53 bits, and exactly 53 unless the
exponent is the least. -/
structure Canon (m : Nat) (e : Int) : Prop where
  bits : m < 2 ^ 53
  least : -1074 ≤ e
  full : 2 ^ 52 ≤ m ∨ e = -1074

/-- **What stands at its place is as the format wants it.** -/
theorem canon_shift (h : e ≤ place m e) : Canon (m / 2 ^ steps m e) (e + steps m e) := by
  have hsteps : e + steps m e = place m e := by
    rw [steps, Int.toNat_of_nonneg (by omega)]
    omega
  have hplace := place_eq m e
  refine ⟨?_, by omega, ?_⟩
  · rw [Nat.div_lt_iff_lt_mul (by positivity), ← pow_add]
    exact Nat.lt_log2_self.trans_le (Nat.pow_le_pow_right (by decide) (by omega))
  · by_cases hleast : e + steps m e = -1074
    · exact Or.inr hleast
    · have hne : m ≠ 0 := by
        rintro rfl
        rw [Nat.log2_zero] at hplace
        omega
      refine Or.inl ?_
      rw [Nat.le_div_iff_mul_le (by positivity), ← pow_add, ← Nat.le_log2 hne]
      omega

theorem Canon.le_place (h : Canon m e) (hM : m ≤ M) : e ≤ place M e := by
  rw [place_eq]
  rcases h.full with hfull | hleast
  · have hlog : 52 ≤ M.log2 := (Nat.le_log2 (by omega)).mpr (hfull.trans hM)
    omega
  · omega

end Place

/-! ## Rounded results -/

section Results

variable {m : Nat} {e : Int} {s : Sign} {acc : Accuracy} {B C : ℚ} {u v : UnpackedFloat}

/-- The float of a sign, a significand that may be zero, and an exponent. -/
def ofParts (s : Sign) (m : Nat) (e : Int) : UnpackedFloat :=
  if h : m = 0 then .zero s else .finite s m e (Nat.pos_of_ne_zero h)

theorem finite_eq_ofParts {m' : Nat} {e' : Int} (h : 0 < m) (hm : m = m') (he : e = e') :
    UnpackedFloat.finite s m e h = ofParts s m' e' := by
  subst hm he
  rw [ofParts, dif_neg (Nat.ne_of_gt h)]

theorem roundWithAccuracy_eq (s : Sign) (m : Nat) (e : Int) (acc : Accuracy) :
    roundWithAccuracy Format.binary64 s m e acc =
      ofParts s
        ((ExtendedMantissa.ofMantissaAndAccuracy m acc >>> steps m e).roundedMantissa /
          2 ^ steps (ExtendedMantissa.ofMantissaAndAccuracy m acc >>> steps m e).roundedMantissa
            (e + steps m e))
        (e + steps m e +
          steps (ExtendedMantissa.ofMantissaAndAccuracy m acc >>> steps m e).roundedMantissa
            (e + steps m e)) := by
  have hshift : ∀ M k, (ExtendedMantissa.ofMantissaAndAccuracy M .exact >>> k).mantissa =
      M / 2 ^ k := fun M k => mantissa_shift _ k
  simp only [roundWithAccuracy, shiftToTargetExponent, shiftToExponent, hshift]
  rfl

/-- A float as the format wants it. -/
def Canonical : UnpackedFloat → Prop
  | .finite _ m e _ => Canon m e
  | _ => True

/-- A float, neither an infinity nor none at all, of size at most `B`. -/
def AtMost (B : ℚ) : UnpackedFloat → Prop
  | .zero _ => 0 ≤ B
  | .finite _ m e _ => worth m e ≤ B
  | _ => False

/-- A float, other than zero, of size at least one. -/
def AtLeastOne : UnpackedFloat → Prop
  | .finite _ m e _ => 1 ≤ worth m e
  | _ => False

theorem canonical_ofParts (h : Canon m e) : Canonical (ofParts s m e) := by
  rw [ofParts]
  split
  · trivial
  · exact h

theorem atMost_ofParts (h : worth m e ≤ B) : AtMost B (ofParts s m e) := by
  rw [ofParts]
  split
  · exact (worth_nonneg m e).trans h
  · exact h

/-- What is bounded is zero or has a significand. -/
theorem AtMost.cases (h : AtMost B u) :
    (∃ s, u = .zero s ∧ 0 ≤ B) ∨ ∃ s m e hm, u = .finite s m e hm ∧ worth m e ≤ B := by
  cases u with
  | zero s => exact Or.inl ⟨s, rfl, h⟩
  | finite s m e hm => exact Or.inr ⟨s, m, e, hm, rfl, h⟩
  | infinity s => exact h.elim
  | notANumber => exact h.elim

theorem AtMost.nonneg (h : AtMost B u) : 0 ≤ B := by
  obtain ⟨s, -, h0⟩ | ⟨s, m, e, hm, -, hle⟩ := h.cases
  · exact h0
  · exact (worth_nonneg m e).trans hle

theorem AtMost.trans (h : AtMost B u) (hle : B ≤ C) : AtMost C u := by
  obtain ⟨s, rfl, h0⟩ | ⟨s, m, e, hm, rfl, h⟩ := h.cases
  · exact le_trans h0 hle
  · exact le_trans h hle

theorem AtLeastOne.eq_finite (h : AtLeastOne u) :
    ∃ s m e hm, u = .finite s m e hm ∧ 1 ≤ worth m e := by
  cases u with
  | finite s m e hm => exact ⟨s, m, e, hm, rfl, h⟩
  | _ => exact h.elim

/-- The bits that have been shifted to their place, before they are rounded. -/
theorem canon_bits (h : e ≤ place m e) (acc : Accuracy) :
    Canon (ExtendedMantissa.ofMantissaAndAccuracy m acc >>> steps m e).mantissa (e + steps m e) := by
  rw [mantissa_shift, mantissa_ofMantissaAndAccuracy]
  exact canon_shift h

/-- **What has been rounded is as the format wants it.** -/
theorem roundWithAccuracy_canonical (h : e ≤ place m e) :
    Canonical (roundWithAccuracy Format.binary64 s m e acc) := by
  rw [roundWithAccuracy_eq]
  exact canonical_ofParts (canon_shift ((canon_bits h acc).le_place (le_roundedMantissa _)))

/-- The sizes that floats can have. -/
def Representable (B : ℚ) : Prop :=
  ∃ b f, b < 2 ^ 53 ∧ -1074 ≤ f ∧ f ≤ 971 ∧ B = worth b f

theorem Representable.lt (h : Representable B) : B < 2 ^ (1024 : Int) := by
  obtain ⟨b, f, hb, -, hf, rfl⟩ := h
  calc worth b f < worth (2 ^ 53) f := worth_lt_iff.mpr hb
    _ = 2 ^ (f + 53) := worth_pow 53 f
    _ ≤ 2 ^ (1024 : Int) := zpow_le_zpow_right₀ (by norm_num) (by omega)

/-- **Rounding does not pass a number that can be represented.** -/
theorem roundWithAccuracy_atMost (h : e ≤ place m e) (hB : Representable B)
    (hbelow : Below B e (.ofMantissaAndAccuracy m acc)) :
    AtMost B (roundWithAccuracy Format.binary64 s m e acc) := by
  obtain ⟨b, f, hb, hleast, -, rfl⟩ := hB
  have hbits := canon_bits h acc
  have hshifted := hbelow.shift (steps m e)
  -- the bound is a multiple of the last bit, for otherwise the bits alone would exceed it
  have hmultiple : e + steps m e ≤ f := by
    by_contra hlt
    have hfull := hbits.full.resolve_right (by omega)
    refine absurd hshifted.le (not_le_of_gt ?_)
    calc worth b f < worth (2 ^ 53) f := worth_lt_iff.mpr hb
      _ = 2 ^ (f + 53) := worth_pow 53 f
      _ ≤ 2 ^ (e + steps m e + 52) := zpow_le_zpow_right₀ (by norm_num) (by omega)
      _ = worth (2 ^ 52) (e + steps m e) := (worth_pow 52 _).symm
      _ ≤ _ := worth_le hfull _
  have hbound : worth b f = worth (b * 2 ^ (f - (e + steps m e)).toNat) (e + steps m e) := by
    rw [worth_shift, Int.toNat_of_nonneg (by omega)]
    congr 1
    omega
  rw [hbound] at hshifted ⊢
  have hrounded := hshifted.rounded
  rw [roundWithAccuracy_eq]
  refine atMost_ofParts (le_trans ?_ (worth_le hrounded _))
  rw [← worth_shift]
  exact worth_le (Nat.div_mul_le_self _ _) _

/-- What is at least one is so after rounding. -/
theorem roundWithAccuracy_atLeastOne (h : e ≤ place m e) (hone : 0 ≤ m.log2 + e) :
    AtLeastOne (roundWithAccuracy Format.binary64 s m e acc) := by
  have hplace := place_eq m e
  have hfirst : -52 ≤ e + steps m e := by
    rw [steps]
    omega
  have hcanon := canon_shift ((canon_bits h acc).le_place (le_roundedMantissa _))
  have hfull := hcanon.full.resolve_right (by omega)
  rw [roundWithAccuracy_eq, ← finite_eq_ofParts (Nat.lt_of_lt_of_le (by decide) hfull) rfl rfl]
  calc (1 : ℚ) = 2 ^ (0 : Int) := (zpow_zero 2).symm
    _ ≤ 2 ^ (e + steps m e + steps _ _ + 52) := zpow_le_zpow_right₀ (by norm_num) (by omega)
    _ = worth (2 ^ 52) (e + steps m e + steps _ _) := (worth_pow 52 _).symm
    _ ≤ _ := worth_le hfull _

end Results

/-! ## Packing -/

section Packing

variable {s : Sign} {u : UnpackedFloat} {B : ℚ}

/-- The leading bit is put in front of the others. -/
theorem toNat_leadingBit (y : BitVec 52) : (1#1 ++ y).toNat = 2 ^ 52 + y.toNat := by
  rw [BitVec.toNat_append, ← Nat.shiftLeft_add_eq_or_of_lt y.isLt]
  rfl

/-- What the three fields of a packed float stand for. -/
theorem unpack_eq (b : BitVec 64) :
    UnpackedFloat.unpack Format.binary64 b =
      if @unpackExponent Format.binary64 b = 2047#11 then
        if @unpackMantissa Format.binary64 b = 0#52 then
          .infinity (Sign.ofBitVec (@unpackSign Format.binary64 b))
        else .notANumber
      else if @unpackExponent Format.binary64 b = 0#11 then
        ofParts (Sign.ofBitVec (@unpackSign Format.binary64 b))
          (@unpackMantissa Format.binary64 b).toNat (-1074)
      else
        ofParts (Sign.ofBitVec (@unpackSign Format.binary64 b))
          (2 ^ 52 + (@unpackMantissa Format.binary64 b).toNat)
          ((@unpackExponent Format.binary64 b).toNat - 1075) := by
  fun_cases UnpackedFloat.unpack with
  | case1 _ _ _ _ hx hy => exact ((if_pos hx).trans (if_pos hy)).symm
  | case2 _ _ hx hy => exact ((if_pos hx).trans (if_neg hy)).symm
  | case3 y x _ _ hne hx hy =>
    rw [if_neg (show ¬ x = 2047#11 from hne), if_pos hx, ofParts, dif_pos (by exact congrArg BitVec.toNat hy)]
  | case4 _ x _ _ _ hne hx hy =>
    rw [if_neg (show ¬ x = 2047#11 from hne), if_pos hx]
    have hzero : x.toNat = 0 := congrArg BitVec.toNat hx
    refine finite_eq_ofParts _ rfl ?_
    show (x.toNat : Int) - 1075 + 1 = -1074
    omega
  | case5 y x _ _ _ hne hx =>
    rw [if_neg (show ¬ x = 2047#11 from hne), if_neg hx]
    exact finite_eq_ofParts _ (toNat_leadingBit y) rfl

theorem canon_subnormal (y : BitVec 52) : Canon y.toNat (-1074) :=
  ⟨y.isLt.trans (by decide), le_refl _, Or.inr rfl⟩

theorem canon_normal {x : BitVec 11} (y : BitVec 52) (hx : x ≠ 0#11) :
    Canon (2 ^ 52 + y.toNat) (x.toNat - 1075) := by
  have hbits := y.isLt
  have hpos : x.toNat ≠ 0 := fun hzero => hx (BitVec.eq_of_toNat_eq hzero)
  exact ⟨by omega, by omega, Or.inl (by omega)⟩

/-- What is unpacked is as the format wants it. -/
theorem canonical_unpack (b : BitVec 64) : Canonical (UnpackedFloat.unpack Format.binary64 b) := by
  rw [unpack_eq]
  split
  · split <;> trivial
  · split
    · exact canonical_ofParts (canon_subnormal _)
    · rename_i hx
      exact canonical_ofParts (canon_normal _ hx)

theorem unpack_packComponents (s : Sign) (x : BitVec 11) (y : BitVec 52) :
    UnpackedFloat.unpack Format.binary64 (packComponents Format.binary64 s x y) =
      if x = 2047#11 then if y = 0#52 then .infinity s else .notANumber
      else if x = 0#11 then ofParts s y.toNat (-1074)
      else ofParts s (2 ^ 52 + y.toNat) (x.toNat - 1075) := by
  have heq := unpack_eq (packComponents Format.binary64 s x y)
  rw [unpackMantissa_packComponents, unpackExponent_packComponents, unpackSign_packComponents,
    Sign.ofBitVec_toBitVec] at heq
  exact heq

/-- **A float is packed without loss**, if it is as the format wants it and not too large. -/
theorem unpack_pack (hcanonical : Canonical u) (hfit : AtMost B u) (hB : B < 2 ^ (1024 : Int)) :
    UnpackedFloat.unpack Format.binary64 (UnpackedFloat.pack Format.binary64 u) = u := by
  obtain ⟨s, rfl, -⟩ | ⟨s, m, e, hm, rfl, hfit⟩ := hfit.cases
  · rw [UnpackedFloat.pack, packedZero, unpack_packComponents]
    rfl
  · obtain ⟨hbits, hleast, hfull⟩ := hcanonical
    -- a larger exponent would make the number too large
    have he : e ≤ 971 := by
      by_contra hlt
      refine absurd hfit (not_le_of_gt (hB.trans_le ?_))
      calc (2 : ℚ) ^ (1024 : Int) ≤ 2 ^ (e + 52) := zpow_le_zpow_right₀ (by norm_num) (by omega)
        _ = worth (2 ^ 52) e := (worth_pow 52 e).symm
        _ ≤ worth m e := worth_le (hfull.resolve_right (by omega)) e
    -- the exponent as it is packed, of a number with all its bits
    have hbiased : (e + Format.binary64.exponentBias +
        Format.binary64.mantissaBitsWithoutImplicit).toNat = (e + 1075).toNat := by
      show (e + 1023 + 52).toNat = _
      omega
    have hfield : (BitVec.ofNat 11 (e + 1075).toNat).toNat = (e + 1075).toNat := by
      rw [BitVec.toNat_ofNat]
      omega
    have hne : ∀ n, (e + 1075).toNat ≠ n % 2 ^ 11 →
        BitVec.ofNat 11 (e + 1075).toNat ≠ BitVec.ofNat 11 n := by
      intro n hn heq
      refine hn ?_
      rw [← hfield, heq, BitVec.toNat_ofNat]
    rw [UnpackedFloat.pack]
    simp only [hbiased]
    rw [if_neg (by show ¬ 2 ^ 11 ≤ _; omega)]
    split
    · rename_i hlog
      have hlow : 2 ^ 52 ≤ m := by
        rw [← Nat.le_log2 (Nat.ne_of_gt hm)]
        exact Nat.le_of_eq (Nat.succ.inj hlog).symm
      rw [unpack_packComponents, if_neg (hne 2047 (by omega)), if_neg (hne 0 (by omega))]
      refine (finite_eq_ofParts hm ?_ ?_).symm
      · rw [BitVec.toNat_ofNat]
        omega
      · rw [hfield]
        omega
    · rename_i hlog
      have hhigh : m < 2 ^ 52 := by
        by_contra hle
        refine hlog (congrArg Nat.succ (Nat.le_antisymm ?_ ?_))
        · exact Nat.le_of_lt_succ ((Nat.log2_lt (Nat.ne_of_gt hm)).mpr hbits)
        · exact (Nat.le_log2 (Nat.ne_of_gt hm)).mpr (Nat.le_of_not_lt hle)
      rw [unpack_packComponents, if_neg (by decide), if_pos rfl]
      refine (finite_eq_ofParts hm ?_ (hfull.resolve_left (by omega))).symm
      rw [BitVec.toNat_ofNat, Nat.mod_eq_of_lt hhigh]

end Packing

end Uniprocessor.Rounding
