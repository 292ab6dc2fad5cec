import Uniprocessor.Proofs.Decimal.Rounding

/-!
# How large results of float operations are

A float stays within a bound: it is neither an infinity nor none at all, and its size is at most the
bound.  For every operation the result is within a bound that can be represented if the exact result
is at most that bound; whether the operation rounds does not matter.

Each operation hands the leading bits of its exact result to `roundWithAccuracy`.  So there are two
facts to check for it: that the bits go as far as the place of the last bit, and that they are below
the bound.

* `Rounding.Within`: neither infinite nor larger than a bound;
* `Rounding.within_add`, `within_sub`, `within_mul`, `within_div`, `within_sqrt`, `within_neg`: **what
  operations make of floats within bounds**;
* `Rounding.HasRoot`: nor negative, so that there is a square root; sums, squares and quotients keep to
  this;
* `Rounding.within_nearestFloat`: a 64-bit word as a float;
* `Rounding.isFinite_of_within`: what is within a bound is finite.
-/

namespace Uniprocessor.Rounding

open Float.Model Float.Model.UnpackedFloat

/-! ## Results before they are packed -/

section Results

variable {m n : Nat} {e f : Int} {s : Sign} {acc : Accuracy} {A B C : ℚ} {u v : UnpackedFloat}

/-- A float as the format wants it and of size at most `B`. -/
def Rounded (B : ℚ) (u : UnpackedFloat) : Prop :=
  Canonical u ∧ AtMost B u

theorem Below.intro (hle : worth m e ≤ B) (hlt : acc ≠ .exact → worth m e < B) :
    Below B e (.ofMantissaAndAccuracy m acc) := by
  refine ⟨?_, fun hcut => ?_⟩
  · rwa [mantissa_ofMantissaAndAccuracy]
  · rw [mantissa_ofMantissaAndAccuracy]
    refine hlt fun hexact => hcut ?_
    rw [hexact]
    exact ⟨rfl, rfl⟩

theorem rounded_of_bits (h : e ≤ place m e) (hB : Representable B) (hle : worth m e ≤ B)
    (hlt : acc ≠ .exact → worth m e < B) :
    Rounded B (roundWithAccuracy Format.binary64 s m e acc) :=
  ⟨roundWithAccuracy_canonical h, roundWithAccuracy_atMost h hB (Below.intro hle hlt)⟩

theorem log2_shift_le (hm : 0 < m) (k : Nat) : m.log2 + k ≤ (m * 2 ^ k).log2 := by
  rw [Nat.le_log2 (by positivity), pow_add]
  exact Nat.mul_le_mul_right _ (Nat.log2_self_le (Nat.ne_of_gt hm))

/-! ### Sums and conversions -/

theorem round_eq (s : Sign) (m : Nat) (e : Int) :
    round Format.binary64 s m e =
      roundWithAccuracy Format.binary64 s (m * 2 ^ (e - place m e).toNat)
        (e - (e - place m e).toNat) .exact := by
  rw [← Nat.shiftLeft_eq]
  rfl

/-- Bits that do not go as far as their place are continued by zeros. -/
theorem le_place_round (hm : 0 < m) :
    e - (e - place m e).toNat ≤
      place (m * 2 ^ (e - place m e).toNat) (e - (e - place m e).toNat) := by
  have hlog := log2_shift_le hm (e - place m e).toNat
  have hplace := place_eq m e
  rw [place_eq (m * 2 ^ (e - place m e).toNat)]
  omega

theorem rounded_round (hm : 0 < m) (hB : Representable B) (hle : worth m e ≤ B) :
    Rounded B (round Format.binary64 s m e) := by
  rw [round_eq]
  refine rounded_of_bits (le_place_round hm) hB ?_ fun hne => absurd rfl hne
  rwa [worth_shift, Int.sub_add_cancel]

theorem atLeastOne_round (hm : 0 < m) (hone : 0 ≤ m.log2 + e) :
    AtLeastOne (round Format.binary64 s m e) := by
  rw [round_eq]
  have hlog := log2_shift_le hm (e - place m e).toNat
  exact roundWithAccuracy_atLeastOne (le_place_round hm) (by omega)

theorem rounded_normalize {k : Int} (hB : Representable B) (hle : worth k.natAbs e ≤ B) :
    Rounded B (normalize Format.binary64 k e s) := by
  rw [UnpackedFloat.normalize]
  cases hcompare : compare k 0 with
  | lt =>
    have hneg := Int.compare_eq_lt.mp hcompare
    refine rounded_round (by omega) hB ?_
    rwa [show (-k).toNat = k.natAbs by omega]
  | eq => exact ⟨trivial, (worth_nonneg _ _).trans hle⟩
  | gt =>
    have hpos := Int.compare_eq_gt.mp hcompare
    refine rounded_round (by omega) hB ?_
    rwa [show k.toNat = k.natAbs by omega]

/-- Two numbers are brought to the smaller exponent. -/
theorem worth_decreaseExponent (m : Nat) (h : f ≤ e) :
    worth (decreaseExponent m e f).1 f = worth m e := by
  rw [decreaseExponent, Nat.shiftLeft_eq, worth_shift]
  congr 1
  omega

/-- What is added or subtracted at the smaller exponent is at most the sizes together. -/
theorem worth_sum_le {k : Int} {i j : Nat} (hk : k.natAbs ≤ i + j)
    (hi : i = (decreaseExponent m e (min e f)).1) (hj : j = (decreaseExponent n f (min e f)).1)
    (hA : worth m e ≤ A) (hB : worth n f ≤ B) (hC : A + B ≤ C) :
    worth k.natAbs (min e f) ≤ C := by
  calc worth k.natAbs (min e f) ≤ worth (i + j) (min e f) := worth_le hk _
    _ = worth i (min e f) + worth j (min e f) := (worth_add i j _).symm
    _ = worth m e + worth n f := by
      rw [hi, hj, worth_decreaseExponent m (min_le_left e f),
        worth_decreaseExponent n (min_le_right e f)]
    _ ≤ C := (add_le_add hA hB).trans hC

theorem natAbs_apply (s : Sign) (k : Int) : (s.apply k).natAbs = k.natAbs := by
  cases s
  · exact Int.natAbs_neg k
  · rfl

theorem Rounded.add (hu : Rounded A u) (hv : Rounded B v) (hC : Representable C)
    (hsum : A + B ≤ C) : Rounded C (UnpackedFloat.add Format.binary64 u v) := by
  have hA := hu.2.nonneg
  have hB := hv.2.nonneg
  obtain ⟨s, rfl, -⟩ | ⟨s, m, e, hm, rfl, hm'⟩ := hu.2.cases
  · obtain ⟨s', rfl, -⟩ | ⟨s', n, f, hn, rfl, hn'⟩ := hv.2.cases
    · rw [UnpackedFloat.add]
      split <;> exact ⟨trivial, (add_nonneg hA hB).trans hsum⟩
    · exact ⟨hv.1, hn'.trans (by linarith)⟩
  · obtain ⟨s', rfl, -⟩ | ⟨s', n, f, hn, rfl, hn'⟩ := hv.2.cases
    · exact ⟨hu.1, hm'.trans (by linarith)⟩
    · refine rounded_normalize hC (worth_sum_le ?_ rfl rfl hm' hn' hsum)
      refine (Int.natAbs_add_le _ _).trans (Nat.le_of_eq ?_)
      rw [natAbs_apply, natAbs_apply, Int.natAbs_natCast, Int.natAbs_natCast]
      rfl

theorem Rounded.neg (hu : Rounded A u) : Rounded A u.neg := by
  obtain ⟨s, rfl, -⟩ | ⟨s, m, e, hm, rfl, -⟩ := hu.2.cases
  · exact hu
  · exact hu

/-- Subtracting is adding what has the other sign. -/
theorem sub_eq_add_neg (u v : UnpackedFloat) :
    UnpackedFloat.sub Format.binary64 u v = UnpackedFloat.add Format.binary64 u v.neg := by
  have happly : ∀ (s : Sign) (k : Int), (-s).apply k = -s.apply k := by
    intro s k
    cases s
    · exact (Int.neg_neg k).symm
    · rfl
  cases u <;> cases v <;>
    simp [UnpackedFloat.sub, UnpackedFloat.add, UnpackedFloat.neg, happly, Int.sub_eq_add_neg]

theorem Rounded.sub (hu : Rounded A u) (hv : Rounded B v) (hC : Representable C)
    (hsum : A + B ≤ C) : Rounded C (UnpackedFloat.sub Format.binary64 u v) := by
  rw [sub_eq_add_neg]
  exact hu.add hv.neg hC hsum

/-! ### Products and quotients -/

/-- The product of two significands has bits enough. -/
theorem Canon.le_place_mul (hm : 0 < m) (hn : 0 < n) (hu : Canon m e) (hv : Canon n f) :
    e + f ≤ place (m * n) (e + f) := by
  rw [place_eq]
  have hfull : 2 ^ 52 ≤ m * n ∨ e + f ≤ -1074 := by
    rcases hu.full with h | h
    · exact Or.inl (h.trans (Nat.le_mul_of_pos_right m hn))
    · rcases hv.full with h' | h'
      · exact Or.inl (h'.trans (Nat.le_mul_of_pos_left n hm))
      · omega
  rcases hfull with h | h
  · have hlog : 52 ≤ (m * n).log2 := (Nat.le_log2 (by positivity)).mpr h
    omega
  · omega

theorem Rounded.mul (hu : Rounded A u) (hv : Rounded B v) (hC : Representable C)
    (hproduct : A * B ≤ C) : Rounded C (UnpackedFloat.mul Format.binary64 u v) := by
  have hA := hu.2.nonneg
  have hB := hv.2.nonneg
  have hzero : ∀ s, Rounded C (.zero s) := fun s => ⟨trivial, (mul_nonneg hA hB).trans hproduct⟩
  obtain ⟨s, rfl, -⟩ | ⟨s, m, e, hm, rfl, hm'⟩ := hu.2.cases
  · obtain ⟨s', rfl, -⟩ | ⟨s', n, f, hn, rfl, -⟩ := hv.2.cases
    · exact hzero _
    · exact hzero _
  · obtain ⟨s', rfl, -⟩ | ⟨s', n, f, hn, rfl, hn'⟩ := hv.2.cases
    · exact hzero _
    · refine rounded_of_bits (Canon.le_place_mul hm hn hu.1 hv.1) hC ?_ fun hne => absurd rfl hne
      rw [← worth_mul]
      exact (mul_le_mul hm' hn' (worth_nonneg n f) hA).trans hproduct

/-- A quotient is computed far enough. -/
theorem le_place_div (hn : 0 < n) {t d : Int} {k : Nat} (hm : 0 < m) (hd : t + k = d)
    (ht : t ≤ max ((m.log2 : Int) - n.log2 + d - 53) (-1074)) :
    t ≤ place (m * 2 ^ k / n) t := by
  rw [place_eq]
  by_cases hleast : t ≤ -1074
  · omega
  · have hpow : 2 ^ (n.log2 + 53) ≤ m * 2 ^ k :=
      (Nat.pow_le_pow_right (by decide) (by omega)).trans
        ((Nat.pow_le_pow_right (by decide) (log2_shift_le hm k)).trans
          (Nat.log2_self_le (by positivity)))
    have hfull : 2 ^ 52 ≤ m * 2 ^ k / n := by
      rw [Nat.le_div_iff_mul_le hn]
      calc 2 ^ 52 * n ≤ 2 ^ 52 * 2 ^ (n.log2 + 1) :=
            Nat.mul_le_mul_left _ (Nat.le_of_lt Nat.lt_log2_self)
        _ = 2 ^ (n.log2 + 53) := by rw [← pow_add]; congr 1; omega
        _ ≤ _ := hpow
    have hlog : 52 ≤ (m * 2 ^ k / n).log2 := (Nat.le_log2 (by omega)).mpr hfull
    omega

/-- **Dividing by a number that is at least one makes nothing larger.** -/
theorem Rounded.div (hu : Rounded B u) (hv : AtLeastOne v) (hB : Representable B) :
    Rounded B (UnpackedFloat.div Format.binary64 u v) := by
  obtain ⟨s', n, f, hn, rfl, hn'⟩ := hv.eq_finite
  obtain ⟨s, rfl, hm'⟩ | ⟨s, m, e, hm, rfl, hm'⟩ := hu.2.cases
  · exact ⟨trivial, hm'⟩
  · simp only [UnpackedFloat.div, divCore, Nat.shiftLeft_eq]
    generalize ht : min (e - f) (Format.binary64.targetExponent
      (totalExponent m e - totalExponent n f)) = t
    have htarget : t ≤ max ((m.log2 : Int) - n.log2 + (e - f) - 53) (-1074) := by
      rw [← ht]
      refine (min_le_right _ _).trans (le_of_eq ?_)
      show max (m.log2 + 1 + e - (n.log2 + 1 + f) - 53) (-1074) = _
      congr 1
      omega
    have hsteps : t + (e - f - t).toNat = e - f := by omega
    -- the quotient times the divisor, and what the dividend is
    have hproduct : ∀ q, worth q t * worth n f = worth (q * n) (t + f) := fun q => worth_mul q n t f
    have hdividend : worth (m * 2 ^ (e - f - t).toNat) (t + f) = worth m e := by
      rw [worth_shift]
      congr 1
      omega
    have hgrow : ∀ q, worth q t ≤ worth q t * worth n f := fun q =>
      le_mul_of_one_le_right (worth_nonneg q t) hn'
    refine rounded_of_bits (le_place_div hn hm hsteps htarget) hB ?_ fun hcut => ?_
    · refine (hgrow _).trans (le_trans ?_ hm')
      rw [hproduct, ← hdividend]
      exact worth_le (Nat.div_mul_le_self _ _) _
    · refine (hgrow _).trans_lt (lt_of_lt_of_le ?_ hm')
      rw [hproduct, ← hdividend, worth_lt_iff]
      have hrest : m * 2 ^ (e - f - t).toNat % n ≠ 0 := fun hzero =>
        hcut (by rw [accuracyOfFraction, if_pos hzero])
      have hdiv := Nat.div_add_mod' (m * 2 ^ (e - f - t).toNat) n
      omega

/-! ### Square roots -/

/-- A float that is zero or has no minus sign. -/
def NotNegative : UnpackedFloat → Prop
  | .finite s _ _ _ => s = .positive
  | .zero _ => True
  | _ => False

/-- What is not negative is zero or has a significand and no minus sign. -/
theorem NotNegative.cases (h : NotNegative u) :
    (∃ s, u = .zero s) ∨ ∃ m e hm, u = .finite .positive m e hm := by
  cases u with
  | zero s => exact Or.inl ⟨s, rfl⟩
  | finite s m e hm =>
    obtain rfl : s = .positive := h
    exact Or.inr ⟨m, e, hm, rfl⟩
  | infinity s => exact h.elim
  | notANumber => exact h.elim

/-- A square root is computed far enough. -/
theorem le_place_sqrt (hm : 0 < m) {t : Int} {k : Nat} (hk : e = 2 * t + k)
    (ht : t ≤ max ((m.log2 + 1 + e + 1) / 2 - 53) (-1074)) :
    t ≤ place (m * 2 ^ k).sqrt t := by
  rw [place_eq]
  by_cases hleast : t ≤ -1074
  · omega
  · have hroot : 2 ^ ((m.log2 + k) / 2) ≤ (m * 2 ^ k).sqrt := by
      rw [Nat.le_sqrt, ← pow_add]
      exact (Nat.pow_le_pow_right (by decide) (by have := log2_shift_le hm k; omega)).trans
        (Nat.log2_self_le (by positivity))
    have hlog := (Nat.le_log2 (by have := Nat.two_pow_pos ((m.log2 + k) / 2); omega)).mpr hroot
    omega

theorem Rounded.sqrt (hu : Rounded A u) (hsign : NotNegative u) (hB : Representable B)
    (h0 : 0 ≤ B) (hsquare : A ≤ B * B) : Rounded B (UnpackedFloat.sqrt Format.binary64 u) := by
  obtain ⟨s, rfl⟩ | ⟨m, e, hm, rfl⟩ := hsign.cases
  · exact ⟨trivial, h0⟩
  · have hm' : worth m e ≤ A := hu.2
    simp only [UnpackedFloat.sqrt, sqrtCore, Nat.shiftLeft_eq]
    generalize ht : min (e.ediv 2) (Format.binary64.targetExponent
      ((totalExponent m e + 1).ediv 2)) = t
    have htarget : t ≤ max ((m.log2 + 1 + e + 1) / 2 - 53) (-1074) := by
      rw [← ht]
      exact min_le_right _ _
    have hhalf : t ≤ e / 2 := by
      rw [← ht]
      exact min_le_left _ _
    have hsteps : e = 2 * t + (e - 2 * t).toNat := by omega
    have hradicand : worth (m * 2 ^ (e - 2 * t).toNat) (t + t) = worth m e := by
      rw [worth_shift]
      congr 1
      omega
    have hnonneg := worth_nonneg (m * 2 ^ (e - 2 * t).toNat).sqrt t
    refine rounded_of_bits (le_place_sqrt hm hsteps htarget) hB ?_ fun hcut => ?_
    · rw [mul_self_le_mul_self_iff hnonneg h0, worth_mul]
      refine le_trans ?_ (hm'.trans hsquare)
      rw [← hradicand]
      exact worth_le (Nat.sqrt_le _) _
    · rw [mul_self_lt_mul_self_iff hnonneg h0, worth_mul]
      refine lt_of_lt_of_le ?_ (hm'.trans hsquare)
      rw [← hradicand, worth_lt_iff]
      have hle := Nat.sqrt_le (m * 2 ^ (e - 2 * t).toNat)
      have hrest : m * 2 ^ (e - 2 * t).toNat - (m * 2 ^ (e - 2 * t).toNat).sqrt *
          (m * 2 ^ (e - 2 * t).toNat).sqrt ≠ 0 := fun hzero => hcut (if_pos hzero)
      omega

/-! ### Signs -/

theorem notNegative_ofParts : NotNegative (ofParts .positive m e) := by
  rw [ofParts]
  split <;> trivial

theorem notNegative_roundWithAccuracy :
    NotNegative (roundWithAccuracy Format.binary64 .positive m e acc) := by
  rw [roundWithAccuracy_eq]
  exact notNegative_ofParts

theorem notNegative_normalize {k : Int} (h : 0 ≤ k) :
    NotNegative (normalize Format.binary64 k e s) := by
  rw [UnpackedFloat.normalize]
  cases hcompare : compare k 0 with
  | lt => exact absurd (Int.compare_eq_lt.mp hcompare) (by omega)
  | eq => trivial
  | gt =>
    dsimp only
    rw [round_eq]
    exact notNegative_roundWithAccuracy

theorem NotNegative.add (hu : NotNegative u) (hv : NotNegative v) :
    NotNegative (UnpackedFloat.add Format.binary64 u v) := by
  obtain ⟨s, rfl⟩ | ⟨m, e, hm, rfl⟩ := hu.cases
  · obtain ⟨s', rfl⟩ | ⟨n, f, hn, rfl⟩ := hv.cases
    · rw [UnpackedFloat.add]
      split <;> trivial
    · exact hv
  · obtain ⟨s', rfl⟩ | ⟨n, f, hn, rfl⟩ := hv.cases
    · exact hu
    · exact notNegative_normalize (Int.add_nonneg (Int.natCast_nonneg _) (Int.natCast_nonneg _))

theorem NotNegative.div (hu : NotNegative u) (hv : NotNegative v) (hone : AtLeastOne v) :
    NotNegative (UnpackedFloat.div Format.binary64 u v) := by
  obtain ⟨s', n, f, hn, rfl, -⟩ := hone.eq_finite
  obtain rfl : s' = .positive := hv
  obtain ⟨s, rfl⟩ | ⟨m, e, hm, rfl⟩ := hu.cases
  · trivial
  · exact notNegative_roundWithAccuracy

/-- A square is not negative. -/
theorem Rounded.notNegative_mul_self (hu : Rounded A u) :
    NotNegative (UnpackedFloat.mul Format.binary64 u u) := by
  obtain ⟨s, rfl, -⟩ | ⟨s, m, e, hm, rfl, -⟩ := hu.2.cases
  · trivial
  · cases s <;> exact notNegative_roundWithAccuracy

end Results

/-! ## Floats -/

section Floats

variable {A B C : ℚ} {x y : Float} {u : UnpackedFloat}

/-- A float, neither an infinity nor none at all, of size at most `B`. -/
structure Within (B : ℚ) (x : Float) : Prop where
  atMost : AtMost B x.toModel.unpack

/-- A float of size at least one. -/
structure Sizable (y : Float) : Prop where
  atLeastOne : AtLeastOne y.toModel.unpack

/-- A float that has a square root. -/
structure HasRoot (x : Float) : Prop where
  notNegative : NotNegative x.toModel.unpack

theorem Within.rounded (h : Within B x) : Rounded B x.toModel.unpack :=
  ⟨canonical_unpack _, h.atMost⟩

theorem Within.trans (h : Within A x) (hle : A ≤ B) : Within B x :=
  ⟨h.atMost.trans hle⟩

theorem isFinite_of_within (h : Within B x) : x.isFinite = true := by
  show x.toModel.unpack.isFinite = true
  obtain ⟨s, hx, -⟩ | ⟨s, m, e, hm, hx, -⟩ := h.atMost.cases <;> rw [hx] <;> rfl

theorem not_isInf_of_within (h : Within B x) : x.isInf = false := by
  show x.toModel.unpack.isInf = false
  obtain ⟨s, hx, -⟩ | ⟨s, m, e, hm, hx, -⟩ := h.atMost.cases <;> rw [hx] <;> rfl

/-- A rounded result that fits is the float it is packed to. -/
theorem unpack_pack_of_rounded (h : Rounded B u) (hB : Representable B) :
    (Float.Model.pack u).unpack = u :=
  unpack_pack h.1 h.2 hB.lt

theorem within_pack (h : Rounded B u) (hB : Representable B) :
    Within B (.ofModel (Float.Model.pack u)) := by
  refine ⟨?_⟩
  show AtMost B (Float.Model.pack u).unpack
  rw [unpack_pack_of_rounded h hB]
  exact h.2

theorem within_add (hx : Within A x) (hy : Within B y) (hC : Representable C) (hsum : A + B ≤ C) :
    Within C (x + y) :=
  within_pack (hx.rounded.add hy.rounded hC hsum) hC

theorem within_sub (hx : Within A x) (hy : Within B y) (hC : Representable C) (hsum : A + B ≤ C) :
    Within C (x - y) :=
  within_pack (hx.rounded.sub hy.rounded hC hsum) hC

theorem within_mul (hx : Within A x) (hy : Within B y) (hC : Representable C)
    (hproduct : A * B ≤ C) : Within C (x * y) :=
  within_pack (hx.rounded.mul hy.rounded hC hproduct) hC

theorem within_neg (hx : Within B x) (hB : Representable B) : Within B (-x) :=
  within_pack hx.rounded.neg hB

/-- **Dividing by a float that is at least one makes nothing larger.** -/
theorem within_div (hx : Within B x) (hy : Sizable y) (hB : Representable B) :
    Within B (x / y) :=
  within_pack (hx.rounded.div hy.atLeastOne hB) hB

theorem within_sqrt (hx : Within A x) (hroot : HasRoot x) (hB : Representable B) (h0 : 0 ≤ B)
    (hsquare : A ≤ B * B) : Within B x.sqrt :=
  within_pack (hx.rounded.sqrt hroot.notNegative hB h0 hsquare) hB

theorem hasRoot_pack (h : Rounded B u) (hB : Representable B) (hsign : NotNegative u) :
    HasRoot (.ofModel (Float.Model.pack u)) := by
  refine ⟨?_⟩
  show NotNegative (Float.Model.pack u).unpack
  rw [unpack_pack_of_rounded h hB]
  exact hsign

theorem hasRoot_add (hx : Within A x) (hrx : HasRoot x) (hy : Within B y) (hry : HasRoot y)
    (hC : Representable C) (hsum : A + B ≤ C) : HasRoot (x + y) :=
  hasRoot_pack (hx.rounded.add hy.rounded hC hsum) hC (hrx.notNegative.add hry.notNegative)

theorem hasRoot_mul_self (hx : Within A x) (hC : Representable C) (hsquare : A * A ≤ C) :
    HasRoot (x * x) :=
  hasRoot_pack (hx.rounded.mul hx.rounded hC hsquare) hC hx.rounded.notNegative_mul_self

theorem hasRoot_div (hx : Within B x) (hrx : HasRoot x) (hy : Sizable y) (hry : HasRoot y)
    (hB : Representable B) : HasRoot (x / y) :=
  hasRoot_pack (hx.rounded.div hy.atLeastOne hB) hB
    (hrx.notNegative.div hry.notNegative hy.atLeastOne)

theorem representable_pow {k : Int} (hleast : -1022 ≤ k) (hmost : k ≤ 1023) :
    Representable (2 ^ k) :=
  ⟨2 ^ 52, k - 52, by decide, by omega, by omega, by rw [worth_pow]; congr 1; omega⟩

/-- A word of 64 bits, rounded. -/
theorem rounded_ofNat {n : Nat} (h : n < word64) :
    Rounded (2 ^ (64 : Int)) (UnpackedFloat.ofNat Format.binary64 n) := by
  refine rounded_normalize (representable_pow (by decide) (by decide)) ?_
  calc worth (n : Int).natAbs 0 ≤ worth (2 ^ 64) 0 := worth_le (Nat.le_of_lt h) 0
    _ = 2 ^ (64 : Int) := worth_pow 64 0

/-- A word of 64 bits as a float. -/
theorem within_nearestFloat (n : Nat) : Within (2 ^ (64 : Int)) (nearestFloat n) :=
  within_pack (rounded_ofNat n.toUInt64.toNat_lt) (representable_pow (by decide) (by decide))

theorem hasRoot_nearestFloat (n : Nat) : HasRoot (nearestFloat n) :=
  hasRoot_pack (rounded_ofNat n.toUInt64.toNat_lt) (representable_pow (by decide) (by decide))
    (notNegative_normalize (Int.natCast_nonneg _))

/-- A word of 64 bits other than zero is at least one as a float. -/
theorem sizable_nearestFloat {n : Nat} (h : 0 < n) (hword : n < word64) :
    Sizable (nearestFloat n) := by
  have hn : n.toUInt64.toNat = n := Nat.mod_eq_of_lt hword
  have hunpack : (nearestFloat n).toModel.unpack = UnpackedFloat.ofNat Format.binary64 n := by
    show (Float.Model.pack (UnpackedFloat.ofNat Format.binary64 n.toUInt64.toNat)).unpack = _
    rw [hn]
    exact unpack_pack_of_rounded (rounded_ofNat hword) (representable_pow (by decide) (by decide))
  have hcompare : compare (n : Int) 0 = .gt := Int.compare_eq_gt.mpr (by omega)
  refine ⟨?_⟩
  rw [hunpack, UnpackedFloat.ofNat, UnpackedFloat.ofInt, UnpackedFloat.normalize, hcompare]
  exact atLeastOne_round (by omega) (by omega)

end Floats

end Uniprocessor.Rounding
