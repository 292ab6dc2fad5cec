import Uniprocessor.Metrics.Basic
import Uniprocessor.Proofs.Decimal.Operations

/-!
# The figures of a summary are finite

The figures of a summary come of a few float operations each.  None of them overflows, however many
processes have finished: a sum of `n` floats of size at most `2^k` stays within `n · 2^k`, and this is
a bound that can be represented as long as there are fewer than `2^53` of them; so rounding after each
summand does not matter.  The deviation is the root of a sum of squares, which is not negative.

* `Metrics.within_foldl_add`: **a sum of floats is within the sum of their bounds**;
* `Metrics.InWords`, `Summary.InWords`: what has been counted, and its figures, in range;
* `Metrics.InWords.summary`: **the figures of what is in range are in range.**
-/

namespace Uniprocessor

open Rounding

/-- Figures in range: words of 64 bits, and floats that are far from overflowing. -/
structure Summary.InWords (s : Summary) : Prop where
  totalTicks : s.totalTicks < word64
  busyTicks : s.busyTicks < word64
  idleTicks : s.idleTicks < word64
  finished : s.finished < word64
  rejected : s.rejected < word64
  cpuUtilization : Within (2 ^ (200 : Int)) s.cpuUtilization
  meanWeighted : Within (2 ^ (200 : Int)) s.meanWeighted
  meanWaiting : Within (2 ^ (200 : Int)) s.meanWaiting
  meanTurnaround : Within (2 ^ (200 : Int)) s.meanTurnaround
  deviationWeighted : Within (2 ^ (200 : Int)) s.deviationWeighted
  median : ∀ v, s.median = some v → v < word64
  percentile99 : ∀ v, s.percentile99 = some v → v < word64

namespace Metrics

/-! ## Sums -/

section Sums

variable {xs : List Float} {acc n x mean : Float} {i : Nat} {k : Int}

theorem representable_worth (hi : i < 2 ^ 53) (hleast : 0 ≤ k) (hmost : k ≤ 900) :
    Representable (worth i k) :=
  ⟨i, k, hi, by omega, by omega, rfl⟩

/-- **A sum of floats is within the sum of their bounds.** -/
theorem within_foldl_add (hleast : 0 ≤ k) (hmost : k ≤ 900) (hacc : Within (worth i k) acc)
    (hxs : ∀ x ∈ xs, Within (worth 1 k) x) (hlen : i + xs.length < 2 ^ 53) :
    Within (worth (i + xs.length) k) (xs.foldl (· + ·) acc) := by
  induction xs generalizing i acc with
  | nil => exact hacc
  | cons x xs ih =>
    obtain ⟨hx, hxs⟩ := List.forall_mem_cons.mp hxs
    rw [List.length_cons, Nat.add_comm xs.length, ← Nat.add_assoc] at hlen ⊢
    have hsum := within_add hacc hx (representable_worth (by omega) hleast hmost)
      (worth_add i 1 k).le
    exact ih hsum hxs hlen

/-- A sum of floats that are not negative is not negative. -/
theorem hasRoot_foldl_add (hleast : 0 ≤ k) (hmost : k ≤ 900) (hacc : Within (worth i k) acc)
    (hroot : HasRoot acc) (hxs : ∀ x ∈ xs, Within (worth 1 k) x ∧ HasRoot x)
    (hlen : i + xs.length < 2 ^ 53) : HasRoot (xs.foldl (· + ·) acc) := by
  induction xs generalizing i acc with
  | nil => exact hroot
  | cons x xs ih =>
    obtain ⟨⟨hx, hrx⟩, hxs⟩ := List.forall_mem_cons.mp hxs
    rw [List.length_cons, Nat.add_comm xs.length, ← Nat.add_assoc] at hlen
    have hone := representable_worth (i := i + 1) (by omega) hleast hmost
    have hle := (worth_add i 1 k).le
    exact ih (within_add hacc hx hone hle) (hasRoot_add hacc hroot hx hrx hone hle) hxs hlen

/-! ### Means -/

theorem within_negZero : Within (worth 0 k) (-0.0) := by
  refine ⟨?_⟩
  show (0 : ℚ) ≤ worth 0 k
  exact worth_nonneg 0 k

theorem hasRoot_negZero : HasRoot (-0.0) :=
  ⟨trivial⟩

/-- Sums of up to `2^32` summands. -/
theorem worth_le_of_length (hlen : xs.length ≤ word32) :
    worth (0 + xs.length) k ≤ 2 ^ (k + 32) := by
  rw [Nat.zero_add]
  exact (worth_le hlen k).trans (worth_pow 32 k).le

/-- A mean is within the sum of the bounds. -/
theorem within_meanOver (hleast : 0 ≤ k) (hmost : k ≤ 900) (hn : Sizable n)
    (hxs : ∀ x ∈ xs, Within (worth 1 k) x) (hlen : xs.length ≤ word32) :
    Within (2 ^ (k + 32)) (meanOver n xs) := by
  have hbound : 0 + xs.length < 2 ^ 53 := by
    rw [word32] at hlen
    omega
  have hsum := within_foldl_add hleast hmost within_negZero hxs hbound
  exact within_div (hsum.trans (worth_le_of_length hlen)) hn
    (representable_pow (by omega) (by omega))

theorem hasRoot_meanOver (hleast : 0 ≤ k) (hmost : k ≤ 900) (hn : Sizable n) (hrn : HasRoot n)
    (hxs : ∀ x ∈ xs, Within (worth 1 k) x ∧ HasRoot x) (hlen : xs.length ≤ word32) :
    HasRoot (meanOver n xs) := by
  have hbound : 0 + xs.length < 2 ^ 53 := by
    rw [word32] at hlen
    omega
  have hsum := within_foldl_add hleast hmost within_negZero (fun x hx => (hxs x hx).1) hbound
  exact hasRoot_div (hsum.trans (worth_le_of_length hlen))
    (hasRoot_foldl_add hleast hmost within_negZero hasRoot_negZero hxs hbound) hn hrn
    (representable_pow (by omega) (by omega))

/-- The square of the distance between two floats. -/
theorem within_squaredDistance (hmean : Within (2 ^ (96 : Int)) mean)
    (hx : Within (2 ^ (64 : Int)) x) :
    Within (worth 1 194) (squaredDistance mean x) ∧ HasRoot (squaredDistance mean x) := by
  have hdistance : Within (2 ^ (97 : Int)) (x - mean) :=
    within_sub hx hmean (representable_pow (by decide) (by decide)) (by norm_num)
  have hsquare : (2 : ℚ) ^ (97 : Int) * 2 ^ (97 : Int) ≤ worth 1 194 := by
    norm_num [worth]
  have hone := representable_worth (i := 1) (by decide) (by decide : (0 : Int) ≤ 194) (by decide)
  exact ⟨within_mul hdistance hdistance hone hsquare, hasRoot_mul_self hdistance hone hsquare⟩

end Sums

/-! ## Percentiles -/

theorem binTop_lt (v : Nat) : binTop v < word64 := by
  rw [binTop, word64]
  omega

theorem quantile?_lt {q : Float} {values : List Nat} {v : Nat} (h : quantile? q values = some v) :
    v < word64 := by
  obtain ⟨x, -, rfl⟩ := Option.map_eq_some_iff.mp h
  exact binTop_lt x

/-! ## The figures -/

/-- What has been counted is in range: words of 64 bits, no more finished processes than identifiers,
and weighted turnaround times that are as large as a quotient of words can be. -/
structure InWords (m : Metrics) : Prop where
  ticks : m.busyTicks + m.idleTicks < word64
  rejected : m.rejected < word64
  finished : m.finished ≤ word32
  weighted : ∀ x ∈ m.weighted, Within (2 ^ (64 : Int)) x

variable {m : Metrics}

/-- What averages are divided by. -/
theorem InWords.count (h : m.InWords) :
    Sizable (nearestFloat (max m.finished 1)) ∧ HasRoot (nearestFloat (max m.finished 1)) := by
  have hfinished := h.finished
  refine ⟨sizable_nearestFloat (by omega) ?_, hasRoot_nearestFloat _⟩
  rw [word32] at hfinished
  rw [word64]
  omega

theorem InWords.length_weighted (h : m.InWords) : m.weighted.length ≤ word32 := by
  rw [Metrics.weighted, List.length_map, Array.length_toList]
  exact h.finished

theorem InWords.mean (h : m.InWords) :
    Within (2 ^ (96 : Int)) (meanOver (nearestFloat (max m.finished 1)) m.weighted) := by
  refine within_meanOver (k := 64) (by decide) (by decide) h.count.1 (fun x hx => ?_)
    h.length_weighted
  exact (h.weighted x hx).trans (worth_pow 0 64).ge

theorem InWords.deviation (h : m.InWords) :
    Within (2 ^ (113 : Int)) m.summary.deviationWeighted := by
  have hsquares : ∀ y ∈ m.weighted.map
      (squaredDistance (meanOver (nearestFloat (max m.finished 1)) m.weighted)),
      Within (worth 1 194) y ∧ HasRoot y := by
    intro y hy
    obtain ⟨x, hx, rfl⟩ := List.mem_map.mp hy
    exact within_squaredDistance h.mean (h.weighted x hx)
  have hlen : ∀ f : Float → Float, (m.weighted.map f).length ≤ word32 := by
    intro f
    rw [List.length_map]
    exact h.length_weighted
  obtain ⟨hn, hrn⟩ := h.count
  have hmean := within_meanOver (k := 194) (by decide) (by decide) hn
    (fun y hy => (hsquares y hy).1) (hlen _)
  have hroot := hasRoot_meanOver (k := 194) (by decide) (by decide) hn hrn hsquares (hlen _)
  exact within_sqrt hmean hroot (representable_pow (by decide) (by decide)) (by positivity)
    (by norm_num)

/-- A percentage. -/
theorem InWords.utilization (h : m.InWords) : Within (2 ^ (71 : Int)) m.utilization := by
  have hhundred : Within (2 ^ (7 : Int)) 100.0 := by
    refine ⟨?_⟩
    show worth (25 * 2 ^ 48) (-46) ≤ _
    norm_num [worth]
  rw [Metrics.utilization]
  split
  · exact ⟨(by positivity : (0 : ℚ) ≤ _)⟩
  · rename_i hsome
    refine within_mul (within_div (within_nearestFloat _)
      (sizable_nearestFloat (Nat.pos_of_ne_zero hsome) h.ticks)
      (representable_pow (by decide) (by decide))) hhundred
      (representable_pow (by decide) (by decide)) (by norm_num)

/-- **The figures of what is in range are in range.** -/
theorem InWords.summary (h : m.InWords) : m.summary.InWords := by
  have hlarge : ∀ {k : Int} {x : Float}, k ≤ 200 → Within (2 ^ k) x → Within (2 ^ (200 : Int)) x :=
    fun hk hx => hx.trans (zpow_le_zpow_right₀ (by norm_num) hk)
  have hquotient : ∀ total, Within (2 ^ (200 : Int))
      (nearestFloat total / nearestFloat (max m.finished 1)) := fun total =>
    hlarge (by decide) (within_div (within_nearestFloat total) h.count.1
      (representable_pow (by decide) (by decide)))
  have hticks := h.ticks
  have hfinished := h.finished
  rw [word32] at hfinished
  exact {
    totalTicks := hticks
    busyTicks := (Nat.le_add_right _ _).trans_lt hticks
    idleTicks := (Nat.le_add_left _ _).trans_lt hticks
    finished := hfinished.trans_lt (by decide)
    rejected := h.rejected
    cpuUtilization := hlarge (by decide) h.utilization
    meanWeighted := hlarge (by decide) h.mean
    meanWaiting := hquotient m.waitingWord
    meanTurnaround := hquotient m.turnaroundWord
    deviationWeighted := hlarge (by decide) h.deviation
    median := fun _ hv => quantile?_lt hv
    percentile99 := fun _ hv => quantile?_lt hv }

end Metrics
end Uniprocessor
