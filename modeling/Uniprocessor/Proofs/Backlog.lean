import Mathlib.Algebra.BigOperators.Group.List.Basic
import Uniprocessor.Basic

/-!
# Backlogs

A backlog is a list of the ticks that each of several processes has to go.  Backlogs of the same work
may be spread over processes more or less unevenly.  How unevenly, is told by the work in excess of
every number of ticks per process: one backlog majorizes another one of the same work if it has as
much in excess of every number, or more.  It is then made of no more processes.

To burn a tick of a process that has least to go is the best that can be done about this: a backlog
that majorizes another one does so again, whichever process of the other one has burnt a tick.

* `Backlog.excess`: the work in excess of a number of ticks per process;
* `Backlog.sum_le_of_countP_le`: sums, compared by how many numbers are above each bound;
* `Backlog.burn`: a tick is burnt, and a process that has nothing to go any more is left out;
* `Backlog.Majorizes`: one backlog is spread as unevenly as another one, or more so;
* `Majorizes.burn`: **burning a tick of the shortest process keeps it so**;
* `Majorizes.length_le`: **the backlog that majorizes is made of no more processes.**
-/

namespace Uniprocessor
namespace Backlog

variable {l v w : List Nat} {k x y : Nat}

/-- The work in excess of `k` ticks per process. -/
def excess (k : Nat) (l : List Nat) : Nat :=
  (l.map fun x => x - k).sum

@[simp] theorem excess_cons (k x : Nat) (l : List Nat) : excess k (x :: l) = x - k + excess k l := by
  rw [excess, List.map_cons, List.sum_cons, excess]

theorem excess_append (k : Nat) (v w : List Nat) : excess k (v ++ w) = excess k v + excess k w := by
  rw [excess, List.map_append, List.sum_append, excess, excess]

theorem excess_perm (h : v.Perm w) (k : Nat) : excess k v = excess k w :=
  (h.map _).sum_nat

@[simp] theorem excess_zero (l : List Nat) : excess 0 l = l.sum :=
  congrArg List.sum (List.map_id l)

/-- Each process that has more than `k` ticks to go adds one tick to the excess of `k`. -/
theorem excess_succ (k : Nat) (l : List Nat) :
    excess k l = excess (k + 1) l + l.countP (fun x => k < x) := by
  induction l with
  | nil => rfl
  | cons x l ih =>
    rw [excess_cons, excess_cons, List.countP_cons, ih]
    by_cases hx : k < x
    · simp only [hx, decide_true, if_true]
      omega
    · simp only [hx, decide_false, Bool.false_eq_true, if_false]
      omega

/-- Each process that has more than `k` ticks to go has `k` ticks that are not in excess. -/
theorem excess_add_le (k : Nat) (l : List Nat) :
    excess k l + k * l.countP (fun x => k < x) ≤ l.sum := by
  induction l with
  | nil => exact Nat.le_refl _
  | cons x l ih =>
    rw [excess_cons, List.countP_cons, List.sum_cons, Nat.mul_add]
    by_cases hx : k < x
    · simp only [hx, decide_true, if_true]
      omega
    · simp only [hx, decide_false, Bool.false_eq_true, if_false]
      omega

/-- If nobody has less than `k` ticks to go, nothing else is not in excess. -/
theorem excess_add_eq (h : ∀ x ∈ l, k ≤ x) : excess k l + k * l.length = l.sum := by
  induction l with
  | nil => rfl
  | cons x l ih =>
    obtain ⟨hx, hl⟩ := List.forall_mem_cons.mp h
    have hrest := ih hl
    rw [excess_cons, List.length_cons, List.sum_cons, Nat.mul_add]
    omega

/-- There is nothing in excess of all the work there is. -/
theorem excess_eq_zero (h : l.sum ≤ k) : excess k l = 0 := by
  induction l with
  | nil => rfl
  | cons x l ih =>
    rw [List.sum_cons] at h
    rw [excess_cons, ih (by omega)]
    omega

/-- If there are no more numbers above any bound, the sum is no greater. -/
theorem sum_le_of_countP_le
    (h : ∀ k, v.countP (fun x => k < x) ≤ w.countP (fun x => k < x)) : v.sum ≤ w.sum := by
  have hexcess : ∀ n k, v.sum ≤ k + n → excess k v ≤ excess k w := by
    intro n
    induction n with
    | zero =>
      intro k hk
      rw [excess_eq_zero (k := k) hk]
      exact Nat.zero_le _
    | succ n ih =>
      intro k hk
      have hrest := ih (k + 1) (by omega)
      have hcount := h k
      rw [excess_succ k v, excess_succ k w]
      omega
  have hall := hexcess v.sum 0 (Nat.le_add_left _ _)
  rwa [excess_zero, excess_zero] at hall

/-! ## Majorization -/

/-- Two backlogs of the same work, of which `v` has as much in excess of every number of ticks as `w`,
or more. -/
structure Majorizes (v w : List Nat) : Prop where
  sum : v.sum = w.sum
  excess : ∀ k, excess k w ≤ excess k v

theorem Majorizes.refl (l : List Nat) : Majorizes l l :=
  ⟨rfl, fun _ => Nat.le_refl _⟩

theorem Majorizes.perm {v' w' : List Nat} (h : Majorizes v w) (hv : v.Perm v') (hw : w.Perm w') :
    Majorizes v' w' :=
  ⟨hv.sum_nat.symm.trans (h.sum.trans hw.sum_nat), fun k =>
    excess_perm hv k ▸ excess_perm hw k ▸ h.excess k⟩

/-- The same processes may come to both. -/
theorem Majorizes.append (h : Majorizes v w) (l : List Nat) : Majorizes (l ++ v) (l ++ w) where
  sum := by rw [List.sum_append, List.sum_append, h.sum]
  excess := fun k => by
    rw [excess_append, excess_append]
    exact Nat.add_le_add_left (h.excess k) _

/-- **A backlog that majorizes another one is made of no more processes.** -/
theorem Majorizes.length_le (h : Majorizes v w) (hv : ∀ x ∈ v, 0 < x) : v.length ≤ w.length := by
  have hmine := excess_add_eq (k := 1) hv
  have hothers : w.sum = Backlog.excess 1 w + w.countP (fun x => 0 < x) :=
    (excess_zero w).symm.trans (excess_succ 0 w)
  have hle := List.countP_le_length (p := fun x => decide (0 < x)) (l := w)
  have hexcess := h.excess 1
  have hsum := h.sum
  omega

theorem eq_nil_iff_sum (h : ∀ x ∈ l, 0 < x) : l = [] ↔ l.sum = 0 := by
  cases l with
  | nil => exact ⟨fun _ => rfl, fun _ => rfl⟩
  | cons x l =>
    have hpos := h x List.mem_cons_self
    rw [List.sum_cons]
    exact ⟨fun hnil => absurd hnil (List.cons_ne_nil x l), fun hsum => by omega⟩

/-- Backlogs of the same work are empty together. -/
theorem Majorizes.eq_nil_iff (h : Majorizes v w) (hv : ∀ x ∈ v, 0 < x) (hw : ∀ x ∈ w, 0 < x) :
    v = [] ↔ w = [] := by
  rw [eq_nil_iff_sum hv, eq_nil_iff_sum hw, h.sum]

/-! ## Burning a tick -/

/-- The backlog of a process that has `x` ticks to go and of others, when it has burnt one. -/
def burn (x : Nat) (others : List Nat) : List Nat :=
  if x - 1 = 0 then others else (x - 1) :: others

theorem sum_burn (x : Nat) (l : List Nat) : (burn x l).sum = x - 1 + l.sum := by
  unfold burn
  split
  · omega
  · exact List.sum_cons

theorem excess_burn (k x : Nat) (l : List Nat) :
    excess k (burn x l) = x - 1 - k + excess k l := by
  unfold burn
  split
  · omega
  · exact excess_cons k (x - 1) l

/-- If everybody has more than `k` ticks to go in a backlog that majorizes another one, in which
somebody has not, then it has more in excess of `k`. -/
theorem Majorizes.excess_lt (h : Majorizes v w) (hv : ∀ x ∈ v, k < x) (hy : y ∈ w) (hpos : 0 < y)
    (hle : y ≤ k) : Backlog.excess k w < Backlog.excess k v := by
  obtain ⟨rest, hrest⟩ : ∃ rest, w.Perm (y :: rest) := ⟨_, List.perm_cons_erase hy⟩
  have hw := excess_succ k w
  have hmine := excess_add_eq fun x hx => Nat.le_of_lt (hv x hx)
  have hmore : Backlog.excess (k + 1) v + (k + 1) * v.length = v.sum := excess_add_eq hv
  -- what that somebody has to go is neither in excess nor is it of those who have more than `k`
  have hslack : Backlog.excess k w + k * w.countP (fun x => k < x) + y ≤ w.sum := by
    have hothers := excess_add_le k rest
    rw [excess_perm hrest, hrest.countP_eq, hrest.sum_nat, excess_cons, List.countP_cons,
      List.sum_cons, if_neg (by simpa using hle), Nat.add_zero]
    omega
  have hsum := h.sum
  have hnext := h.excess (k + 1)
  by_contra hnot
  have hlen : v.length ≤ w.countP (fun x => k < x) := by
    rw [Nat.add_mul, Nat.one_mul] at hmore
    omega
  have hmul := Nat.mul_le_mul_left k hlen
  omega

/-- **Burning a tick of the shortest process keeps a backlog unevenly spread.** -/
theorem Majorizes.burn (h : Majorizes (x :: v) (y :: w)) (hleast : ∀ z ∈ v, x ≤ z) (hx : 0 < x)
    (hy : 0 < y) : Majorizes (burn x v) (burn y w) := by
  refine ⟨?_, fun k => ?_⟩
  · have hsum := h.sum
    rw [List.sum_cons, List.sum_cons] at hsum
    rw [sum_burn, sum_burn]
    omega
  · have hexcess := h.excess k
    rw [excess_cons, excess_cons] at hexcess
    rw [excess_burn, excess_burn]
    rcases Nat.lt_or_ge k x with hkx | hkx
    · rcases Nat.lt_or_ge k y with hky | hky
      · omega
      · have hmore : ∀ z ∈ x :: v, k < z :=
          List.forall_mem_cons.mpr ⟨hkx, fun z hz => Nat.lt_of_lt_of_le hkx (hleast z hz)⟩
        have hlt := h.excess_lt hmore List.mem_cons_self hy hky
        rw [excess_cons, excess_cons] at hlt
        omega
    · omega

end Backlog
end Uniprocessor
