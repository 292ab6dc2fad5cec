import Uniprocessor.Proofs.Units.Pool

/-!
# Countdowns that take several ticks

A unit that has been sent several ticks takes them one after the other.  A unit is *still* up to a
tick if it counts none up to it: it is paused, or has accounted for them, or has nothing left.  A
still unit may take such ticks at any time, and nothing comes of them.

* `Countdown.after`, `reportsOf`: what comes of a list of ticks;
* `Countdown.Still`: no tick up to the given one counts;
* `Still.onTick`, `Still.after`: nothing comes of such ticks;
* `UnitCommand.Quiets`: a command brings no tick up to the given one to count.
-/

namespace Uniprocessor
namespace Countdown

/-- A unit that has taken the ticks of a list. -/
def after (c : Countdown) (ticks : List Tick) : Countdown :=
  ticks.foldl (fun c tick => (c.onTick tick).2) c

/-- What a unit reports while it takes the ticks of a list. -/
def reportsOf (c : Countdown) : List Tick → List UnitReport
  | [] => []
  | tick :: ticks => (c.onTick tick).1.toList ++ (c.onTick tick).2.reportsOf ticks

/-- No tick up to the given one counts. -/
def Still (c : Countdown) (tick : Tick) : Prop :=
  ∀ k ≤ tick, c.counts k = false

variable {c : Countdown} {tick k : Tick} {ticks : List Tick}

@[simp] theorem after_nil (c : Countdown) : c.after [] = c := rfl

@[simp] theorem after_cons (c : Countdown) (tick : Tick) (ticks : List Tick) :
    c.after (tick :: ticks) = (c.onTick tick).2.after ticks := rfl

@[simp] theorem reportsOf_nil (c : Countdown) : c.reportsOf [] = [] := rfl

@[simp] theorem reportsOf_cons (c : Countdown) (tick : Tick) (ticks : List Tick) :
    c.reportsOf (tick :: ticks) = (c.onTick tick).1.toList ++ (c.onTick tick).2.reportsOf ticks :=
  rfl

theorem after_append (c : Countdown) (ticks ticks' : List Tick) :
    c.after (ticks ++ ticks') = (c.after ticks).after ticks' :=
  List.foldl_append

theorem reportsOf_append (c : Countdown) (ticks ticks' : List Tick) :
    c.reportsOf (ticks ++ ticks') = c.reportsOf ticks ++ (c.after ticks).reportsOf ticks' := by
  induction ticks generalizing c with
  | nil => rfl
  | cons tick ticks ih =>
    rw [List.cons_append, reportsOf_cons, reportsOf_cons, ih, List.append_assoc, after_cons]

@[simp] theorem after_unit (c : Countdown) (ticks : List Tick) : (c.after ticks).unit = c.unit := by
  induction ticks generalizing c with
  | nil => rfl
  | cons tick ticks ih => rw [after_cons, ih, onTick_unit]

/-- A tick that does not count changes nothing. -/
theorem onTick_of_not_counts (h : c.counts tick = false) : c.onTick tick = (none, c) := by
  rw [onTick, if_neg (by simp [h])]

/-- What brings no report changes nothing. -/
theorem onTick_of_none (h : (c.onTick tick).1 = none) : (c.onTick tick).2 = c := by
  unfold onTick at h ⊢
  split
  · rename_i hcounts
    rw [if_pos hcounts] at h
    exact absurd h (by simp)
  · rfl

/-- A unit that reports nothing has not changed. -/
theorem after_of_reportsOf_nil (h : c.reportsOf ticks = []) : c.after ticks = c := by
  induction ticks generalizing c with
  | nil => rfl
  | cons tick ticks ih =>
    rw [reportsOf_cons, List.append_eq_nil_iff] at h
    have hsame := onTick_of_none (Option.toList_eq_nil_iff.mp h.1)
    rw [hsame] at h
    rw [after_cons, hsame]
    exact ih h.2

theorem Still.onTick (h : c.Still tick) (hk : k ≤ tick) : c.onTick k = (none, c) :=
  onTick_of_not_counts (h k hk)

/-- A still unit takes ticks without anything coming of it. -/
theorem Still.after (h : c.Still tick) (hticks : ∀ k ∈ ticks, k ≤ tick) :
    c.after ticks = c ∧ c.reportsOf ticks = [] := by
  induction ticks with
  | nil => exact ⟨rfl, rfl⟩
  | cons k ticks ih =>
    obtain ⟨hafter, hreports⟩ := ih fun j hj => hticks j (List.mem_cons_of_mem _ hj)
    rw [after_cons, reportsOf_cons, h.onTick (hticks k List.mem_cons_self)]
    exact ⟨hafter, hreports⟩

/-- The first of some ticks of which no report comes changes nothing, and none comes of the others. -/
theorem onTick_of_reportsOf_nil (h : c.reportsOf (tick :: ticks) = []) :
    c.onTick tick = (none, c) ∧ c.reportsOf ticks = [] := by
  rw [reportsOf_cons, List.append_eq_nil_iff] at h
  have hnone := Option.toList_eq_nil_iff.mp h.1
  have hsame := onTick_of_none hnone
  exact ⟨Prod.ext hnone hsame, hsame ▸ h.2⟩

/-- What a unit answers to a command depends on what it has left. -/
theorem onCommand_ack {d : Countdown} (h : c.remaining = d.remaining) (x : UnitCommand) :
    (c.onCommand x).1 = (d.onCommand x).1 := by
  cases x <;> simp [onCommand, h]

@[simp] theorem onCommand_remaining (c : Countdown) (x : UnitCommand) :
    (c.onCommand x).2.remaining = c.remaining := by
  cases x <;> rfl

end Countdown

/-- A command that leaves a unit as it is, or still up to a tick. -/
def UnitCommand.Quiets (x : UnitCommand) (tick : Tick) : Prop :=
  ∀ c : Countdown, (c.onCommand x).2 = c ∨ (c.onCommand x).2.Still tick

namespace UnitCommand

variable {tick after : Tick}

theorem quiets_pause (tick : Tick) : pause.Quiets tick := by
  refine fun c => Or.inr fun k hk => ?_
  simp [Countdown.onCommand, Countdown.counts]

/-- A unit that is resumed does not count the ticks before. -/
theorem quiets_resume (h : tick ≤ after) : (resume after).Quiets tick := by
  refine fun c => Or.inr fun k hk => ?_
  have hfloor : ¬ max c.floor after < k :=
    Nat.not_lt_of_le (Nat.le_trans (Nat.le_trans hk h) (Nat.le_max_right _ _))
  simp [Countdown.onCommand, Countdown.counts, hfloor]

theorem quiets_stop (tick : Tick) : stop.Quiets tick :=
  fun _ => Or.inl rfl

/-- **Ticks that brought no report before a command bring none after it.** -/
theorem Quiets.reportsOf {x : UnitCommand} (hx : x.Quiets tick) {c : Countdown} {ticks : List Tick}
    (hticks : ∀ k ∈ ticks, k ≤ tick) (h : c.reportsOf ticks = []) :
    (c.onCommand x).2.reportsOf ticks = [] := by
  rcases hx c with hsame | hstill
  · exact hsame.symm ▸ h
  · exact (hstill.after hticks).2

end UnitCommand
end Uniprocessor
