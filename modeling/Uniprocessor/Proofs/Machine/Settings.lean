import Uniprocessor.Proofs.Attempt
import Uniprocessor.Proofs.Machine.Operations

/-!
# What a dispatch leaves alone

A dispatch moves processes about.  It does not touch the policy, the room in the ready structure, or
the figures that are being counted; the tick is counted after it, as busy if the processor has been
given away.

This is a matter of the single operations, and holds of them whether they succeed or not.  So it is
proved along the way in which attempts are put together (`Attempt.andThen_state`), and needs no
invariant.

* `Scheduler.Uncounted`: what a dispatch leaves alone;
* `Machine.uncounted_dispatch`: that it does;
* `Machine.runTick_eq`: the end of a tick, taken apart;
* `Machine.runTick_counted`: **the end of a tick counts one tick.**
-/

namespace Uniprocessor

namespace Metrics

@[simp] theorem finishes_countTick (k : Metrics) (busy : Bool) :
    (k.countTick busy).finishes = k.finishes := by
  unfold countTick
  split <;> rfl

@[simp] theorem rejected_countTick (k : Metrics) (busy : Bool) :
    (k.countTick busy).rejected = k.rejected := by
  unfold countTick
  split <;> rfl

end Metrics

namespace Scheduler

/-- What a dispatch leaves alone. -/
structure Uncounted (s s' : Scheduler) : Prop where
  policy : s'.policy = s.policy
  capacity : s'.ready.capacity = s.ready.capacity
  metrics : s'.metrics = s.metrics

variable {s s' s'' : Scheduler}

theorem Uncounted.refl (s : Scheduler) : s.Uncounted s :=
  ⟨rfl, rfl, rfl⟩

theorem Uncounted.trans (h : s.Uncounted s') (h' : s'.Uncounted s'') : s.Uncounted s'' :=
  ⟨h'.policy.trans h.policy, h'.capacity.trans h.capacity, h'.metrics.trans h.metrics⟩

theorem uncounted_decide (s : Scheduler) (tick : Tick) (left : Option Nat) :
    s.Uncounted (s.decide tick left).2 := by
  unfold decide
  split
  · exact .refl s
  · split
    · exact .refl s
    · split
      · exact .refl s
      · split <;> exact ⟨rfl, rfl, rfl⟩
    · exact ⟨rfl, rfl, rfl⟩

theorem uncounted_takeNext (s : Scheduler) : s.Uncounted s.takeNext.state := by
  unfold takeNext
  split
  · exact .refl s
  · rename_i hready
    exact ⟨rfl, ReadyQueue.capacity_take hready, rfl⟩

theorem uncounted_detach (s : Scheduler) : s.Uncounted s.detach.state := by
  unfold detach
  split
  · exact .refl s
  · split
    · exact ⟨rfl, rfl, rfl⟩
    · split <;> exact ⟨rfl, rfl, rfl⟩

theorem uncounted_requeue (s : Scheduler) (tick : Tick) (slot : Slot) (b : ControlBlock)
    (left : Nat) : s.Uncounted (s.requeue tick slot b left).state := by
  unfold requeue
  simp only []
  split
  · exact ⟨rfl, rfl, rfl⟩
  · rename_i hready
    exact ⟨rfl, ReadyQueue.capacity_insert hready, rfl⟩

theorem uncounted_freshSlice (s : Scheduler) : s.Uncounted s.freshSlice := by
  unfold freshSlice
  split <;> exact ⟨rfl, rfl, rfl⟩

end Scheduler

namespace Machine

/-- The schedulers of two machines differ in nothing but what a dispatch changes. -/
def Uncounted (m m' : Machine) : Prop :=
  Scheduler.Uncounted m.toScheduler m'.toScheduler

variable {m m' : Machine} {tick : Tick}

/-- Whatever the units answer, and whether they do, the scheduler stays as it is. -/
theorem uncounted_command (m : Machine) (x : Except Failure UnitPool) :
    m.Uncounted (m.command x).state := by
  cases x <;> exact Scheduler.Uncounted.refl _

theorem uncounted_refresh (m : Machine) : m.Uncounted m.refresh.state := by
  unfold refresh
  split
  · exact Scheduler.Uncounted.refl _
  · exact Scheduler.Uncounted.refl _
  · exact Attempt.andThen_state (Scheduler.Uncounted.refl _)
      fun _ n (hn : m.Uncounted n) => hn.trans ⟨rfl, rfl, rfl⟩

theorem uncounted_occupy (m : Machine) (tick : Tick) (slot : Slot) :
    m.Uncounted (m.occupy tick slot).state := by
  unfold Machine.occupy
  split
  · exact Scheduler.Uncounted.refl _
  · split
    · exact Attempt.andThen_state (uncounted_command m _)
        fun _ n (hn : m.Uncounted n) => hn.trans ⟨rfl, rfl, rfl⟩
    · exact ⟨rfl, rfl, rfl⟩

theorem uncounted_preempt (m : Machine) (tick : Tick) :
    m.Uncounted (m.preempt tick).state := by
  refine Attempt.andThen_state (P := m.Uncounted) (Scheduler.uncounted_takeNext _) ?_
  intro next m₁ h₁
  refine Attempt.andThen_state (P := m.Uncounted) (h₁.trans (Scheduler.uncounted_detach _)) ?_
  rintro ⟨slot, b, unit⟩ m₂ h₂
  refine Attempt.andThen_state (P := m.Uncounted) (h₂.trans (uncounted_command _ _)) ?_
  intro _ m₃ h₃
  refine Attempt.andThen_state (P := m.Uncounted) h₃ ?_
  intro left m₄ h₄
  exact Attempt.andThen_state (P := m.Uncounted)
    (h₄.trans (Scheduler.uncounted_requeue _ _ _ _ _)) fun _ _ h₅ => h₅

theorem uncounted_beginTurn (m : Machine) (tick : Tick) (slot : Slot) :
    m.Uncounted (m.beginTurn tick slot).state :=
  (Scheduler.uncounted_freshSlice _).trans (uncounted_occupy (m.withScheduler _) tick slot)

/-- **A dispatch leaves the policy, the room and the figures alone.** -/
theorem uncounted_dispatch (m : Machine) (tick : Tick) : m.Uncounted (m.dispatch tick).state := by
  refine Attempt.andThen_state (P := m.Uncounted) (uncounted_refresh m) ?_
  intro left m₁ h₁
  have hdecide := h₁.trans (Scheduler.uncounted_decide m₁.toScheduler tick left)
  split
  · rename_i s hout
    rw [hout] at hdecide
    exact hdecide
  · rename_i s hout
    rw [hout] at hdecide
    exact Attempt.andThen_state (P := m.Uncounted)
      (hdecide.trans (Scheduler.uncounted_takeNext _))
      fun next m₂ h₂ => h₂.trans (uncounted_beginTurn m₂ tick next)
  · rename_i s hout
    rw [hout] at hdecide
    exact Attempt.andThen_state (P := m.Uncounted)
      (hdecide.trans (uncounted_preempt (m₁.withScheduler s) tick))
      fun next m₂ h₂ => h₂.trans (uncounted_beginTurn m₂ tick next)

/-- The end of a tick is a dispatch, unless nobody waits, and the count. -/
theorem runTick_eq (h : m.runTick tick = .done () m') :
    ∃ m₁, (m.ready.isEmpty = true ∧ m₁ = m ∨
        m.ready.isEmpty = false ∧ m.dispatch tick = .done () m₁) ∧
      m' = m₁.withScheduler m₁.countTick := by
  obtain ⟨_, m₁, hdispatch, hcount⟩ := Attempt.andThen_eq_done h
  refine ⟨m₁, ?_, (congrArg Attempt.state hcount).symm⟩
  cases hempty : m.ready.isEmpty with
  | true =>
    rw [hempty, if_pos rfl] at hdispatch
    exact Or.inl ⟨rfl, (congrArg Attempt.state hdispatch).symm⟩
  | false =>
    rw [hempty, if_neg Bool.false_ne_true] at hdispatch
    exact Or.inr ⟨rfl, hdispatch⟩

/-- **The end of a tick counts one tick**, as busy if the processor has been given away. -/
theorem runTick_counted (h : m.runTick tick = .done () m') :
    m'.policy = m.policy ∧ m'.ready.capacity = m.ready.capacity ∧
      m'.metrics = m.metrics.countTick m'.running.isSome := by
  obtain ⟨m₁, hdispatch, rfl⟩ := runTick_eq h
  have hsame : m.Uncounted m₁ := by
    rcases hdispatch with ⟨-, rfl⟩ | ⟨-, hdispatch⟩
    · exact Scheduler.Uncounted.refl _
    · have hstate := uncounted_dispatch m tick
      rw [hdispatch] at hstate
      exact hstate
  exact ⟨hsame.policy, hsame.capacity, congrArg (Metrics.countTick · _) hsame.metrics⟩

end Machine
end Uniprocessor
