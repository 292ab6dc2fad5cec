import Uniprocessor.Proofs.Attempt
import Uniprocessor.Proofs.Machine.Timing

/-!
# A tick of a lockstep run

A tick takes the reports, lets the due arrivals in, and dispatches.  Here the three parts are put
together from what the operations of the machine come to; runs are reasoned about with these
theorems and do not open a tick again.

* `Simulation.LetIn`: arrivals that have all been admitted or rejected;
* `Simulation.Ticked`, `Simulation.step_ticked`: **what a tick comes to**;
* `Simulation.runFor_induction`: what every tick keeps, a run keeps;
* `Simulation.exists_last`, `runFor_unique`: where a run that is over has ended.
-/

namespace Uniprocessor
namespace Simulation

/-- All of a list of arrivals have been answered at a tick. -/
inductive LetIn (tick : Tick) : Machine → List Process → Machine → Prop
  | nil (m : Machine) : LetIn tick m [] m
  | cons {m m' : Machine} {p : Process} {ps : List Process} {admission : Admission} {s : Scheduler}
      (ha : m.toScheduler.Arrival tick p (.done admission s))
      (hsound : (m.withScheduler s).Sound [])
      (hrest : LetIn tick (m.withScheduler s) ps m') : LetIn tick m (p :: ps) m'

/-- Letting arrivals in goes on as long as they are answered. -/
theorem admitAll_cons (m : Machine) (tick : Tick) (p : Process) (ps : List Process) :
    admitAll m tick (p :: ps) = (m.arrive tick p).andThen fun _ m => admitAll m tick ps := rfl

/-- A list of arrivals is either answered completely, or refused. -/
theorem admitAll_letIn {m : Machine} (h : m.Sound []) (tick : Tick) (ps : List Process) :
    (∃ m', admitAll m tick ps = .done () m' ∧ LetIn tick m ps m' ∧ m'.Sound []) ∨
      ∃ e m', admitAll m tick ps = .refused e m' := by
  induction ps generalizing m with
  | nil => exact Or.inl ⟨m, rfl, .nil m, h⟩
  | cons p ps ih =>
    have harrival := h.scheduler.arrival tick p
    have hafter := h.arrive tick p
    rw [Machine.arrive, Machine.schedule] at hafter
    rw [admitAll_cons, Machine.arrive, Machine.schedule]
    generalize m.toScheduler.arrive tick p = outcome at harrival hafter ⊢
    obtain ⟨result, s⟩ := outcome
    cases result with
    | error e => exact Or.inr ⟨e, m.withScheduler s, rfl⟩
    | ok admission =>
      rcases ih hafter with ⟨m', hrest, hletIn, hsound⟩ | ⟨e, m', hrest⟩
      · exact Or.inl ⟨m', hrest, .cons harrival hafter hletIn, hsound⟩
      · exact Or.inr ⟨e, m', hrest⟩

/-- Nobody who arrives changes the policy. -/
theorem LetIn.policy_eq {tick : Tick} {m m' : Machine} {ps : List Process} (h : LetIn tick m ps m') :
    m'.policy = m.policy := by
  induction h with
  | nil m => rfl
  | cons ha hsound hrest ih => cases ha <;> exact ih

/-- What a tick comes to: it is refused; or the reports and the arrivals are taken, and nobody is
left, or else the processor is given away and the run goes on. -/
inductive Ticked (s : Simulation) : TickOutcome → Prop
  | failed (cause : Failure) (m : Machine) {reports : List UnitReport} {m₁ : Machine}
      (hreported : Machine.Reported s.machine s.tick reports m₁) (hsound₁ : m₁.Sound [])
      (hdeliver : deliver (s.machine.advance s.tick).2 (s.machine.advance s.tick).1 = .done () m₁)
      (hrefused : admitAll m₁ s.tick (due s.pending s.tick) = .refused cause m) :
      Ticked s (.failed cause m)
  | finished {reports : List UnitReport} {m₁ m₂ : Machine}
      (hreported : Machine.Reported s.machine s.tick reports m₁) (hsound₁ : m₁.Sound [])
      (hletIn : LetIn s.tick m₁ (due s.pending s.tick) m₂) (hsound₂ : m₂.Sound [])
      (hdone : m₂.outstanding = 0) (hsettle : s.settle = .done () m₂) :
      Ticked s (.finished m₂ s.tick)
  | running {reports : List UnitReport} {m₁ m₂ m₃ : Machine}
      (hreported : Machine.Reported s.machine s.tick reports m₁) (hsound₁ : m₁.Sound [])
      (hletIn : LetIn s.tick m₁ (due s.pending s.tick) m₂) (hsound₂ : m₂.Sound [])
      (hdone : m₂.outstanding ≠ 0) (hturn : Machine.Turn m₂ s.tick m₃) (hsound₃ : m₃.Sound [])
      (hrun : m₂.runTick s.tick = .done () m₃) (hsettle : s.settle = .done () m₂) :
      Ticked s (.running ⟨m₃, notDue s.pending s.tick, s.tick + 1⟩)

/-- The beginning of a tick. -/
theorem settle_eq (s : Simulation) :
    s.settle = (deliver (s.machine.advance s.tick).2 (s.machine.advance s.tick).1).andThen
      fun () m => admitAll m s.tick (due s.pending s.tick) := rfl

/-- Where the arrivals of a tick have been answered, nobody is left, or else the processor is given
away and the run goes on. -/
theorem step_of_settle {s : Simulation} {m : Machine} (hsettle : s.settle = .done () m)
    (hm : m.Sound []) :
    (m.outstanding = 0 ∧ s.step = .finished m s.tick) ∨
      ∃ m', m.outstanding ≠ 0 ∧ s.step = .running ⟨m', notDue s.pending s.tick, s.tick + 1⟩ ∧
        m.runTick s.tick = .done () m' ∧ Machine.Turn m s.tick m' ∧ m'.Sound [] := by
  rw [step, hsettle]
  show (_ ∧ (if m.isDone then TickOutcome.finished m s.tick else _) = _) ∨
    ∃ m', _ ∧ (if m.isDone then TickOutcome.finished m s.tick else _) = _ ∧ _
  by_cases hdone : m.isDone = true
  · rw [if_pos hdone]
    exact Or.inl ⟨beq_iff_eq.mp hdone, rfl⟩
  · obtain ⟨m', hrun, hturn, hsound⟩ := hm.runTick s.tick
    rw [if_neg hdone, hrun]
    exact Or.inr ⟨m', fun hzero => hdone (beq_iff_eq.mpr hzero), rfl, rfl, hturn, hsound⟩

theorem step_of_refused {s : Simulation} {e : Failure} {m : Machine} (hsettle : s.settle = .refused e m) :
    s.step = .failed e m := by
  rw [step, hsettle]
  rfl

/-- **A tick comes to nothing else.** -/
theorem step_ticked {s : Simulation} (h : s.machine.Sound []) : Ticked s s.step := by
  obtain ⟨m₁, hdeliver, hreported, hsound₁⟩ := h.report s.tick
  have hsettle : s.settle = admitAll m₁ s.tick (due s.pending s.tick) := by
    rw [settle_eq, hdeliver, Attempt.andThen_done]
  rcases admitAll_letIn hsound₁ s.tick (due s.pending s.tick) with
    ⟨m₂, hanswered, hletIn, hsound₂⟩ | ⟨e, m₂, hanswered⟩
  · have hsettled := hsettle.trans hanswered
    rcases step_of_settle hsettled hsound₂ with
      ⟨hdone, hstep⟩ | ⟨m₃, hleft, hstep, hrun, hturn, hsound₃⟩
    · rw [hstep]
      exact .finished hreported hsound₁ hletIn hsound₂ hdone hsettled
    · rw [hstep]
      exact .running hreported hsound₁ hletIn hsound₂ hleft hturn hsound₃ hrun hsettled
  · rw [step_of_refused (hsettle.trans hanswered)]
    exact .failed e m₂ hreported hsound₁ hdeliver hanswered

/-- Reports have been taken and arrivals answered, if both have been done with. -/
theorem delivered_of_settle {s : Simulation} (h : s.machine.Sound []) {m : Machine}
    (hsettle : s.settle = .done () m) :
    ∃ m₁, deliver (s.machine.advance s.tick).2 (s.machine.advance s.tick).1 = .done () m₁ ∧
      Machine.Reported s.machine s.tick (s.machine.advance s.tick).1 m₁ ∧ m₁.Sound [] ∧
      LetIn s.tick m₁ (due s.pending s.tick) m := by
  obtain ⟨m₁, hdeliver, hreported, hsound₁⟩ := h.report s.tick
  rw [settle_eq, hdeliver, Attempt.andThen_done] at hsettle
  rcases admitAll_letIn hsound₁ s.tick (due s.pending s.tick) with
    ⟨m₂, hanswered, hletIn, -⟩ | ⟨e, m₂, hanswered⟩
  · obtain rfl : m₂ = m := congrArg Attempt.state (hanswered.symm.trans hsettle)
    exact ⟨m₁, hdeliver, hreported, hsound₁, hletIn⟩
  · exact absurd (hanswered.symm.trans hsettle) (Attempt.refused_ne_done e m₂ m ())

/-- What the beginning of a tick comes to, if the arrivals have been answered. -/
theorem letIn_of_settle {s : Simulation} (h : s.machine.Sound []) {m : Machine}
    (hsettle : s.settle = .done () m) :
    ∃ m₁, Machine.Reported s.machine s.tick (s.machine.advance s.tick).1 m₁ ∧ m₁.Sound [] ∧
      LetIn s.tick m₁ (due s.pending s.tick) m := by
  obtain ⟨m₁, -, hletIn⟩ := delivered_of_settle h hsettle
  exact ⟨m₁, hletIn⟩

/-- The last tick of a run that goes no further, or the state after as many ticks as were asked
for; either way a property that every tick keeps holds before. -/
theorem runFor_induction {P : Simulation → Prop} (hstep : ∀ s next, P s → s.step = .running next →
    P next) {s : Simulation} (h : P s) (n : Nat) :
    (∃ s', P s' ∧ s'.step = runFor n s ∧ ∀ next, runFor n s ≠ .running next) ∨
      ∃ s', P s' ∧ runFor n s = .running s' := by
  induction n generalizing s with
  | zero => exact Or.inr ⟨s, h, rfl⟩
  | succ n ih =>
    rw [runFor]
    cases hs : s.step with
    | running next => exact ih (hstep s next h hs)
    | finished m tick => exact Or.inl ⟨s, h, hs, by simp⟩
    | failed e m => exact Or.inl ⟨s, h, hs, by simp⟩

/-- What every tick keeps holds wherever a run has come to. -/
theorem of_reached {P : Simulation → Prop} (hstep : ∀ s next, P s → s.step = .running next → P next)
    {s₀ s : Simulation} (h : P s₀) {n : Nat} (hreached : runFor n s₀ = .running s) : P s := by
  rcases runFor_induction hstep h n with ⟨last, -, -, hover⟩ | ⟨s', hs', hrun⟩
  · exact absurd hreached (hover s)
  · exact TickOutcome.running.inj (hreached.symm.trans hrun) ▸ hs'

/-! ## Runs of different lengths -/

variable {s s' : Simulation} {n m : Nat}

theorem runFor_succ_of_step (h : s.step = .running s') : runFor (n + 1) s = runFor n s' := by
  rw [runFor, h]

theorem runFor_succ_of_over (h : ∀ next, s.step ≠ .running next) : runFor (n + 1) s = s.step := by
  rw [runFor]
  cases hs : s.step with
  | running next => exact absurd hs (h next)
  | finished m tick => rfl
  | failed e m => rfl

/-- A run that goes on has done so from its first tick. -/
theorem runFor_succ_eq_running (h : runFor (n + 1) s = .running s') :
    ∃ next, s.step = .running next ∧ runFor n next = .running s' := by
  by_cases hs : ∃ next, s.step = .running next
  · obtain ⟨next, hs⟩ := hs
    exact ⟨next, hs, (runFor_succ_of_step hs).symm.trans h⟩
  · rw [runFor_succ_of_over (not_exists.mp hs)] at h
    exact absurd ⟨s', h⟩ hs

/-- One more tick of a run that goes on. -/
theorem runFor_succ_of_running (h : runFor n s = .running s') : runFor (n + 1) s = s'.step := by
  induction n generalizing s with
  | zero =>
    obtain rfl : s = s' := TickOutcome.running.inj h
    rw [runFor]
    cases s.step <;> rfl
  | succ n ih =>
    obtain ⟨next, hs, h⟩ := runFor_succ_eq_running h
    rw [runFor_succ_of_step hs]
    exact ih h

/-- A run comes to an end with its first tick or after it. -/
theorem runFor_succ_eq_finished {last : Machine} {t : Tick} (h : runFor (n + 1) s = .finished last t) :
    s.step = .finished last t ∨
      ∃ next, s.step = .running next ∧ runFor n next = .finished last t := by
  by_cases hs : ∃ next, s.step = .running next
  · obtain ⟨next, hs⟩ := hs
    exact Or.inr ⟨next, hs, (runFor_succ_of_step hs).symm.trans h⟩
  · exact Or.inl ((runFor_succ_of_over (not_exists.mp hs)).symm.trans h)

/-- A run that goes on does so from where it has come to. -/
theorem runFor_add_of_running (h : runFor n s = .running s') (k : Nat) :
    runFor (n + k) s = runFor k s' := by
  induction n generalizing s with
  | zero =>
    obtain rfl : s = s' := TickOutcome.running.inj h
    rw [Nat.zero_add]
  | succ n ih =>
    obtain ⟨next, hs, h⟩ := runFor_succ_eq_running h
    rw [Nat.succ_add, runFor_succ_of_step hs]
    exact ih h

/-- A run that is over stays as it is. -/
theorem runFor_of_le (h : ∀ next, runFor n s ≠ .running next) (hle : n ≤ m) :
    runFor m s = runFor n s := by
  induction n generalizing s m with
  | zero => exact absurd rfl (h s)
  | succ n ih =>
    obtain ⟨m, rfl⟩ := Nat.exists_eq_add_of_le' (Nat.lt_of_lt_of_le (Nat.succ_pos n) hle)
    by_cases hs : ∃ next, s.step = .running next
    · obtain ⟨next, hs⟩ := hs
      rw [runFor_succ_of_step hs] at h
      rw [runFor_succ_of_step hs, runFor_succ_of_step hs]
      exact ih h (Nat.le_of_succ_le_succ hle)
    · rw [runFor_succ_of_over (not_exists.mp hs), runFor_succ_of_over (not_exists.mp hs)]

/-- A run that ends goes on to its end from wherever it has come. -/
theorem exists_finished_of_reached {k : Nat} {last : Machine} {t : Tick}
    (hreached : runFor n s = .running s') (hend : runFor k s = .finished last t) :
    ∃ j, runFor j s' = .finished last t := by
  obtain ⟨j, hj⟩ := Nat.exists_eq_add_of_le (Nat.le_max_left n k)
  refine ⟨j, ?_⟩
  rw [← runFor_add_of_running hreached, ← hj, ← hend]
  exact runFor_of_le (by simp [hend]) (Nat.le_max_right n k)

/-- A tick of a run that goes on. -/
theorem tick_of_step (h : s.step = .running s') : s'.tick = s.tick + 1 := by
  rw [step] at h
  split at h
  · exact absurd h (by simp)
  · split at h
    · exact absurd h (by simp)
    · split at h
      · exact absurd h (by simp)
      · exact (TickOutcome.running.inj h).symm ▸ rfl

/-- A run that has come to its tick comes to the next one. -/
theorem reached_step {s₀ : Simulation} (hreached : runFor s.tick s₀ = .running s)
    (hnext : s.step = .running s') : runFor s'.tick s₀ = .running s' := by
  rw [tick_of_step hnext, runFor_succ_of_running hreached, hnext]

theorem tick_of_runFor (h : runFor n s = .running s') : s'.tick = s.tick + n := by
  induction n generalizing s with
  | zero =>
    obtain rfl : s = s' := TickOutcome.running.inj h
    rfl
  | succ n ih =>
    obtain ⟨next, hs, h⟩ := runFor_succ_eq_running h
    rw [ih h, tick_of_step hs, Nat.add_assoc, Nat.add_comm 1 n]

/-- A run that is over has a last tick, before which everything holds that every tick keeps. -/
theorem exists_last {P : Simulation → Prop} (hstep : ∀ s next, P s → s.step = .running next →
    P next) (h : P s) (hended : ∀ next, runFor n s ≠ .running next) :
    ∃ k last, runFor k s = .running last ∧ P last ∧ (∀ next, last.step ≠ .running next) ∧
      ∀ m, k < m → runFor m s = last.step := by
  induction n generalizing s with
  | zero => exact absurd rfl (hended s)
  | succ n ih =>
    by_cases hs : ∃ next, s.step = .running next
    · obtain ⟨next, hs⟩ := hs
      rw [runFor_succ_of_step hs] at hended
      obtain ⟨k, last, hrun, hlast, hover, hafter⟩ := ih (hstep s next h hs) hended
      refine ⟨k + 1, last, (runFor_succ_of_step hs).trans hrun, hlast, hover, fun m hm => ?_⟩
      obtain ⟨m, rfl⟩ := Nat.exists_eq_add_of_le' (Nat.lt_of_lt_of_le (Nat.succ_pos k) hm.le)
      rw [runFor_succ_of_step hs]
      exact hafter m (Nat.lt_of_succ_lt_succ hm)
    · refine ⟨0, s, rfl, h, not_exists.mp hs, fun m hm => ?_⟩
      obtain ⟨m, rfl⟩ := Nat.exists_eq_add_of_le' hm
      exact runFor_succ_of_over (not_exists.mp hs)

/-- A run is over in one way only, however many ticks it has been given. -/
theorem runFor_unique (hn : ∀ next, runFor n s ≠ .running next)
    (hm : ∀ next, runFor m s ≠ .running next) : runFor m s = runFor n s := by
  rcases Nat.le_total n m with hle | hle
  · exact runFor_of_le hn hle
  · exact (runFor_of_le hm hle).symm

end Simulation
end Uniprocessor
