import Uniprocessor.Proofs.Scheduler.Guise
import Uniprocessor.Scheduler.Machine

/-!
# Machines under a guise

A machine under a guise answers whatever it is asked as the machine itself does, only later: the parts
of an operation do, and so does the operation.  Nothing about the machines is needed for this, neither
that they are in order nor that they can be reached, and the reports may be any; a refusal leaves the two
as alike as a success.

* `Machine.Guised`: a machine is another one under a guise;
* `Machine.Guised.arrive`, `onReport`, `retire`, `runTick`, `advance`: **the operations keep it so.**
-/

namespace Uniprocessor

variable {g : Guise}

namespace Machine

/-- The machine `m'` is `m` under a guise. -/
structure Guised (g : Guise) (m m' : Machine) : Prop where
  scheduler : m.toScheduler.Guised g m'.toScheduler
  units : m'.units = m.units.later g.delay

/-- Two operations of machines that answer alike, and keep machines alike. -/
abbrev Concurs {α β : Type} (g : Guise) (f : α → β) (x : Attempt Machine α)
    (x' : Attempt Machine β) : Prop :=
  x.Guised g.delay f (Guised g) x'

variable {m m' : Machine}

namespace Guised

theorem withScheduler (h : m.Guised g m') {s s' : Scheduler} (hs : s.Guised g s') :
    (m.withScheduler s).Guised g (m'.withScheduler s') :=
  ⟨hs, h.units⟩

theorem schedule {α β : Type} (h : m.Guised g m') {f : α → β} {x : Attempt Scheduler α}
    {x' : Attempt Scheduler β} (hx : x.Guised g.delay f (Scheduler.Guised g) x') :
    Concurs g f (m.schedule x) (m'.schedule x') :=
  hx.within fun _ _ => h.withScheduler

theorem command (h : m.Guised g m') (x : Except Failure UnitPool) :
    Concurs g id (m.command x) (m'.command (delayed g.delay (UnitPool.later g.delay) x)) := by
  cases x with
  | ok units => exact .done ⟨h.scheduler, rfl⟩ ()
  | error e => exact .refused h e

theorem ask {α β : Type} (h : m.Guised g m') (f : α → β) (x : Except Failure α) :
    Concurs g f (m.ask x) (m'.ask (delayed g.delay f x)) :=
  ⟨rfl, h⟩

theorem remaining (h : m.Guised g m') (unit : UnitId) :
    m'.units.remaining unit = delayed g.delay id (m.units.remaining unit) := by
  rw [h.units, UnitPool.remaining_later]

/-- **An arrival is answered alike.** -/
theorem arrive (h : m.Guised g m') (tick : Tick) (p : Process) :
    Concurs g id (m.arrive tick p) (m'.arrive (tick + g.delay) (p.later g.delay)) :=
  h.schedule (h.scheduler.arrive tick p)

/-! ## Reports -/

theorem checkFinished (h : m.Guised g m') (b : ControlBlock) (left : Nat) :
    Concurs g id (m.checkFinished b left) (m'.checkFinished (b.under g) left) := by
  unfold Machine.checkFinished
  split
  · exact .done h ()
  · exact .refused h _

theorem retire (h : m.Guised g m') (tick : Tick) :
    Concurs g id (m.retire tick) (m'.retire (tick + g.delay)) := by
  unfold Machine.retire
  refine (h.schedule h.scheduler.evict).andThen fun (b, unit) m m' h => ?_
  change Concurs g id _ ((m'.ask (m'.units.remaining unit)).andThen _)
  rw [h.remaining]
  refine (h.ask id _).andThen fun left m m' h => ?_
  refine (h.checkFinished b left).andThen fun _ m m' h => ?_
  change Concurs g id _ ((m'.command (m'.units.reap unit)).andThen _)
  rw [h.units, UnitPool.reap_later]
  refine (h.command _).andThen fun _ m m' h => ?_
  have hnoted := h.withScheduler (h.scheduler.note (.reaped unit b.id))
  exact hnoted.schedule (hnoted.scheduler.close tick { b with remaining := left, state := .finished })

/-- **A report is taken alike.** -/
theorem onReport (h : m.Guised g m') (report : UnitReport) :
    Concurs g id (m.onReport report) (m'.onReport (report.later g.delay)) := by
  unfold Machine.onReport
  rw [h.scheduler.addressee]
  cases m.addressee report with
  | error e => exact .refused h e
  | ok place =>
    obtain ⟨slot, b⟩ := place
    cases report with
    | progress unit tick left =>
      exact .done (h.withScheduler (h.scheduler.heard slot b left)) ()
    | finished unit tick => exact h.retire tick

/-- **The units report alike.** -/
theorem advance (h : m.Guised g m') (tick : Tick) :
    (m'.advance (tick + g.delay)).1 = (m.advance tick).1.map (UnitReport.later g.delay) ∧
      (m.advance tick).2.Guised g (m'.advance (tick + g.delay)).2 := by
  unfold Machine.advance
  rw [h.units, UnitPool.advance_later]
  exact ⟨rfl, h.scheduler, rfl⟩

/-! ## Dispatch -/

theorem refresh (h : m.Guised g m') : Concurs g id m.refresh m'.refresh := by
  unfold Machine.refresh
  rw [h.scheduler.occupant]
  cases m.occupant with
  | error e => exact .refused h e
  | ok occupant =>
    cases occupant with
    | none => exact .done h none
    | some place =>
      obtain ⟨slot, b, unit⟩ := place
      change Concurs g id _ ((m'.ask (m'.units.remaining unit)).andThen _)
      rw [h.remaining]
      refine (h.ask id _).andThen fun left m m' h => ?_
      exact .done (h.withScheduler (h.scheduler.heard slot b left)) (some left)

theorem occupy (h : m.Guised g m') (tick : Tick) (slot : Slot) :
    Concurs g id (m.occupy tick slot) (m'.occupy (tick + g.delay) slot) := by
  unfold Machine.occupy
  rw [h.scheduler.candidate]
  cases m.candidate slot with
  | error e => exact .refused h e
  | ok b =>
    simp only [delayed_ok, ControlBlock.unit_under]
    cases b.unit with
    | some unit =>
      simp only []
      rw [h.units, UnitPool.resume_later]
      refine (h.command _).andThen fun _ m m' h => ?_
      have hresumed := h.scheduler.occupy tick slot (b.resumed tick) .resumed
      rw [← ControlBlock.resumed_under] at hresumed
      exact .done (h.withScheduler hresumed) ()
    | none =>
      simp only []
      have hstarted := h.scheduler.occupy tick slot (b.started tick m.units.next) .started
      rw [← ControlBlock.started_under] at hstarted
      rw [h.units, UnitPool.start_later]
      exact .done ⟨hstarted, rfl⟩ ()

theorem preempt (h : m.Guised g m') (tick : Tick) :
    Concurs g id (m.preempt tick) (m'.preempt (tick + g.delay)) := by
  unfold Machine.preempt
  refine (h.schedule h.scheduler.takeNext).andThen fun next m m' h => ?_
  refine (h.schedule h.scheduler.detach).andThen fun (slot, b, unit) m m' h => ?_
  change Concurs g id _ ((m'.command (m'.units.pause unit)).andThen _)
  rw [h.units, UnitPool.pause_later]
  refine (h.command _).andThen fun _ m m' h => ?_
  change Concurs g id _ ((m'.ask (m'.units.remaining unit)).andThen _)
  rw [h.remaining]
  refine (h.ask id _).andThen fun left m m' h => ?_
  exact (h.schedule (h.scheduler.requeue tick slot b left)).andThen fun _ m m' h => .done h next

theorem beginTurn (h : m.Guised g m') (tick : Tick) (slot : Slot) :
    Concurs g id (m.beginTurn tick slot) (m'.beginTurn (tick + g.delay) slot) :=
  (h.withScheduler h.scheduler.freshSlice).occupy tick slot

theorem dispatch (h : m.Guised g m') (tick : Tick) :
    Concurs g id (m.dispatch tick) (m'.dispatch (tick + g.delay)) := by
  unfold Machine.dispatch
  refine h.refresh.andThen fun left m m' h => ?_
  obtain ⟨hsame, hdecided⟩ := h.scheduler.decide tick left
  generalize m.decide tick left = out at hsame hdecided ⊢
  simp only [id]
  generalize m'.decide (tick + g.delay) left = out' at hsame hdecided ⊢
  obtain ⟨decision, s⟩ := out
  obtain ⟨decision', s'⟩ := out'
  obtain rfl : decision' = decision := hsame
  have h := h.withScheduler hdecided
  cases decision' with
  | keep => exact .done h ()
  | launch => exact (h.schedule h.scheduler.takeNext).andThen fun next m m' h => h.beginTurn tick next
  | swap => exact (h.preempt tick).andThen fun next m m' h => h.beginTurn tick next

/-- **A tick ends alike.** -/
theorem runTick (h : m.Guised g m') (tick : Tick) :
    Concurs g id (m.runTick tick) (m'.runTick (tick + g.delay)) := by
  unfold Machine.runTick
  rw [h.scheduler.ready]
  refine Attempt.Guised.andThen (f := id) ?_ fun _ m m' h =>
    .done (h.withScheduler h.scheduler.countTick) ()
  split
  · exact .done h ()
  · exact h.dispatch tick

end Guised

end Machine

end Uniprocessor
