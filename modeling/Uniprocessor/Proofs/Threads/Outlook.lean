import Uniprocessor.Proofs.Arrivals.Generator
import Uniprocessor.Proofs.Attempt
import Uniprocessor.Proofs.Units.Caller
import Uniprocessor.Threads.System

/-!
# What is left of a tick

A scheduler on threads stands somewhere in the middle of a tick.  What is left of the tick from there
is an attempt on a machine, namely of the scheduler with the pool that its crew comes to, and whose
result says whether the run is over (`System.outlook`).  At the start of a tick this is the tick of a
lockstep run (`Simulation.outlook`), and every step of the scheduler leaves it as it is.

The operations of the machine are cut here in the places where the scheduler waits.
-/

namespace Uniprocessor

namespace Machine

/-! ## Ends of operations -/

/-- The end of `retire`, once the unit has ended. -/
def bury (m : Machine) (tick : Tick) (b : ControlBlock) (unit : UnitId) : Attempt Machine Unit :=
  let m := m.withScheduler (m.note (.reaped unit b.id))
  m.schedule (m.close tick { b with state := .finished })

/-- The end of `retire`, once the unit has been told to stop. -/
def release (m : Machine) (tick : Tick) (b : ControlBlock) (unit : UnitId) : Attempt Machine Unit :=
  (m.command (m.units.reap unit)).andThen fun () m => m.bury tick b unit

/-- The end of `retire`, once the process has left the table. -/
def retireEvicted (m : Machine) (tick : Tick) (b : ControlBlock) (unit : UnitId) :
    Attempt Machine Unit :=
  (m.ask (m.units.remaining unit)).andThen fun left m =>
    (m.checkFinished b left).andThen fun () m => m.release tick { b with remaining := left } unit

/-- What follows a decision. -/
def act (m : Machine) (tick : Tick) : Decision → Attempt Machine Unit
  | .keep => .done () m
  | .launch => (m.schedule m.takeNext).andThen fun next m => m.beginTurn tick next
  | .swap => (m.preempt tick).andThen fun next m => m.beginTurn tick next

/-- The end of a dispatch, once it is known what the running process has left. -/
def follow (m : Machine) (tick : Tick) (left : Option Nat) : Attempt Machine Unit :=
  (m.withScheduler (m.decide tick left).2).act tick (m.decide tick left).1

/-- The end of a dispatch that finds the processor taken. -/
def followRunning (m : Machine) (tick : Tick) (slot : Slot) (b : ControlBlock) (unit : UnitId) :
    Attempt Machine Unit :=
  (m.ask (m.units.remaining unit)).andThen fun left m =>
    (m.withScheduler (m.heard slot b left)).follow tick (some left)

/-- The end of a swap, once the unit of the displaced process has been paused. -/
def replace (m : Machine) (tick : Tick) (next slot : Slot) (b : ControlBlock) (unit : UnitId) :
    Attempt Machine Unit :=
  (m.ask (m.units.remaining unit)).andThen fun left m =>
    (m.schedule (m.requeue tick slot b left)).andThen fun () m => m.beginTurn tick next

/-- The end of a tick, from the dispatch on. -/
def runOn (m : Machine) (tick : Tick) : Attempt Machine Bool :=
  (m.runTick tick).andThen fun () m => .done false m

/-- The end of a tick, when it only has to be counted. -/
def count (m : Machine) : Attempt Machine Bool :=
  .done false (m.withScheduler m.countTick)

/-- The end of a tick, from the arrivals on. -/
def letInAndRun (m : Machine) (tick : Tick) (ps : List Process) : Attempt Machine Bool :=
  (Simulation.admitAll m tick (Simulation.due ps tick)).andThen fun () m =>
    if m.isDone then .done true m else m.runOn tick

theorem retire_eq (m : Machine) (tick : Tick) :
    m.retire tick = (m.schedule m.evict).andThen fun (b, unit) m => m.retireEvicted tick b unit :=
  rfl

theorem dispatch_eq (m : Machine) (tick : Tick) :
    m.dispatch tick = m.refresh.andThen fun left m => m.follow tick left := by
  rw [dispatch]
  refine congrArg m.refresh.andThen (funext fun left => funext ?_)
  intro m
  rw [follow]
  obtain ⟨decision, s⟩ := m.decide tick left
  cases decision <;> rfl

/-- A swap in the parts in which a scheduler on threads carries it out. -/
theorem act_swap (m : Machine) (tick : Tick) :
    m.act tick .swap = (m.schedule m.takeNext).andThen fun next m =>
      (m.schedule m.detach).andThen fun detached m =>
        (m.command (m.units.pause detached.2.2)).andThen fun () m =>
          m.replace tick next detached.1 detached.2.1 detached.2.2 := by
  rw [act, preempt, Attempt.andThen_assoc]
  refine congrArg (m.schedule m.takeNext).andThen (funext fun next => funext ?_)
  intro m
  rw [Attempt.andThen_assoc]
  refine congrArg (m.schedule m.detach).andThen (funext fun detached => funext ?_)
  intro m
  obtain ⟨slot, b, unit⟩ := detached
  simp only [replace, Attempt.andThen_assoc, Attempt.andThen_done]

end Machine

/-- **What a tick of a lockstep run comes to.** -/
def Simulation.outlook (s : Simulation) : Attempt Machine Bool :=
  (deliver (s.machine.advance s.tick).2 (s.machine.advance s.tick).1).andThen fun () m =>
    m.letInAndRun s.tick s.pending

/-- How a run goes on after a tick. -/
def Simulation.conclude (s : Simulation) (x : Attempt Machine Bool) : TickOutcome :=
  match x.result with
  | .error e => .failed e x.state
  | .ok true => .finished x.state s.tick
  | .ok false => .running ⟨x.state, notDue s.pending s.tick, s.tick + 1⟩

/-- **A tick of a lockstep run is concluded from what it comes to.** -/
theorem Simulation.step_eq_conclude (s : Simulation) : s.step = s.conclude s.outlook := by
  have hsettle : s.outlook = s.settle.andThen fun () m =>
      if m.isDone then .done true m else m.runOn s.tick :=
    (Attempt.andThen_assoc _ _ _).symm
  rw [step, hsettle]
  obtain ⟨result, m⟩ := s.settle
  cases result with
  | error e => rfl
  | ok _ =>
    show (if m.isDone then _ else _) = s.conclude (if m.isDone then _ else _)
    cases hdone : m.isDone with
    | true => rfl
    | false =>
      rw [if_neg (by simp), if_neg (by simp), Machine.runOn]
      obtain ⟨result, m'⟩ := m.runTick s.tick
      cases result <;> rfl

namespace System

/-- The machine that a run on threads comes to. -/
def machine (s : System) : Machine :=
  ⟨s.scheduler, s.crew.pool⟩

/-- What is left of a tick in which the processes `ps` have not been let in. -/
def outlook (s : System) (ps : List Process) : Attempt Machine Bool :=
  match s.phase with
  | .awaitReport =>
    (Simulation.deliver s.machine s.crew.coming).andThen fun () m => m.letInAndRun s.tick ps
  | .checkFinish b unit =>
    (s.machine.retireEvicted s.tick b unit).andThen fun () m => m.letInAndRun s.tick ps
  | .joining b unit =>
    (s.machine.release s.tick b unit).andThen fun () m => m.letInAndRun s.tick ps
  | .awaitArrivals => s.machine.letInAndRun s.tick ps
  | .deciding => s.machine.runOn s.tick
  | .readRunning slot b unit =>
    (s.machine.followRunning s.tick slot b unit).andThen fun () m => m.count
  | .pausing next slot b unit =>
    (s.machine.replace s.tick next slot b unit).andThen fun () m => m.count
  | .readPaused next slot b unit =>
    (s.machine.replace s.tick next slot b unit).andThen fun () m => m.count
  | .binding slot => (s.machine.occupy s.tick slot).andThen fun () m => m.count
  | .resuming slot b _ =>
    (s.machine.withScheduler (s.scheduler.occupy s.tick slot (b.resumed s.tick) .resumed)).count
  | .settling => .done false s.machine
  | .awaitTick => .done false s.machine
  | .returned result => ⟨result.map fun () => true, s.machine⟩

end System
end Uniprocessor
