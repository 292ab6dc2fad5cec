import Uniprocessor.Report.Run
import Uniprocessor.Scheduler.Machine

/-!
# Lockstep runs

A run in which scheduler and units take turns, one tick after the other.  In every tick the units
are offered the tick and their reports are taken; the arrivals that are due are let in; and unless
every arrival is finished or rejected, the tick is dispatched and counted.

An arrival is due once its time has come and no process before it in the list is still to come.

## The end of a run

Every tick either waits for an arrival or burns a tick of some run time, so a run is over by the
tick `horizon`: the latest arrival plus all run times.  The run is defined as what has happened by
then, and needs no other bound.

* `Simulation.tick` --- one tick;
* `Simulation.runFor` --- a number of ticks;
* `Simulation.run` --- a whole run.
-/

namespace Uniprocessor

/-- A run before a tick. -/
structure Simulation where
  machine : Machine
  /-- The processes still to come. -/
  pending : List Process
  tick : Tick

/-- What a tick has brought. -/
inductive TickOutcome where
  /-- The run goes on with the next tick. -/
  | running (next : Simulation)
  /-- Every arrival was finished or rejected at this tick. -/
  | finished (machine : Machine) (tick : Tick)
  /-- The run was refused at this tick. -/
  | failed (cause : Failure) (machine : Machine)

namespace Simulation

/-- Hands reports to a machine, one after the other. -/
def deliver (m : Machine) : List UnitReport → Attempt Machine Unit
  | [] => .done () m
  | report :: rest => (m.onReport report).andThen fun () m => deliver m rest

/-- Lets processes in, one after the other. -/
def admitAll (m : Machine) (tick : Tick) : List Process → Attempt Machine Unit
  | [] => .done () m
  | p :: rest => (m.arrive tick p).andThen fun _ m => admitAll m tick rest

/-- The processes at the front of a list that are due at a tick. -/
def due (ps : List Process) (tick : Tick) : List Process :=
  ps.takeWhile fun p => p.arrival ≤ tick

/-- The processes of a list that have to wait for a later tick. -/
def notDue (ps : List Process) (tick : Tick) : List Process :=
  ps.dropWhile fun p => p.arrival ≤ tick

/-- The beginning of a tick: reports, then arrivals. -/
def settle (s : Simulation) : Attempt Machine Unit :=
  let (reports, machine) := s.machine.advance s.tick
  (deliver machine reports).andThen fun () m => admitAll m s.tick (due s.pending s.tick)

/-- One tick of a run. -/
def step (s : Simulation) : TickOutcome :=
  match s.settle with
  | ⟨.error e, m⟩ => .failed e m
  | ⟨.ok (), m⟩ =>
    if m.isDone then .finished m s.tick
    else
      match m.runTick s.tick with
      | ⟨.error e, m⟩ => .failed e m
      | ⟨.ok (), m⟩ => .running ⟨m, notDue s.pending s.tick, s.tick + 1⟩

/-- At most `n` ticks of a run. -/
def runFor : Nat → Simulation → TickOutcome
  | 0, s => .running s
  | n + 1, s =>
    match s.step with
    | .running next => runFor n next
    | outcome => outcome

/-- The run of a workload before its first tick. -/
def start (c : Config) (w : Workload) : Except Failure Simulation :=
  (Machine.ofConfig c w.size).map fun m => ⟨m, w.processes, 0⟩

/-- The tick by which a workload is done: its latest arrival plus all run times. -/
def horizon (w : Workload) : Tick :=
  (w.processes.map Process.arrival).foldl max 0 + (w.processes.map Process.runTime).sum

/-- The machine at the end of a run of a workload, and the last tick. -/
def finish (c : Config) (w : Workload) : Except Failure TickOutcome :=
  (start c w).map (runFor (horizon w + 1))

end Simulation

/-- The report of a run that has come this far, or the reason it was refused. -/
def TickOutcome.result : TickOutcome → Except Failure Report
  | running s => .ok s.machine.report
  | finished m _ => .ok m.report
  | failed e _ => .error e

/-- The report of a run of a workload. -/
def Simulation.run (c : Config) (w : Workload) : Except Failure Report :=
  match Simulation.finish c w with
  | .error e => .error e
  | .ok outcome => outcome.result

end Uniprocessor
