import Uniprocessor.Memory.Buddy
import Uniprocessor.Units.Report
import Uniprocessor.Workload.Basic

/-!
# Process control blocks

What the scheduler knows of an admitted process.  Its waiting time is fixed at its first dispatch
to the time since its arrival, and grows at every later dispatch by the time since it was last
stopped.
-/

namespace Uniprocessor

/-- Where a process stands. -/
inductive ProcessState where
  | ready
  | running
  | blocked
  | finished
  deriving Repr, DecidableEq

/-- The record of an admitted process. -/
structure ControlBlock where
  id : Nat
  arrival : Tick
  runTime : Nat
  priority : Nat
  /-- Ticks left, as far as the scheduler has heard. -/
  remaining : Nat
  state : ProcessState
  waiting : Nat
  /-- When the current wait began. -/
  waitStart : Tick
  /-- The execution unit, once there is one. -/
  unit : Option UnitId
  memory : Buddy.Block
  deriving Repr, DecidableEq

namespace ControlBlock

/-- The record of a process at its admission. -/
def ofProcess (p : Process) (memory : Buddy.Block) : ControlBlock where
  id := p.id
  arrival := p.arrival
  runTime := p.runTime
  priority := p.priority
  remaining := p.runTime
  state := .ready
  waiting := 0
  waitStart := p.arrival
  unit := none
  memory := memory

/-- After the first dispatch. -/
def started (b : ControlBlock) (tick : Tick) (unit : UnitId) : ControlBlock :=
  { b with waiting := tick - b.arrival, unit := some unit, state := .running }

/-- After it has lost the processor. -/
def stopped (b : ControlBlock) (tick : Tick) : ControlBlock :=
  { b with state := .blocked, waitStart := tick }

/-- After a later dispatch. -/
def resumed (b : ControlBlock) (tick : Tick) : ControlBlock :=
  { b with waiting := b.waiting + (tick - b.waitStart), state := .running }

/-- Time from arrival to finish. -/
def turnaround (b : ControlBlock) (finish : Tick) : Nat :=
  finish - b.arrival

/-- Turnaround as a multiple of the run time. -/
def weightedTurnaround (b : ControlBlock) (finish : Tick) : Float :=
  if b.runTime = 0 then 0.0 else nearestFloat (b.turnaround finish) / nearestFloat b.runTime

end ControlBlock

end Uniprocessor
