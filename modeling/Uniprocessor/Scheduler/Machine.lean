import Uniprocessor.Scheduler.Basic
import Uniprocessor.Units.Pool

/-!
# The machine

A scheduler together with a pool of execution units that answer at once.  A driver takes it through
a tick in three parts, in this order:

1. the units are offered the tick, and every report is handed to `Machine.onReport`;
2. the arrivals of the tick are let in by `Machine.arrive`;
3. `Machine.runTick` decides who has the processor, and counts the tick.

Finishing comes before admitting, so a block given back can serve an arrival of the same tick;
admitting comes before dispatching, so an arrival can displace the running process at once.
-/

namespace Uniprocessor

/-- A scheduler and its execution units. -/
structure Machine extends Scheduler where
  units : UnitPool
  deriving Repr

namespace Machine

/-- The machine at the start of a run of `expected` arrivals. -/
def ofConfig (c : Config) (expected : Nat) : Except Failure Machine :=
  (Scheduler.ofConfig c expected).map fun s => ⟨s, .empty⟩

/-- The machine with another scheduler. -/
def withScheduler (m : Machine) (s : Scheduler) : Machine :=
  { m with toScheduler := s }

/-- An operation of the scheduler alone. -/
def schedule {α : Type} (m : Machine) (x : Attempt Scheduler α) : Attempt Machine α :=
  x.within m.withScheduler

/-- An operation of the units alone. -/
def command (m : Machine) (x : Except Failure UnitPool) : Attempt Machine Unit :=
  match x with
  | .ok units => .done () { m with units := units }
  | .error e => .refused e m

/-- A question to the units. -/
def ask {α : Type} (m : Machine) (x : Except Failure α) : Attempt Machine α :=
  ⟨x, m⟩

/-- Lets an arrival in. -/
def arrive (m : Machine) (tick : Tick) (p : Process) : Attempt Machine Admission :=
  m.schedule (m.toScheduler.arrive tick p)

/-! ## Reports -/

/-- Refuses a process that is said to be finished but has ticks left. -/
def checkFinished (m : Machine) (b : ControlBlock) (left : Nat) : Attempt Machine Unit :=
  if left = 0 then .done () m else .refused (.protocol (.unfinished b.id left)) m

/-- Ends the running process at a tick: releases its unit and its block, and accounts for it. -/
def retire (m : Machine) (tick : Tick) : Attempt Machine Unit :=
  (m.schedule m.evict).andThen fun (b, unit) m =>
    (m.ask (m.units.remaining unit)).andThen fun left m =>
      (m.checkFinished b left).andThen fun () m =>
        (m.command (m.units.reap unit)).andThen fun () m =>
          let m := m.withScheduler (m.note (.reaped unit b.id))
          m.schedule (m.close tick { b with remaining := left, state := .finished })

/-- Takes a report of the running process's unit. -/
def onReport (m : Machine) (report : UnitReport) : Attempt Machine Unit :=
  match m.addressee report with
  | .error e => .refused e m
  | .ok (slot, b) =>
    match report with
    | .progress _ _ remaining => .done () (m.withScheduler (m.heard slot b remaining))
    | .finished _ tick => m.retire tick

/-! ## Dispatch -/

/-- Brings the control block of the running process up to date, and says what it has left. -/
def refresh (m : Machine) : Attempt Machine (Option Nat) :=
  match m.occupant with
  | .error e => .refused e m
  | .ok none => .done none m
  | .ok (some (slot, b, unit)) =>
    (m.ask (m.units.remaining unit)).andThen fun left m =>
      .done (some left) (m.withScheduler (m.heard slot b left))

/-- Gives the free processor to a process: with a new unit the first time, by resuming its unit
later. -/
def occupy (m : Machine) (tick : Tick) (slot : Slot) : Attempt Machine Unit :=
  match m.candidate slot with
  | .error e => .refused e m
  | .ok b =>
    match b.unit with
    | some unit =>
      (m.command (m.units.resume unit tick)).andThen fun () m =>
        .done () (m.withScheduler (m.toScheduler.occupy tick slot (b.resumed tick) .resumed))
    | none =>
      let (unit, units) := m.units.start b.remaining tick
      .done ()
        { m with
          units := units
          toScheduler := m.toScheduler.occupy tick slot (b.started tick unit) .started }

/-- Swaps the running process out for the next ready one, which is left to be given the
processor. -/
def preempt (m : Machine) (tick : Tick) : Attempt Machine Slot :=
  (m.schedule m.takeNext).andThen fun next m =>
    (m.schedule m.detach).andThen fun (slot, b, unit) m =>
      (m.command (m.units.pause unit)).andThen fun () m =>
        (m.ask (m.units.remaining unit)).andThen fun left m =>
          (m.schedule (m.requeue tick slot b left)).andThen fun () m => .done next m

/-- Gives the processor to a process for a new turn. -/
def beginTurn (m : Machine) (tick : Tick) (slot : Slot) : Attempt Machine Unit :=
  (m.withScheduler m.freshSlice).occupy tick slot

/-- Decides who has the processor, while processes wait for it. -/
def dispatch (m : Machine) (tick : Tick) : Attempt Machine Unit :=
  m.refresh.andThen fun left m =>
    match m.decide tick left with
    | (.keep, s) => .done () (m.withScheduler s)
    | (.launch, s) =>
      let m := m.withScheduler s
      (m.schedule m.takeNext).andThen fun next m => m.beginTurn tick next
    | (.swap, s) =>
      ((m.withScheduler s).preempt tick).andThen fun next m => m.beginTurn tick next

/-- The end of a tick: a dispatch, if any process waits, and the count. -/
def runTick (m : Machine) (tick : Tick) : Attempt Machine Unit :=
  (if m.ready.isEmpty then .done () m else m.dispatch tick).andThen fun () m =>
    .done () (m.withScheduler m.countTick)

/-- Offers a tick to the units. -/
def advance (m : Machine) (tick : Tick) : List UnitReport × Machine :=
  ((m.units.advance tick).1, { m with units := (m.units.advance tick).2 })

end Machine

end Uniprocessor
