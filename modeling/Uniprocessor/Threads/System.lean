import Uniprocessor.Arrivals.Generator
import Uniprocessor.Clock.Driver
import Uniprocessor.Scheduler.Basic
import Uniprocessor.Units.Thread

/-!
# Runs on threads

A run whose parties are threads of their own: the scheduler, the party that moves the clock, the
generator, and one party for each execution unit.  They share the clock and send each other
messages through channels that lose nothing and keep order.  A step is what one party does between
two points where it deals with another; any party that need not wait may make the next step.

## The scheduler's part

In every tick the scheduler takes the report of the running process's unit, if there is one, and
then the arrivals up to the end of the generator's batch.  Unless every arrival is finished or
rejected, it dispatches, settles the tick, and waits for the next one.  What it decides, and how it
accounts for it, are the operations of `Scheduler`; `Phase` says between which of them it stands,
and what it waits for there.

* `Phase` --- where the scheduler stands;
* `System` --- the state of all parties and channels;
* `System.step?` --- a step of a party, or `none` while it has to wait.
-/

namespace Uniprocessor

/-- Where the scheduler stands. -/
inductive Phase where
  /-- It waits for the report of the running process's unit. -/
  | awaitReport
  /-- It is to read what a unit that reported its end has left. -/
  | checkFinish (block : ControlBlock) (unit : UnitId)
  /-- It waits for the end of a unit it has told to stop. -/
  | joining (block : ControlBlock) (unit : UnitId)
  /-- It waits for the next message of the generator. -/
  | awaitArrivals
  /-- It is to decide who has the processor. -/
  | deciding
  /-- It is to read what the running process has left. -/
  | readRunning (slot : Slot) (block : ControlBlock) (unit : UnitId)
  /-- It waits for the unit of the displaced process to answer a pause. -/
  | pausing (next slot : Slot) (block : ControlBlock) (unit : UnitId)
  /-- It is to read what the displaced process has left. -/
  | readPaused (next slot : Slot) (block : ControlBlock) (unit : UnitId)
  /-- It is to give the processor to a process. -/
  | binding (slot : Slot)
  /-- It waits for the unit of a process to answer a resume. -/
  | resuming (slot : Slot) (block : ControlBlock) (unit : UnitId)
  /-- It is to settle the tick. -/
  | settling
  /-- It waits for the next tick. -/
  | awaitTick
  | returned (result : Except Failure Unit)
  deriving Repr

/-- The parties of a run and the channels between them. -/
structure System where
  scheduler : Scheduler
  /-- The clock, the units and the channel of their reports. -/
  crew : Crew
  driver : ClockDriver
  generator : Generator
  /-- The messages of the generator that have not been taken. -/
  arrivals : List ArrivalMessage
  /-- Whether the generator has not said yet that it is done. -/
  arrivalsOpen : Bool
  /-- The tick the scheduler is at. -/
  tick : Tick
  phase : Phase
  deriving Repr

/-- A party of a run; a unit also chooses what it takes from. -/
inductive Party where
  | scheduler
  | clock
  | generator
  | unit (unit : UnitId) (source : Source)
  deriving Repr, DecidableEq

namespace System

/-- The parties at the start of a run of a workload. -/
def start (c : Config) (w : Workload) : Except Failure System :=
  (Scheduler.ofConfig c w.size).map fun scheduler =>
    let (generator, clock) := Generator.start w .start
    { scheduler := scheduler
      crew := .ofClock clock
      driver := .waiting
      generator := generator
      arrivals := []
      arrivalsOpen := true
      tick := clock.tick
      phase := .awaitArrivals }

/-- The scheduler goes on to another phase. -/
def enter (s : System) (phase : Phase) : System :=
  { s with phase := phase }

/-- The scheduler gives up. -/
def fail (s : System) (e : Failure) : System :=
  s.enter (.returned (.error e))

/-- An operation of the scheduler, and the phase that follows its success. -/
def carryOut {α : Type} (s : System) (x : Attempt Scheduler α) (next : α → System → System) :
    System :=
  let s := { s with scheduler := x.state }
  match x.result with
  | .ok a => next a s
  | .error e => s.fail e

/-- A command to a unit, and the phase in which its answer is waited for. -/
def sendThen (s : System) (unit : UnitId) (command : UnitCommand) (phase : Phase) : System :=
  match s.crew.send unit command with
  | .ok crew => { s with crew := crew, phase := phase }
  | .error e => s.fail e

/-- Reads what a unit has left. -/
def readThen (s : System) (unit : UnitId) (next : Nat → System) : System :=
  match s.crew.remaining unit with
  | .ok left => next left
  | .error e => s.fail e

/-- Counts the tick; the dispatch is over. -/
def endDispatch (s : System) : System :=
  { s with scheduler := s.scheduler.countTick, phase := .settling }

/-- Goes on after the arrivals of a tick. -/
def afterArrivals (s : System) : System :=
  if s.scheduler.isDone then s.enter (.returned (.ok ())) else s.enter .deciding

/-! ## The scheduler's steps -/

/-- Takes the report of the running process's unit. -/
def takeReport (s : System) (report : UnitReport) : System :=
  if report.tick ≠ s.tick then s.fail (.protocol (.lateReport report.tick s.tick))
  else
    match s.scheduler.addressee report with
    | .error e => s.fail e
    | .ok (slot, b) =>
      match report with
      | .progress _ _ left =>
        { s with scheduler := s.scheduler.heard slot b left, phase := .awaitArrivals }
      | .finished _ _ =>
        s.carryOut s.scheduler.evict fun (b, unit) s => s.enter (.checkFinish b unit)

/-- Tells a unit that reported its end to stop, if it has nothing left. -/
def stopFinished (s : System) (b : ControlBlock) (unit : UnitId) : System :=
  s.readThen unit fun left =>
    if left = 0 then s.sendThen unit .stop (.joining { b with remaining := left } unit)
    else s.fail (.protocol (.unfinished b.id left))

/-- Accounts for a finished process whose unit has been released. -/
def closeFinished (s : System) (b : ControlBlock) (unit : UnitId) : System :=
  let noted := s.scheduler.note (.reaped unit b.id)
  s.carryOut (noted.close s.tick { b with state := .finished }) fun () s => s.enter .awaitArrivals

/-- Takes a message of the generator. -/
def takeArrival (s : System) (message : ArrivalMessage) : System :=
  match message with
  | .arrival p => s.carryOut (s.scheduler.arrive s.tick p) fun _ s => s.enter .awaitArrivals
  | .batchComplete tick =>
    if tick = s.tick then s.afterArrivals else s.fail (.protocol (.lateBatch tick s.tick))
  | .exhausted => { s with arrivalsOpen := false }.afterArrivals

/-- Takes the next process out of the ready structure, to give it the processor. -/
def launchNext (s : System) : System :=
  s.carryOut s.scheduler.takeNext fun next s =>
    { s with scheduler := s.scheduler.freshSlice, phase := .binding next }

/-- Takes the running process off the processor for the next one. -/
def displace (s : System) : System :=
  s.carryOut s.scheduler.takeNext fun next s =>
    s.carryOut s.scheduler.detach fun (slot, b, unit) s =>
      s.sendThen unit .pause (.pausing next slot b unit)

/-- Acts on a decision. -/
def follow (s : System) (left : Option Nat) : System :=
  let (decision, scheduler) := s.scheduler.decide s.tick left
  let s := { s with scheduler := scheduler }
  match decision with
  | .keep => s.endDispatch
  | .launch => s.launchNext
  | .swap => s.displace

/-- Begins a dispatch. -/
def beginDispatch (s : System) : System :=
  if s.scheduler.ready.isEmpty then s.endDispatch
  else
    match s.scheduler.occupant with
    | .error e => s.fail e
    | .ok none => s.follow none
    | .ok (some (slot, b, unit)) => s.enter (.readRunning slot b unit)

/-- Decides, knowing what the running process has left. -/
def decideRunning (s : System) (slot : Slot) (b : ControlBlock) (unit : UnitId) : System :=
  s.readThen unit fun left =>
    { s with scheduler := s.scheduler.heard slot b left }.follow (some left)

/-- Lets the displaced process wait again. -/
def requeueDisplaced (s : System) (next slot : Slot) (b : ControlBlock) (unit : UnitId) : System :=
  s.readThen unit fun left =>
    s.carryOut (s.scheduler.requeue s.tick slot b left) fun () s =>
      { s with scheduler := s.scheduler.freshSlice, phase := .binding next }

/-- Gives the processor to a process: starts its unit, or has it resumed. -/
def bind (s : System) (slot : Slot) : System :=
  match s.scheduler.candidate slot with
  | .error e => s.fail e
  | .ok b =>
    match b.unit with
    | some unit => s.sendThen unit (.resume s.tick) (.resuming slot b unit)
    | none =>
      let (unit, crew) := s.crew.start b.remaining s.tick
      { s with
        crew := crew
        scheduler := s.scheduler.occupy s.tick slot (b.started s.tick unit) .started }.endDispatch

/-- Goes on when the unit of a process has answered a resume. -/
def bindResumed (s : System) (slot : Slot) (b : ControlBlock) : System :=
  { s with
    scheduler := s.scheduler.occupy s.tick slot (b.resumed s.tick) .resumed }.endDispatch

/-- Takes a new tick. -/
def takeTick (s : System) (next : Tick) : System :=
  if next = s.tick + 1 then
    { s with
      tick := next
      phase := if s.scheduler.runningBlock?.isSome then .awaitReport else .awaitArrivals }
  else s.fail (.protocol (.clockJumped s.tick next))

/-- The scheduler's next step. -/
def schedulerStep? (s : System) : Option System :=
  match s.phase with
  | .awaitReport =>
    match s.crew.reports with
    | report :: rest => some ({ s with crew := { s.crew with reports := rest } }.takeReport report)
    | [] => none
  | .checkFinish b unit => some (s.stopFinished b unit)
  | .joining b unit =>
    (s.crew.join? unit).map fun crew => { s with crew := crew }.closeFinished b unit
  | .awaitArrivals =>
    if !s.arrivalsOpen then some s.afterArrivals
    else
      match s.arrivals with
      | message :: rest => some ({ s with arrivals := rest }.takeArrival message)
      | [] =>
        s.generator.result?.map fun _ => s.fail (.channel .arrivalsClosed)
  | .deciding => some s.beginDispatch
  | .readRunning slot b unit => some (s.decideRunning slot b unit)
  | .pausing next slot b unit =>
    match s.crew.takeAck? unit with
    | some (.paused _, crew) => some { s with crew := crew, phase := .readPaused next slot b unit }
    | some (.resumed left, _) => some (s.fail (.protocol (.pauseAnswered unit left)))
    | none => none
  | .readPaused next slot b unit => some (s.requeueDisplaced next slot b unit)
  | .binding slot => some (s.bind slot)
  | .resuming slot b unit =>
    match s.crew.takeAck? unit with
    | some (.resumed _, crew) => some ({ s with crew := crew }.bindResumed slot b)
    | some (.paused left, _) => some (s.fail (.protocol (.resumeAnswered unit left)))
    | none => none
  | .settling =>
    some { s with
      crew := { s.crew with clock := s.crew.clock.settle s.tick }
      phase := .awaitTick }
  | .awaitTick =>
    (s.crew.clock.waitPast? s.tick).map fun next? =>
      match next? with
      | some next => s.takeTick next
      | none => s.fail (.channel .clockStopped)
  | .returned _ => none

/-! ## The steps of the other parties -/

/-- The next step of the party that moves the clock. -/
def clockStep? (s : System) : Option System :=
  (s.driver.step? s.crew.clock).map fun (driver, clock) =>
    { s with driver := driver, crew := { s.crew with clock := clock } }

/-- The generator's next step. -/
def generatorStep? (s : System) : Option System :=
  (s.generator.step? s.crew.clock true).map fun (message?, generator, clock) =>
    { s with
      generator := generator
      crew := { s.crew with clock := clock }
      arrivals := s.arrivals ++ message?.toList }

/-- The next step of a unit. -/
def unitStep? (s : System) (unit : UnitId) (source : Source) : Option System :=
  (s.crew.step? unit source).map fun crew => { s with crew := crew }

/-- The next step of a party, or `none` while it has to wait or when it has ended. -/
def step? (s : System) : Party → Option System
  | .scheduler => s.schedulerStep?
  | .clock => s.clockStep?
  | .generator => s.generatorStep?
  | .unit unit source => s.unitStep? unit source

/-- What the scheduler has returned. -/
def result? (s : System) : Option (Except Failure Unit) :=
  match s.phase with
  | .returned result => some result
  | _ => none

end System

end Uniprocessor
