import Uniprocessor.Attempt
import Uniprocessor.Config
import Uniprocessor.Journal.Basic
import Uniprocessor.Metrics.Basic
import Uniprocessor.Ready.Queue

/-!
# The scheduler

The scheduler decides; it does not act.  It admits arrivals, keeps the control blocks of the live
processes, says which process is to have the processor, and accounts for the finished ones.  The
execution units belong to somebody else: wherever an operation depends on a unit it is cut in two,
the part before asks for the unit, and the part after takes what the unit answered.  `Machine` puts
the parts together with a pool of units; a run on threads puts them together with messages.

* `Scheduler.arrive` --- admission: memory, a control block, a place in the ready structure;
* `Scheduler.addressee`, `Scheduler.heard` --- a unit's report;
* `Scheduler.evict`, `Scheduler.close` --- the end of a process;
* `Scheduler.decide`, `takeNext`, `detach`, `requeue`, `candidate`, `occupy` --- a dispatch;
* `Scheduler.countTick` --- the end of a tick.

Every operation is an `Attempt`: a refusal leaves behind what was done before it.
-/

namespace Uniprocessor

/-- What came of an arrival. -/
inductive Admission where
  | admitted (process : Nat) (range : Range)
  /-- No block was free for it; it is dropped. -/
  | rejected (process : Nat)
  deriving Repr, DecidableEq

/-- The state of a scheduler. -/
structure Scheduler where
  policy : Policy
  memory : Buddy
  ready : ReadyQueue
  table : ProcessTable
  /-- The process that has the processor. -/
  running : Option Slot
  /-- Contended ticks left of the running process's turn, under round robin. -/
  sliceLeft : Nat
  /-- Arrivals expected or live: those that have neither finished nor been rejected. -/
  outstanding : Nat
  metrics : Metrics
  journal : Journal
  deriving Repr

/-- What to do with the processor. -/
inductive Decision where
  /-- The running process goes on. -/
  | keep
  /-- The processor is free: the next ready process gets it. -/
  | launch
  /-- The running process gives way to the next ready one. -/
  | swap
  deriving Repr, DecidableEq

namespace Scheduler

/-- The scheduler at the start of a run of `expected` arrivals. -/
def ofConfig (c : Config) (expected : Nat) : Except Failure Scheduler :=
  match c.check with
  | .error e => .error e
  | .ok () =>
    (Buddy.ofCapacity c.arena).map fun memory =>
      { policy := c.policy
        memory := memory
        ready := .ofPolicy c.policy c.readyCapacity
        table := .empty
        running := none
        sliceLeft := 0
        outstanding := expected
        metrics := .empty
        journal := .empty }

/-- Notes an entry in the journal. -/
def note (s : Scheduler) (e : Entry) : Scheduler :=
  { s with journal := s.journal.add e }

/-- Whether every arrival is finished or rejected. -/
def isDone (s : Scheduler) : Bool :=
  s.outstanding == 0

/-- The control block of the running process. -/
def runningBlock? (s : Scheduler) : Option ControlBlock :=
  s.running.bind s.table.get?

/-- The key under which a process waits: what its policy compares. -/
def readyKey (policy : Policy) (b : ControlBlock) : Nat :=
  match policy with
  | .highestPriorityFirst => b.priority
  | .shortestRemainingTimeNext => b.remaining
  | .roundRobin _ => 0

/-! ## Admission -/

/-- Drops an arrival that no block is free for. -/
def reject (s : Scheduler) (tick : Tick) (p : Process) : Scheduler :=
  { s.note (.memory ⟨tick, p.id, .rejected, p.memory, none⟩) with
    metrics := s.metrics.countRejection
    outstanding := s.outstanding - 1 }

/-- Takes back the admission of a process that the ready structure has no room for. -/
def takeBack (s : Scheduler) (slot : Slot) (block : Buddy.Block) (e : Failure) :
    Attempt Scheduler Admission :=
  let table := ((s.table.remove? slot).map Prod.snd).getD s.table
  match s.memory.free block with
  | .ok memory => .refused e { s with table := table, memory := memory }
  | .error e' => .refused e' { s with table := table }

/-- Lets a process in to which a block has been given. -/
def letIn (s : Scheduler) (tick : Tick) (p : Process) (block : Buddy.Block) :
    Attempt Scheduler Admission :=
  let b := ControlBlock.ofProcess p block
  let (slot, table) := s.table.insert b
  match s.ready.insert (readyKey s.policy b) slot with
  | .error e => takeBack { s with table := table } slot block e
  | .ok ready =>
    .done (.admitted p.id block.range)
      ({ s with table := table, ready := ready }.note
        (.memory (.ofBlock p.id tick .allocated block)))

/-- An arrival: it gets a block and waits for the processor, or is dropped.  A process without run
time is refused, since its unit would never finish. -/
def arrive (s : Scheduler) (tick : Tick) (p : Process) : Attempt Scheduler Admission :=
  if p.runTime = 0 then .refused (.workload (.zeroRunTime p.id)) s
  else
    match s.memory.allocate? p.memory with
    | none => .done (.rejected p.id) (s.reject tick p)
    | some (block, memory) => letIn { s with memory := memory } tick p block

/-! ## Reports -/

/-- The process that a report is about: the running one, if the report is from its unit. -/
def addressee (s : Scheduler) (report : UnitReport) : Except Failure (Slot × ControlBlock) :=
  match s.running with
  | none => .error (.protocol (.reportWhileIdle report))
  | some slot =>
    match s.table.get? slot with
    | none => .error (.protocol .runningRetired)
    | some b =>
      if b.unit = some report.unit then .ok (slot, b)
      else .error (.protocol (.foreignReport report.unit b.id b.unit))

/-- Writes down what a process has left. -/
def heard (s : Scheduler) (slot : Slot) (b : ControlBlock) (remaining : Nat) : Scheduler :=
  { s with table := s.table.set slot { b with remaining := remaining } }

/-! ## The end of a process -/

/-- Takes the running process off the processor and out of the table. -/
def evict (s : Scheduler) : Attempt Scheduler (ControlBlock × UnitId) :=
  match s.running with
  | none => .refused (.protocol .finishWhileIdle) s
  | some slot =>
    match s.table.remove? slot with
    | none => .refused (.protocol .runningRetired) { s with running := none }
    | some (b, table) =>
      match b.unit with
      | none =>
        .refused (.protocol (.neverStarted b.id)) { s with running := none, table := table }
      | some unit => .done (b, unit) { s with running := none, table := table }

/-- The figures of a process that finishes at a tick. -/
def finishOf (b : ControlBlock) (tick : Tick) : Finish :=
  ⟨b.turnaround tick, b.weightedTurnaround tick, b.waiting⟩

/-- The event of a process that finishes at a tick. -/
def finishEvent (b : ControlBlock) (tick : Tick) : ProcessEvent :=
  .ofBlock b tick .finished (some ⟨b.turnaround tick, b.weightedTurnaround tick⟩)

/-- Accounts for a finished process and gives its block back. -/
def close (s : Scheduler) (tick : Tick) (b : ControlBlock) : Attempt Scheduler Unit :=
  let s' : Scheduler :=
    { s.note (.process (finishEvent b tick)) with
      metrics := s.metrics.countFinish (finishOf b tick) }
  match s'.memory.free b.memory with
  | .error e => .refused e s'
  | .ok memory =>
    .done ()
      { s'.note (.memory (.ofBlock b.id tick .freed b.memory)) with
        memory := memory
        outstanding := s'.outstanding - 1 }

/-! ## Dispatch -/

/-- The running process, its control block and its unit, if the processor is taken. -/
def occupant (s : Scheduler) : Except Failure (Option (Slot × ControlBlock × UnitId)) :=
  match s.running with
  | none => .ok none
  | some slot =>
    match s.table.get? slot with
    | none => .error (.protocol .runningRetired)
    | some b =>
      match b.unit with
      | none => .error (.protocol (.noUnit b.id))
      | some unit => .ok (some (slot, b, unit))

/-- What to do with the processor, where `left` is what the running process has left.  Under
shortest remaining time next it gives way to a process that needs strictly less; under round robin
a tick on which others wait uses up its turn. -/
def decide (s : Scheduler) (tick : Tick) (left : Option Nat) : Decision × Scheduler :=
  match left with
  | none => (.launch, s)
  | some left =>
    match s.policy with
    | .highestPriorityFirst => (.keep, s)
    | .shortestRemainingTimeNext =>
      match s.ready.leastKey? with
      | none => (.keep, s)
      | some needed =>
        if needed < left then (.swap, s.note (.preempting tick left needed)) else (.keep, s)
    | .roundRobin _ =>
      (if 0 < s.sliceLeft - 1 then .keep else .swap, { s with sliceLeft := s.sliceLeft - 1 })

/-- Takes the next process out of the ready structure. -/
def takeNext (s : Scheduler) : Attempt Scheduler Slot :=
  match s.ready.take? with
  | none => .refused (.protocol .emptyReady) s
  | some (slot, ready) => .done slot { s with ready := ready }

/-- Takes the running process off the processor; its unit is to be paused. -/
def detach (s : Scheduler) : Attempt Scheduler (Slot × ControlBlock × UnitId) :=
  match s.running with
  | none => .refused (.protocol .preemptWhileIdle) s
  | some slot =>
    match s.table.get? slot with
    | none => .refused (.protocol .runningRetired) { s with running := none }
    | some b =>
      match b.unit with
      | none => .refused (.protocol (.noUnit b.id)) { s with running := none }
      | some unit => .done (slot, b, unit) { s with running := none }

/-- Lets a process wait again that has lost the processor with `left` ticks to go.  Its successor
has left the ready structure by then, so there is room. -/
def requeue (s : Scheduler) (tick : Tick) (slot : Slot) (b : ControlBlock) (left : Nat) :
    Attempt Scheduler Unit :=
  let b' := { b with remaining := left }.stopped tick
  let s' :=
    { s with table := s.table.set slot b' }.note (.process (.ofBlock b' tick .stopped none))
  match s'.ready.insert (readyKey s'.policy b') slot with
  | .error e => .refused e s'
  | .ok ready => .done () { s' with ready := ready }

/-- Starts a new turn under round robin. -/
def freshSlice (s : Scheduler) : Scheduler :=
  match s.policy with
  | .roundRobin quantum => { s with sliceLeft := quantum }
  | _ => s

/-- The control block of a process that is to get the processor, which must be free. -/
def candidate (s : Scheduler) (slot : Slot) : Except Failure ControlBlock :=
  if s.running.isSome then .error (.protocol .stillRunning)
  else
    match s.table.get? slot with
    | none => .error (.protocol .readyRetired)
    | some b => .ok b

/-- Gives the processor to a process whose control block has been brought up to date. -/
def occupy (s : Scheduler) (tick : Tick) (slot : Slot) (b : ControlBlock)
    (kind : ProcessEventKind) : Scheduler :=
  { s with table := s.table.set slot b, running := some slot }.note
    (.process (.ofBlock b tick kind none))

/-- Counts a tick, as busy if the processor is taken. -/
def countTick (s : Scheduler) : Scheduler :=
  { s with metrics := s.metrics.countTick s.running.isSome }

end Scheduler

end Uniprocessor
