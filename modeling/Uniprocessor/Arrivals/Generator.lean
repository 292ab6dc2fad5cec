import Uniprocessor.Clock.Basic
import Uniprocessor.Workload.Basic

/-!
# The generator

The party that announces arrivals.  For every tick it sends the processes that are due and closes
the batch, with the tick if more are to come, and for good once none is.  It starts with the tick
at which it subscribes to the clock, and takes every later one from its channel.

* `Generator.batch` --- what it sends for a tick, all at once;
* `Generator.step?` --- the same message by message, beside other parties;
* `Generator.run` --- all its steps up to a point where it has to wait.
-/

namespace Uniprocessor

/-- A message of the generator. -/
inductive ArrivalMessage where
  | arrival (process : Process)
  /-- All arrivals due at a tick have been sent. -/
  | batchComplete (tick : Tick)
  /-- No arrival will be sent any more; this closes the batch too. -/
  | exhausted
  deriving Repr, DecidableEq

/-- Where the generator stands. -/
inductive GeneratorPhase where
  /-- It has a tick whose batch is not closed. -/
  | sending
  /-- It waits for the next tick. -/
  | listening
  | ended (result : Except Failure Unit)
  deriving Repr

/-- The state of the generator. -/
structure Generator where
  /-- The processes that have not been sent. -/
  pending : List Process
  tick : Tick
  phase : GeneratorPhase
  /-- Its subscription to the clock. -/
  mailbox : SubscriberId
  deriving Repr

namespace Generator

/-- A generator that subscribes to a clock. -/
def start (w : Workload) (c : Clock) : Generator × Clock :=
  (⟨w.processes, c.tick, .sending, c.subscribe.1⟩, c.subscribe.2)

/-- The messages for a tick when `pending` have not been sent, and what is left after them. -/
def batch (tick : Tick) : List Process → List ArrivalMessage × List Process
  | [] => ([.exhausted], [])
  | p :: rest =>
    if p.arrival ≤ tick then
      let (messages, left) := batch tick rest
      (.arrival p :: messages, left)
    else ([.batchComplete tick], p :: rest)

/-- The next message, and the state after it. -/
def nextMessage (g : Generator) : ArrivalMessage × Generator :=
  match g.pending with
  | [] => (.exhausted, { g with phase := .ended (.ok ()) })
  | p :: rest =>
    if p.arrival ≤ g.tick then (.arrival p, { g with pending := rest })
    else (.batchComplete g.tick, { g with phase := .listening })

/-- The next step, unless the generator has to wait or has ended: it sends a message or takes a
tick.  `received` says whether its messages are still received; if they are not, it ends. -/
def step? (g : Generator) (c : Clock) (received : Bool) :
    Option (Option ArrivalMessage × Generator × Clock) :=
  match g.phase with
  | .sending =>
    if received then some (some g.nextMessage.1, g.nextMessage.2, c)
    else
      some (none, { g with phase := .ended (.error (.channel .receiverGone)) }, c)
  | .listening =>
    (c.take? g.mailbox).map fun (tick?, c) =>
      match tick? with
      | some tick => (none, { g with tick := tick, phase := .sending }, c)
      | none => (none, { g with phase := .ended (.ok ()) }, c)
  | .ended _ => none

/-- At most `n` steps of the generator, and the messages it sends. -/
def runFor : Nat → Generator → Clock → Bool → List ArrivalMessage × Generator × Clock
  | 0, g, c, _ => ([], g, c)
  | n + 1, g, c, received =>
    match g.step? c received with
    | none => ([], g, c)
    | some (message?, g, c) =>
      let (messages, g, c) := runFor n g c received
      (message?.toList ++ messages, g, c)

/-- Number of ticks the generator has not taken. -/
def backlog (g : Generator) (c : Clock) : Nat :=
  match c.mailbox? g.mailbox with
  | some m => m.queue.length
  | none => 0

/-- All steps up to a point where the generator has to wait.  It sends each process once, and for
each tick it takes, the current one included, it makes two steps more. -/
def run (g : Generator) (c : Clock) (received : Bool) :
    List ArrivalMessage × Generator × Clock :=
  runFor (g.pending.length + 2 * g.backlog c + 2) g c received

/-- The result of a generator that has ended. -/
def result? (g : Generator) : Option (Except Failure Unit) :=
  match g.phase with
  | .ended result => some result
  | _ => none

end Generator

end Uniprocessor
