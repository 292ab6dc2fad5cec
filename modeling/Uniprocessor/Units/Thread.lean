import Uniprocessor.Clock.Basic
import Uniprocessor.Failure
import Uniprocessor.Units.Countdown

/-!
# Units on threads

An execution unit as a party of its own.  It has a queue of commands and a subscription to the
clock, and takes from either as it likes; it answers commands with acknowledgements and sends its
reports to one channel that all units share.  It ends when it is told to stop, or when there is
nothing more to come from the clock.

A `Crew` is a clock and the units that follow it.  The caller's operations are cut where the caller
has to wait: a command is sent in one step and its acknowledgement taken in another.

* `Crew.step?` --- a step of a unit;
* `Crew.start`, `send`, `takeAck?`, `remaining`, `join?` --- the caller's steps;
* `Crew.pause`, `resume`, `reap`, `advance` --- the caller's operations, with the units given the
  time they need.
-/

namespace Uniprocessor

/-- A unit on a thread. -/
structure UnitThread where
  countdown : Countdown
  commands : List UnitCommand
  acks : List UnitAck
  /-- Its subscription to the clock. -/
  mailbox : SubscriberId
  ended : Bool
  deriving Repr, DecidableEq

/-- What a unit takes from next. -/
inductive Source where
  | commands
  | ticks
  deriving Repr, DecidableEq

/-- A clock and the units that follow it. -/
structure Crew where
  clock : Clock
  /-- The units that have not been released, in the order of their numbers. -/
  threads : List UnitThread
  /-- The number of the next unit. -/
  next : UnitId
  /-- The reports that have been sent and not been taken. -/
  reports : List UnitReport
  deriving Repr, DecidableEq

namespace UnitThread

/-- The number of a unit. -/
def unit (t : UnitThread) : UnitId :=
  t.countdown.unit

/-- Takes the next command. -/
def takeCommand? (t : UnitThread) : Option UnitThread :=
  match t.commands with
  | [] => none
  | command :: rest =>
    let (ack?, countdown) := t.countdown.onCommand command
    some { t with
      countdown := countdown
      commands := rest
      acks := t.acks ++ ack?.toList
      ended := ack?.isNone }

end UnitThread

namespace Crew

/-- A clock without units. -/
def ofClock (c : Clock) : Crew :=
  ⟨c, [], 0, []⟩

/-- The unit with a number. -/
def find? (c : Crew) (unit : UnitId) : Option UnitThread :=
  c.threads.find? fun t => t.unit == unit

/-- Replaces the unit with the same number. -/
def update (c : Crew) (thread : UnitThread) : Crew :=
  { c with threads := c.threads.map fun t => if t.unit == thread.unit then thread else t }

/-- A unit that has ended no longer listens to the clock. -/
def closeMailbox (c : Crew) (thread : UnitThread) : Crew :=
  if thread.ended then { c with clock := c.clock.hangUp thread.mailbox } else c

/-- A step of a unit, unless it has to wait or has ended. -/
def step? (c : Crew) (unit : UnitId) (source : Source) : Option Crew :=
  match c.find? unit with
  | none => none
  | some thread =>
    if thread.ended then none
    else
      match source with
      | .commands => thread.takeCommand?.map fun thread => (c.update thread).closeMailbox thread
      | .ticks =>
        (c.clock.take? thread.mailbox).map fun (tick?, clock) =>
          match tick? with
          | none =>
            let thread := { thread with ended := true }
            ({ c with clock := clock }.update thread).closeMailbox thread
          | some tick =>
            let (report?, countdown) := thread.countdown.onTick tick
            { c with clock := clock, reports := c.reports ++ report?.toList }.update
              { thread with countdown := countdown }

/-! ## The caller's steps -/

/-- Starts a unit that counts the ticks after `tick`.  It subscribes before it runs, so that it
misses none. -/
def start (c : Crew) (remaining : Nat) (tick : Tick) : UnitId × Crew :=
  let (mailbox, clock) := c.clock.subscribe
  (c.next,
    { c with
      clock := clock
      threads := c.threads ++ [⟨.start c.next remaining tick, [], [], mailbox, false⟩]
      next := c.next + 1 })

/-- Sends a command to a unit. -/
def send (c : Crew) (unit : UnitId) (command : UnitCommand) : Except Failure Crew :=
  match c.find? unit with
  | some thread => .ok (c.update { thread with commands := thread.commands ++ [command] })
  | none => .error (.unit (.unknown unit))

/-- Takes an acknowledgement of a unit, once there is one. -/
def takeAck? (c : Crew) (unit : UnitId) : Option (UnitAck × Crew) :=
  match c.find? unit with
  | some thread =>
    match thread.acks with
    | ack :: rest => some (ack, c.update { thread with acks := rest })
    | [] => none
  | none => none

/-- What a unit has left, as it can be read at any time. -/
def remaining (c : Crew) (unit : UnitId) : Except Failure Nat :=
  match c.find? unit with
  | some thread => .ok thread.countdown.remaining
  | none => .error (.unit (.unknown unit))

/-- Releases a unit, once it has ended. -/
def join? (c : Crew) (unit : UnitId) : Option Crew :=
  match c.find? unit with
  | some thread =>
    if thread.ended then some { c with threads := c.threads.filter fun t => t.unit != unit }
    else none
  | none => none

/-- Number of units that have not been released. -/
def size (c : Crew) : Nat :=
  c.threads.length

/-! ## The caller's operations -/

/-- Lets a unit take from a source until it has to wait, at most `n` times. -/
def runUnit (unit : UnitId) (source : Source) : Nat → Crew → Crew
  | 0, c => c
  | n + 1, c =>
    match c.step? unit source with
    | some next => runUnit unit source n next
    | none => c

/-- Lets a unit take all commands and then all ticks it has been sent. -/
def settleUnit (c : Crew) (unit : UnitId) : Crew :=
  match c.find? unit with
  | none => c
  | some thread =>
    let c := runUnit unit .commands thread.commands.length c
    match c.clock.mailbox? thread.mailbox with
    | some mailbox => runUnit unit .ticks mailbox.queue.length c
    | none => c

/-- Lets every unit take what it has been sent. -/
def settle (c : Crew) : Crew :=
  c.threads.foldl (fun c thread => c.settleUnit thread.unit) c

/-- Sends a command to a unit and waits for the acknowledgement. -/
def command (c : Crew) (unit : UnitId) (command : UnitCommand) : Except Failure Crew :=
  (c.send unit command).map fun c =>
    let c := c.settleUnit unit
    match c.takeAck? unit with
    | some (_, c) => c
    | none => c

/-- Makes a unit ignore ticks. -/
def pause (c : Crew) (unit : UnitId) : Except Failure Crew :=
  c.command unit .pause

/-- Lets a unit count the ticks after `tick` again. -/
def resume (c : Crew) (unit : UnitId) (tick : Tick) : Except Failure Crew :=
  c.command unit (.resume tick)

/-- Tells a unit to stop, waits for its end and releases it. -/
def reap (c : Crew) (unit : UnitId) : Except Failure Crew :=
  (c.send unit .stop).map fun c =>
    let c := c.settleUnit unit
    (c.join? unit).getD c

/-- Releases all units. -/
def shutdown (c : Crew) : Crew :=
  c.threads.foldl (fun c thread => (c.reap thread.unit).toOption.getD c) c

/-- Moves the clock by one tick and collects the reports of the units, in the order of the
units. -/
def advance (c : Crew) : List UnitReport × Crew :=
  let c := { c with clock := c.clock.advance?.getD c.clock }.settle
  (c.reports.mergeSort fun a b => a.unit ≤ b.unit, { c with reports := [] })

end Crew

end Uniprocessor
