import Uniprocessor.Clock.Driver

/-!
# The parties around the clock

Everybody who deals with a shared clock, each of them a party that makes its steps when it likes:
the one that moves the clock, one that settles ticks, any number of subscribers that come, take
what they have been sent and hang up, and somebody who stops the clock.

The party that settles ticks is the *pacer*.  It may settle any tick that the clock has reached, in
whatever order, and now and then it settles the current tick and waits for the next one.  To do so
it reads the clock first, and the clock may move before the tick it has read is settled.  While it
waits, nobody settles anything.

* `Clockwork` --- the parties and the clock between them;
* `Clockwork.step?` --- a step of one of them, or `none` while it has to wait;
* `Clockwork.run` --- any steps in any order.
-/

namespace Uniprocessor

/-- A subscriber as it sees itself: the tick at which it subscribed and the ticks it has taken. -/
structure Subscriber where
  since : Tick
  taken : List Tick
  deriving Repr, DecidableEq

/-- Where the party that settles ticks stands. -/
inductive Pacer where
  | idle
  /-- It has read the clock, and is to settle the tick it has read. -/
  | seen (tick : Tick)
  /-- It has settled the tick it has read, and waits for a later one. -/
  | awaiting (tick : Tick)
  /-- It has waited for a tick after `tick`, and this is what it was told. -/
  | answered (tick : Tick) (next? : Option Tick)
  deriving Repr, DecidableEq

/-- Whether the pacer may begin with something new. -/
def Pacer.isFree : Pacer → Bool
  | idle => true
  | answered _ _ => true
  | _ => false

/-- A step that one of the parties may want to make. -/
inductive ClockMove where
  | subscribe
  /-- A subscriber takes the next tick from its channel. -/
  | take (subscriber : SubscriberId)
  | hangUp (subscriber : SubscriberId)
  /-- A step of the party that moves the clock. -/
  | drive
  /-- The pacer settles a tick. -/
  | settle (tick : Tick)
  /-- The pacer reads the clock. -/
  | look
  /-- The pacer settles the tick it has read. -/
  | settleSeen
  /-- The pacer is told of the tick it waits for. -/
  | awaken
  | stop
  deriving Repr, DecidableEq

/-- A clock and the parties around it. -/
structure Clockwork where
  clock : Clock
  driver : ClockDriver
  pacer : Pacer
  /-- In the order of their numbers. -/
  subscribers : List Subscriber
  /-- All ticks that have been settled, the latest one first. -/
  settles : List Tick
  deriving Repr, DecidableEq

namespace Clockwork

/-- A new clock that nobody has dealt with. -/
def start : Clockwork :=
  ⟨.start, .waiting, .idle, [], []⟩

/-- A tick is settled. -/
def settle (s : Clockwork) (tick : Tick) : Clockwork :=
  { s with clock := s.clock.settle tick, settles := tick :: s.settles }

/-- A step of one of the parties, unless it has to wait. -/
def step? (s : Clockwork) : ClockMove → Option Clockwork
  | .subscribe =>
    some { s with
      clock := s.clock.subscribe.2
      subscribers := s.subscribers ++ [⟨s.clock.tick, []⟩] }
  | .take i =>
    (s.clock.take? i).map fun (tick?, clock) =>
      { s with
        clock := clock
        subscribers := s.subscribers.modify i fun r => { r with taken := r.taken ++ tick?.toList } }
  | .hangUp i => some { s with clock := s.clock.hangUp i }
  | .drive =>
    (s.driver.step? s.clock).map fun (driver, clock) => { s with driver := driver, clock := clock }
  | .settle tick => if s.pacer.isFree && tick ≤ s.clock.tick then some (s.settle tick) else none
  | .look => if s.pacer.isFree then some { s with pacer := .seen s.clock.tick } else none
  | .settleSeen =>
    match s.pacer with
    | .seen tick => some { s.settle tick with pacer := .awaiting tick }
    | _ => none
  | .awaken =>
    match s.pacer with
    | .awaiting tick =>
      (s.clock.waitPast? tick).map fun next? => { s with pacer := .answered tick next? }
    | _ => none
  | .stop => some { s with clock := s.clock.stop }

/-- A party makes a step if it need not wait. -/
def attempt (s : Clockwork) (m : ClockMove) : Clockwork :=
  (s.step? m).getD s

/-- Steps of the parties, one after the other. -/
def run (s : Clockwork) (ms : List ClockMove) : Clockwork :=
  ms.foldl attempt s

/-- All that a subscriber has been sent, unless it has hung up: what it has taken and what is still
in its channel. -/
def sent (s : Clockwork) (i : SubscriberId) : List Tick :=
  ((s.subscribers[i]?.map Subscriber.taken).getD []) ++
    ((s.clock.mailbox? i).map Mailbox.queue).getD []

end Clockwork

end Uniprocessor
