import Uniprocessor.Basic

/-!
# The shared clock

The clock of a run on threads.  It counts ticks, sends every new tick to its subscribers, and knows
up to which tick the scheduler has settled its decisions.  Whoever moves the clock waits for the
current tick to be settled, so nobody sees tick `t + 1` while tick `t` is still being decided.  A
stopped clock stays where it is and has no subscribers.

## Channels and waiting

A subscription is a channel with two ends.  The clock's end is open until the clock stops or finds
the other end hung up; a subscriber takes what has been sent before it learns of that.

An operation that would have to wait answers `none`; one that is answered at once answers `some`.

* `Clock.subscribe`, `hangUp`, `take?`, `drain` --- the subscribers' side;
* `Clock.settle`, `waitPast?` --- the scheduler's side;
* `Clock.waitSettled?`, `advance?`, `stop` --- the side of whoever moves it;
* `Clock.drive` --- a scheduler and a mover that take turns up to a tick.
-/

namespace Uniprocessor

/-- A subscription: what has been sent and not been taken, and which of its ends are open. -/
structure Mailbox where
  queue : List Tick
  connected : Bool
  listening : Bool
  deriving Repr, DecidableEq

/-- Subscriptions are numbered in the order they are made. -/
abbrev SubscriberId := Nat

/-- The state of the clock. -/
structure Clock where
  tick : Tick
  settled : Option Tick
  stopped : Bool
  mailboxes : List Mailbox
  deriving Repr, DecidableEq

namespace Mailbox

/-- Sends a tick, if the other end is open; otherwise closes this one. -/
def send (m : Mailbox) (tick : Tick) : Mailbox :=
  if m.connected then
    if m.listening then { m with queue := m.queue ++ [tick] } else { m with connected := false }
  else m

/-- Closes the clock's end. -/
def disconnect (m : Mailbox) : Mailbox :=
  { m with connected := false }

/-- Closes the subscriber's end; what has not been taken is lost. -/
def hangUp (m : Mailbox) : Mailbox :=
  { m with queue := [], listening := false }

end Mailbox

namespace Clock

/-- A new clock. -/
def start : Clock :=
  ⟨0, none, false, []⟩

/-- Adds a subscription; it hears of later ticks, unless the clock has stopped. -/
def subscribe (c : Clock) : SubscriberId × Clock :=
  (c.mailboxes.length, { c with mailboxes := c.mailboxes ++ [⟨[], !c.stopped, true⟩] })

/-- The scheduler has settled a tick. -/
def settle (c : Clock) (tick : Tick) : Clock :=
  { c with settled := some (match c.settled with | some s => max s tick | none => tick) }

/-- Whether the current tick is settled. -/
def isSettled (c : Clock) : Bool :=
  match c.settled with
  | some s => c.tick ≤ s
  | none => false

/-- Moves the clock by one tick and sends the new one; not if it is stopped. -/
def advance? (c : Clock) : Option Clock :=
  if c.stopped then none
  else some { c with tick := c.tick + 1, mailboxes := c.mailboxes.map (·.send (c.tick + 1)) }

/-- Waits for the current tick to be settled, and says whether the clock still runs. -/
def waitSettled? (c : Clock) : Option Bool :=
  if c.stopped then some false else if c.isSettled then some true else none

/-- Waits for a tick after `tick`, and gives it unless the clock is stopped. -/
def waitPast? (c : Clock) (tick : Tick) : Option (Option Tick) :=
  if c.stopped then some none else if tick < c.tick then some (some c.tick) else none

/-- Stops the clock. -/
def stop (c : Clock) : Clock :=
  { c with stopped := true, mailboxes := c.mailboxes.map Mailbox.disconnect }

/-- The channel of a subscription. -/
def mailbox? (c : Clock) (i : SubscriberId) : Option Mailbox :=
  c.mailboxes[i]?

/-- Changes the channel of a subscription. -/
def modifyMailbox (c : Clock) (i : SubscriberId) (f : Mailbox → Mailbox) : Clock :=
  { c with mailboxes := c.mailboxes.modify i f }

/-- A subscriber hangs up. -/
def hangUp (c : Clock) (i : SubscriberId) : Clock :=
  c.modifyMailbox i Mailbox.hangUp

/-- What a subscriber takes from its channel: the next tick, or the news that there is none to
come; nothing while it would have to wait. -/
def take? (c : Clock) (i : SubscriberId) : Option (Option Tick × Clock) :=
  match c.mailbox? i with
  | some ⟨tick :: rest, _, true⟩ =>
    some (some tick, c.modifyMailbox i fun m => { m with queue := rest })
  | some ⟨[], true, true⟩ => none
  | _ => some (none, c)

/-- What a subscriber takes without waiting: all that has been sent, and whether it learns that
nothing is to come. -/
def drain (c : Clock) (i : SubscriberId) : (List Tick × Bool) × Clock :=
  match c.mailbox? i with
  | some ⟨queue, connected, true⟩ =>
    ((queue, !connected), c.modifyMailbox i fun m => { m with queue := [] })
  | _ => (([], true), c)

/-- Settles the current tick and moves on, `n` times; the ticks reached. -/
def driveFor : Nat → Clock → List Tick × Clock
  | 0, c => ([], c)
  | n + 1, c =>
    match (c.settle c.tick).advance? with
    | some next => (next.tick :: (driveFor n next).1, (driveFor n next).2)
    | none => ([], c)

/-- Settles each tick and moves on until a tick is reached, then stops. -/
def drive (c : Clock) (tick : Tick) : List Tick × Clock :=
  ((driveFor (tick - c.tick) c).1, (driveFor (tick - c.tick) c).2.stop)

/-- Moves the clock by a number of ticks that nobody settles. -/
def skip : Nat → Clock → Clock
  | 0, c => c
  | n + 1, c => skip n (c.advance?.getD c)

end Clock

end Uniprocessor
