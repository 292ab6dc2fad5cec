import Uniprocessor.Units.Pool
import Uniprocessor.Units.Thread

/-!
# A caller and its units

A caller asks for one thing after the other: it starts units, pauses, resumes and releases them, reads
what one has left and how many there are, and moves the clock.

A pool answers at once.  With units on threads the caller has to wait: for the answer to a command, for
the end of a unit it releases, and, when it has moved the clock, for as many reports as a pool would
have given at that tick.  To know how many these are it keeps such a pool, and asks it for the same
things.

* `UnitPool.answers` --- what a pool answers to requests, one after the other;
* `Dealings` --- a caller and a crew between two steps;
* `Dealings.step?` --- a step of the caller or of a unit, or `none` while it has to wait.
-/

namespace Uniprocessor

/-- What a caller may ask for. -/
inductive Request where
  /-- A unit that counts the ticks after `tick`. -/
  | start (remaining : Nat) (tick : Tick)
  | pause (unit : UnitId)
  | resume (unit : UnitId) (tick : Tick)
  | reap (unit : UnitId)
  | remaining (unit : UnitId)
  /-- The number of live units. -/
  | size
  /-- The clock is moved, and the reports of the new tick are collected. -/
  | advance
  deriving Repr, DecidableEq

/-- What comes of a request. -/
inductive Answer where
  | started (unit : UnitId)
  | acknowledged (ack? : Option UnitAck)
  | released
  | left (remaining : Nat)
  | live (units : Nat)
  | reports (tick : Tick) (reports : List UnitReport)
  | refused (reason : Failure)
  deriving DecidableEq

/-- The tick after a request. -/
def Request.after (tick : Tick) : Request → Tick
  | advance => tick + 1
  | _ => tick

/-- What has been read of a unit, or why nothing has. -/
def Answer.ofReading : Except Failure Nat → Answer
  | .ok remaining => left remaining
  | .error e => refused e

namespace UnitPool

/-- A command, and what the unit says to it. -/
def obey (p : UnitPool) (unit : UnitId) (x : UnitCommand) : Answer × UnitPool :=
  match p.command unit x with
  | .ok next => (.acknowledged ((p.find? unit).bind fun c => (c.onCommand x).1), next)
  | .error e => (.refused e, p)

/-- What a pool answers to a request that is made at a tick. -/
def answer (p : UnitPool) (tick : Tick) : Request → Answer × UnitPool
  | .start remaining since =>
    let (unit, next) := p.start remaining since
    (.started unit, next)
  | .pause unit => p.obey unit .pause
  | .resume unit after => p.obey unit (.resume after)
  | .reap unit =>
    match p.reap unit with
    | .ok next => (.released, next)
    | .error e => (.refused e, p)
  | .remaining unit => (.ofReading (p.remaining unit), p)
  | .size => (.live p.size, p)
  | .advance =>
    let (reports, next) := p.advance (tick + 1)
    (.reports (tick + 1) reports, next)

/-- What a pool answers to requests, one after the other. -/
def answers (p : UnitPool) (tick : Tick) : List Request → List Answer
  | [] => []
  | r :: rs => (p.answer tick r).1 :: (p.answer tick r).2.answers (r.after tick) rs

end UnitPool

/-- What a caller waits for. -/
inductive Awaited where
  | nothing
  /-- The acknowledgement of a command, or the end of a unit that has been told to stop. -/
  | answer (unit : UnitId) (command : UnitCommand)
  /-- The reports of a tick: how many are due, and those that have been taken. -/
  | reports (tick : Tick) (due : Nat) (taken : List UnitReport)
  deriving Repr, DecidableEq

/-- A caller and its crew. -/
structure Dealings where
  crew : Crew
  /-- The pool that is asked for the same things. -/
  pool : UnitPool
  /-- What has not been asked for yet. -/
  requests : List Request
  awaited : Awaited
  answers : List Answer
  deriving DecidableEq

namespace Dealings

/-- A party that may make a step; a unit also chooses what it takes from. -/
inductive Party where
  | caller
  | unit (unit : UnitId) (source : Source)
  deriving Repr, DecidableEq

/-- A caller that has not asked for anything yet, and a clock. -/
def start (clock : Clock) (requests : List Request) : Dealings :=
  ⟨.ofClock clock, .empty, requests, .nothing, []⟩

/-- The caller has its answer. -/
def conclude (s : Dealings) (crew : Crew) (a : Answer) : Dealings :=
  { s with crew := crew, awaited := .nothing, answers := s.answers ++ [a] }

/-- A command is sent, and its answer waited for. -/
def tell (s : Dealings) (unit : UnitId) (x : UnitCommand) : Dealings :=
  match s.crew.send unit x with
  | .ok crew => { s with crew := crew, awaited := .answer unit x }
  | .error e => s.conclude s.crew (.refused e)

/-- The clock is moved, and the reports waited for. -/
def advance (s : Dealings) (due : Nat) : Dealings :=
  let clock := s.crew.clock.advance?.getD s.crew.clock
  { s with crew := { s.crew with clock := clock }, awaited := .reports clock.tick due [] }

/-- Makes a request. -/
def make (s : Dealings) : Request → Dealings
  | .start remaining since =>
    let (unit, crew) := s.crew.start remaining since
    s.conclude crew (.started unit)
  | .pause unit => s.tell unit .pause
  | .resume unit after => s.tell unit (.resume after)
  | .reap unit => s.tell unit .stop
  | .remaining unit => s.conclude s.crew (.ofReading (s.crew.remaining unit))
  | .size => s.conclude s.crew (.live s.crew.size)
  | .advance => s.advance (s.pool.advance (s.crew.clock.tick + 1)).1.length

/-- Makes a request, and asks the pool for the same. -/
def ask (s : Dealings) (r : Request) : Dealings :=
  { s.make r with pool := (s.pool.answer s.crew.clock.tick r).2 }

/-- The caller's next step. -/
def callerStep? (s : Dealings) : Option Dealings :=
  match s.awaited with
  | .nothing =>
    match s.requests with
    | r :: rest => some ({ s with requests := rest }.ask r)
    | [] => none
  | .answer unit .stop => (s.crew.join? unit).map fun crew => s.conclude crew .released
  | .answer unit _ =>
    (s.crew.takeAck? unit).map fun (ack, crew) => s.conclude crew (.acknowledged (some ack))
  | .reports tick due taken =>
    if taken.length = due then some (s.conclude s.crew (.reports tick taken))
    else
      match s.crew.reports with
      | r :: rest =>
        some { s with
          crew := { s.crew with reports := rest }
          awaited := .reports tick due (taken ++ [r]) }
      | [] => none

/-- A step of a party, unless it has to wait. -/
def step? (s : Dealings) : Party → Option Dealings
  | .caller => s.callerStep?
  | .unit unit source => (s.crew.step? unit source).map fun crew => { s with crew := crew }

/-- The caller has asked for everything and has all answers. -/
def isOver (s : Dealings) : Bool :=
  s.requests.isEmpty && s.awaited == .nothing

end Dealings

end Uniprocessor
