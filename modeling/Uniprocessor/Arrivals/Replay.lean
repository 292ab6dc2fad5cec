import Uniprocessor.Arrivals.Generator

/-!
# Replays of a workload

A generator with what it depends on: the clock, which moves and may be stopped, and the receiver of
its messages, which may hang up.  All this happens in any order, and the generator makes its steps
in between.  A clock that is stopped already moves no more, and from then on the generator only
takes the ticks it has been sent.

* `Replay.step?` --- one thing that happens, or `none` if it cannot happen now;
* `Replay.run` --- all that happens, one after the other;
* `Replay.settle` --- the generator's steps up to where it has to wait.
-/

namespace Uniprocessor

/-- The process that a message announces. -/
def ArrivalMessage.process? : ArrivalMessage → Option Process
  | .arrival p => some p
  | _ => none

/-- Something that happens in a replay. -/
inductive ReplayMove where
  /-- The generator makes a step. -/
  | step
  /-- The clock moves to the next tick. -/
  | advance
  /-- The clock is stopped. -/
  | stop
  /-- From now on nobody receives the messages. -/
  | hangUp
  deriving Repr, DecidableEq

/-- A generator, its clock, and what it has sent. -/
structure Replay where
  clock : Clock
  generator : Generator
  /-- Whether the messages are still received. -/
  received : Bool
  sent : List ArrivalMessage
  deriving Repr

namespace Replay

/-- A generator that starts on a clock, whatever its tick is. -/
def start (w : Workload) (c : Clock) : Replay :=
  ⟨(Generator.start w c).2, (Generator.start w c).1, true, []⟩

/-- What comes of a move, unless it cannot be made. -/
def step? (s : Replay) : ReplayMove → Option Replay
  | .step =>
    (s.generator.step? s.clock s.received).map fun (message?, generator, clock) =>
      { s with clock := clock, generator := generator, sent := s.sent ++ message?.toList }
  | .advance => s.clock.advance?.map fun clock => { s with clock := clock }
  | .stop => some { s with clock := s.clock.stop }
  | .hangUp => some { s with received := false }

/-- A move, if it can be made. -/
def attempt (s : Replay) (m : ReplayMove) : Replay :=
  (s.step? m).getD s

/-- Moves, one after the other. -/
def run (s : Replay) (ms : List ReplayMove) : Replay :=
  ms.foldl attempt s

/-- The generator's steps up to where it has to wait. -/
def settle (s : Replay) : Replay :=
  let (messages, generator, clock) := s.generator.run s.clock s.received
  { s with clock := clock, generator := generator, sent := s.sent ++ messages }

/-- The processes that have been sent. -/
def arrivals (s : Replay) : List Process :=
  s.sent.filterMap ArrivalMessage.process?

end Replay

end Uniprocessor
