import Uniprocessor.Units.Report

/-!
# Countdowns

The behaviour of one execution unit.  It has a number of ticks to burn and counts a tick if it is
not paused, the tick lies above its floor, and it has any left.  The floor is the last tick that is
accounted for: it rises with every counted tick, and to the tick a resume names.
-/

namespace Uniprocessor

/-- A command to a unit. -/
inductive UnitCommand where
  | pause
  /-- Count again, but only ticks above `after`. -/
  | resume (after : Tick)
  | stop
  deriving Repr, DecidableEq

/-- A unit's answer to a command, with what it has left. -/
inductive UnitAck where
  | paused (remaining : Nat)
  | resumed (remaining : Nat)
  deriving Repr, DecidableEq

/-- The state of a unit. -/
structure Countdown where
  unit : UnitId
  remaining : Nat
  paused : Bool
  floor : Tick
  deriving Repr, DecidableEq

namespace Countdown

/-- A unit that has just been started at `floor`. -/
def start (unit : UnitId) (remaining : Nat) (floor : Tick) : Countdown :=
  ⟨unit, remaining, false, floor⟩

/-- Whether a unit counts a tick. -/
def counts (c : Countdown) (tick : Tick) : Bool :=
  !c.paused && c.floor < tick && 0 < c.remaining

/-- The report of a unit that has `remaining` ticks left after `tick`. -/
def reportOf (unit : UnitId) (tick : Tick) (remaining : Nat) : UnitReport :=
  if remaining = 0 then .finished unit tick else .progress unit tick remaining

/-- Offers a tick to a unit. -/
def onTick (c : Countdown) (tick : Tick) : Option UnitReport × Countdown :=
  if c.counts tick then
    (some (reportOf c.unit tick (c.remaining - 1)),
      { c with remaining := c.remaining - 1, floor := tick })
  else (none, c)

/-- Gives a command to a unit; there is no answer to the command to stop. -/
def onCommand (c : Countdown) : UnitCommand → Option UnitAck × Countdown
  | .pause => (some (.paused c.remaining), { c with paused := true })
  | .resume after =>
    (some (.resumed c.remaining), { c with paused := false, floor := max c.floor after })
  | .stop => (none, c)

end Countdown

end Uniprocessor
