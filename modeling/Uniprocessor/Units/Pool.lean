import Uniprocessor.Failure
import Uniprocessor.Units.Countdown

/-!
# Pools of execution units

The units of a run, in the order of their numbers.  A tick is offered to all of them at once; a
command concerns one, and is refused if that one does not exist or has been released.
-/

namespace Uniprocessor

/-- The live units, and the number of the next one. -/
structure UnitPool where
  units : List Countdown
  next : UnitId
  deriving Repr, DecidableEq

namespace UnitPool

/-- The pool without units. -/
def empty : UnitPool :=
  ⟨[], 0⟩

/-- Number of live units. -/
def size (p : UnitPool) : Nat :=
  p.units.length

/-- The live unit with a number. -/
def find? (p : UnitPool) (unit : UnitId) : Option Countdown :=
  p.units.find? fun c => c.unit == unit

/-- The live unit with a number, or the reason there is none. -/
def get (p : UnitPool) (unit : UnitId) : Except Failure Countdown :=
  match p.find? unit with
  | some c => .ok c
  | none => .error (.unit (.unknown unit))

/-- Starts a unit that counts the ticks after `tick`. -/
def start (p : UnitPool) (remaining : Nat) (tick : Tick) : UnitId × UnitPool :=
  (p.next, ⟨p.units ++ [.start p.next remaining tick], p.next + 1⟩)

/-- Gives a command to a unit. -/
def command (p : UnitPool) (unit : UnitId) (c : UnitCommand) : Except Failure UnitPool :=
  match p.find? unit with
  | some _ =>
    .ok { p with units := p.units.map fun u => if u.unit == unit then (u.onCommand c).2 else u }
  | none => .error (.unit (.unknown unit))

/-- Makes a unit ignore ticks. -/
def pause (p : UnitPool) (unit : UnitId) : Except Failure UnitPool :=
  p.command unit .pause

/-- Lets a unit count the ticks after `tick` again. -/
def resume (p : UnitPool) (unit : UnitId) (tick : Tick) : Except Failure UnitPool :=
  p.command unit (.resume tick)

/-- What a unit has left. -/
def remaining (p : UnitPool) (unit : UnitId) : Except Failure Nat :=
  (p.get unit).map Countdown.remaining

/-- Releases a unit. -/
def reap (p : UnitPool) (unit : UnitId) : Except Failure UnitPool :=
  match p.find? unit with
  | some _ => .ok { p with units := p.units.filter fun c => c.unit != unit }
  | none => .error (.unit (.unknown unit))

/-- Offers a tick to every unit; the reports come in the order of the units. -/
def advance (p : UnitPool) (tick : Tick) : List UnitReport × UnitPool :=
  (p.units.filterMap fun c => (c.onTick tick).1,
    { p with units := p.units.map fun c => (c.onTick tick).2 })

/-- Releases all units. -/
def shutdown (p : UnitPool) : UnitPool :=
  { p with units := [] }

end UnitPool

end Uniprocessor
