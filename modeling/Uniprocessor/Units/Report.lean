import Uniprocessor.Basic

/-!
# What execution units report

An execution unit burns the run time of one process, a tick at a time.  For every tick it counts
it reports how much is left, or that nothing is.
-/

namespace Uniprocessor

/-- Units are numbered in the order they are started. -/
abbrev UnitId := Nat

/-- A unit's report for a tick it has counted. -/
inductive UnitReport where
  | progress (unit : UnitId) (tick : Tick) (remaining : Nat)
  | finished (unit : UnitId) (tick : Tick)
  deriving Repr, DecidableEq

namespace UnitReport

/-- The reporting unit. -/
def unit : UnitReport → UnitId
  | progress unit _ _ => unit
  | finished unit _ => unit

/-- The tick the report is about. -/
def tick : UnitReport → Tick
  | progress _ tick _ => tick
  | finished _ tick => tick

/-- What the unit has left. -/
def remaining : UnitReport → Nat
  | progress _ _ remaining => remaining
  | finished _ _ => 0

/-- The report with its fields named, as diagnostics quote it. -/
def text : UnitReport → String
  | progress unit tick remaining =>
    "Progress \x7b unit: UnitId(" ++ toString unit ++ "), tick: " ++ toString tick ++
      ", remaining: " ++ toString remaining ++ " \x7d"
  | finished unit tick =>
    "Finished \x7b unit: UnitId(" ++ toString unit ++ "), tick: " ++ toString tick ++ " \x7d"

end UnitReport

end Uniprocessor
