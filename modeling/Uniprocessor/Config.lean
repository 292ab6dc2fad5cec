import Uniprocessor.Policy

/-!
# Configurations

The settings of a run.  `Config.check` finds the first fault, in a fixed order: the quantum, the
arena, the capacity, the two wall-clock spans, the name of the units.
-/

namespace Uniprocessor

/-- The settings of a run.  The wall-clock spans and the unit name only matter to a run whose
parties are threads: a tick lasts at least `tickInterval`, and a party that hears nothing for
`stallTimeout` gives up. -/
structure Config where
  policy : Policy := .highestPriorityFirst
  arena : Nat := 1024
  readyCapacity : Nat := 1000
  tickInterval : Span := ⟨0⟩
  stallTimeout : Span := .ofSeconds 10 0
  unitName : String := "schedsim-unit"
  deriving Repr, DecidableEq

namespace Config

/-- The first fault of a configuration. -/
def fault? (c : Config) : Option ConfigError :=
  if c.policy = .roundRobin 0 then some .zeroQuantum
  else if !isPowerOfTwo c.arena then some (.badArena c.arena)
  else if c.readyCapacity = 0 then some .zeroCapacity
  else if c.stallTimeout.nanoseconds ≤ c.tickInterval.nanoseconds then
    some (.shortTimeout c.stallTimeout c.tickInterval)
  else if c.unitName.isEmpty then some .emptyUnitName
  else none

/-- A configuration without faults. -/
def Valid (c : Config) : Prop :=
  c.fault? = none

instance (c : Config) : Decidable c.Valid :=
  inferInstanceAs (Decidable (c.fault? = none))

/-- Refuses a configuration with a fault. -/
def check (c : Config) : Except Failure Unit :=
  match c.fault? with
  | some fault => .error (.config fault)
  | none => .ok ()

end Config

end Uniprocessor
