import Uniprocessor.Random.Pcg
import Uniprocessor.Workload.Basic

/-!
# Random workloads

A workload of `count` processes with the identifiers from one up.  Each arrives `0` to `10` ticks
after the one before it, runs `1` to `29` ticks, has a priority from `0` to `10`, and asks for at
most its share of the arena.  The four draws of a process are made in this order, so a seed fixes
the workload.
-/

namespace Uniprocessor

namespace Workload

/-- The largest request: an equal share of the arena, and at least one byte. -/
def share (count arena : Nat) : Nat :=
  max (arena / max count 1) 1

/-- Draws the process with identifier `id` that follows one arriving at `previous`. -/
def drawProcess (limit id : Nat) (previous : Tick) (g : Pcg) : Process × Pcg :=
  let gap := g.below64 11
  let extraTime := gap.2.below64 29
  let priority := extraTime.2.below32 11
  let extraMemory := priority.2.below64 limit
  (⟨id, previous + gap.1, extraTime.1 + 1, priority.1, extraMemory.1 + 1⟩, extraMemory.2)

/-- Draws the processes with identifiers from `id` up. -/
def drawProcesses (limit : Nat) : Nat → Nat → Tick → Pcg → List Process
  | 0, _, _, _ => []
  | count + 1, id, previous, g =>
    let next := drawProcess limit id previous g
    next.1 :: drawProcesses limit count (id + 1) next.1.arrival next.2

/-- The random workload of a seed.  Identifiers must fit their word. -/
def generate (count seed arena : Nat) : Except WorkloadError Workload :=
  if word32 ≤ count then .error (.tooMany count)
  else ofList (drawProcesses (share count arena) count 1 0 (.ofSeed seed))

end Workload

end Uniprocessor
