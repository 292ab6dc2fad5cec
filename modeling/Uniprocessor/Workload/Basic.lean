import Uniprocessor.Failure
import Uniprocessor.Json.Record

/-!
# Workloads

A workload is the list of the processes that will arrive, each with the time it arrives and what
it asks for.  `Workload.ofList` is the way to build one: it refuses a process without run time and
a second process of the same identifier, whichever comes first in the list, and sorts by arrival;
processes that arrive together keep their order.

A saved workload is read back as it stands, neither checked nor sorted.  Everything that runs a
workload therefore takes any list, and makes the first process of the list wait for no later one.
-/

namespace Uniprocessor

/-- A process that will arrive. -/
structure Process where
  id : Nat
  arrival : Tick
  runTime : Nat
  priority : Nat
  memory : Nat
  deriving Repr, DecidableEq

/-- The processes of a run, in the order they are let in. -/
structure Workload where
  processes : List Process
  deriving Repr, DecidableEq

namespace Process

/-- Reads a process from a saved workload. -/
def ofJson? (v : Json) : Option Process :=
  match v.fields? ["id", "arrival_time", "run_time", "priority", "mem_size"] 0 with
  | some [id, arrival, runTime, priority, memory] => do
    return {
      id := ← Json.required (Json.nat? word32) id
      arrival := ← Json.required (Json.nat? word64) arrival
      runTime := ← Json.required (Json.nat? word64) runTime
      priority := ← Json.required (Json.nat? word32) priority
      memory := ← Json.required (Json.nat? word64) memory }
  | _ => none

end Process

namespace Workload

/-- The workload without processes. -/
def empty : Workload :=
  ⟨[]⟩

/-- The first fault of a list of processes, where `seen` holds the identifiers before it. -/
def fault? (seen : List Nat) : List Process → Option WorkloadError
  | [] => none
  | p :: ps =>
    if p.runTime = 0 then some (.zeroRunTime p.id)
    else if p.id ∈ seen then some (.duplicateId p.id)
    else fault? (p.id :: seen) ps

/-- The workload of a list of processes. -/
def ofList (ps : List Process) : Except WorkloadError Workload :=
  match fault? [] ps with
  | some fault => .error fault
  | none => .ok ⟨ps.mergeSort fun p q => p.arrival ≤ q.arrival⟩

/-- Number of processes. -/
def size (w : Workload) : Nat :=
  w.processes.length

/-- The arrival of the last process of the list. -/
def lastArrival? (w : Workload) : Option Tick :=
  w.processes.getLast?.map Process.arrival

/-- Reads a saved workload. -/
def ofJson? (v : Json) : Option Workload :=
  match v.fields? ["processes"] 0 with
  | some [processes] =>
    (Json.required (Json.list? Process.ofJson?) processes).map Workload.mk
  | _ => none

end Workload

end Uniprocessor
