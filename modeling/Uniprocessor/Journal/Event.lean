import Uniprocessor.Decimal.Fixed
import Uniprocessor.Memory.Range
import Uniprocessor.Process.ControlBlock

/-!
# Events

What a run records: changes in the life of a process, and what became of requests for memory.  An
event has one line of text in a log, and one record in a saved log.
-/

namespace Uniprocessor

/-- A change in the life of a process. -/
inductive ProcessEventKind where
  | started
  | stopped
  | resumed
  | finished
  deriving Repr, DecidableEq

/-- The verb in a log line. -/
def ProcessEventKind.verb : ProcessEventKind → String
  | started => "started"
  | stopped => "stopped"
  | resumed => "resumed"
  | finished => "finished"

/-- The case name in a saved log. -/
def ProcessEventKind.caseName : ProcessEventKind → String
  | started => "Started"
  | stopped => "Stopped"
  | resumed => "Resumed"
  | finished => "Finished"

/-- The kind with a case name. -/
def ProcessEventKind.ofCaseName? : String → Option ProcessEventKind
  | "Started" => some started
  | "Stopped" => some stopped
  | "Resumed" => some resumed
  | "Finished" => some finished
  | _ => none

/-- The figures of a finished process. -/
structure Completion where
  turnaround : Nat
  weighted : Float
  deriving Repr, DecidableEq

/-- An event in the life of a process. -/
structure ProcessEvent where
  tick : Tick
  process : Nat
  kind : ProcessEventKind
  arrival : Tick
  total : Nat
  remaining : Nat
  waiting : Nat
  completion : Option Completion
  deriving Repr, DecidableEq

/-- What became of a request for memory, or of a block. -/
inductive MemoryEventKind where
  | allocated
  | freed
  | rejected
  deriving Repr, DecidableEq

/-- The case name in a saved log. -/
def MemoryEventKind.caseName : MemoryEventKind → String
  | allocated => "Allocated"
  | freed => "Freed"
  | rejected => "Rejected"

/-- The kind with a case name. -/
def MemoryEventKind.ofCaseName? : String → Option MemoryEventKind
  | "Allocated" => some allocated
  | "Freed" => some freed
  | "Rejected" => some rejected
  | _ => none

/-- A memory event: the size of the block, or of the request if it was rejected, and the addresses
of the block. -/
structure MemoryEvent where
  tick : Tick
  process : Nat
  kind : MemoryEventKind
  size : Nat
  range : Option Range
  deriving Repr, DecidableEq

namespace ProcessEvent

/-- The event of a kind that happens to a process. -/
def ofBlock (b : ControlBlock) (tick : Tick) (kind : ProcessEventKind)
    (completion : Option Completion) : ProcessEvent :=
  ⟨tick, b.id, kind, b.arrival, b.runTime, b.remaining, b.waiting, completion⟩

/-- The figures at the end of the line of a finished process. -/
def completionText : Option Completion → String
  | some c => " TA " ++ toString c.turnaround ++ " WTA " ++ twoPlaces c.weighted
  | none => ""

/-- The line of an event. -/
def text (e : ProcessEvent) : String :=
  "At time " ++ toString e.tick ++ " process " ++ toString e.process ++ " " ++ e.kind.verb ++
    " arr " ++ toString e.arrival ++ " total " ++ toString e.total ++
    " remain " ++ toString e.remaining ++ " wait " ++ toString e.waiting ++
    completionText e.completion

end ProcessEvent

namespace MemoryEvent

/-- The event of a block that is reserved for a process or given back. -/
def ofBlock (process : Nat) (tick : Tick) (kind : MemoryEventKind) (b : Buddy.Block) :
    MemoryEvent :=
  ⟨tick, process, kind, b.size, some b.range⟩

/-- The addresses at the end of a line. -/
def rangeText : Option Range → String
  | some r => " from " ++ toString r.start ++ " to " ++ toString r.last
  | none => ""

/-- The line of an event. -/
def text (e : MemoryEvent) : String :=
  match e.kind with
  | .allocated =>
    "At time " ++ toString e.tick ++ " allocated " ++ toString e.size ++
      " bytes for process " ++ toString e.process ++ rangeText e.range
  | .freed =>
    "At time " ++ toString e.tick ++ " freed " ++ toString e.size ++
      " bytes for process " ++ toString e.process ++ rangeText e.range
  | .rejected =>
    "At time " ++ toString e.tick ++ " couldn't allocate " ++ toString e.size ++
      " bytes for process " ++ toString e.process

end MemoryEvent

end Uniprocessor
