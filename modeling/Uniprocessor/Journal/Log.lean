import Uniprocessor.Journal.Event

/-!
# Event logs

The process events and the memory events of a run, each in the order they happened.  As a text, a
log is a heading and one line for each event; as a saved file it is a JSON object of two arrays.
-/

namespace Uniprocessor

/-- The events of a run. -/
structure EventLog where
  process : List ProcessEvent
  memory : List MemoryEvent
  deriving Repr, DecidableEq

namespace EventLog

/-- The log without events. -/
def empty : EventLog :=
  ⟨[], []⟩

/-- The process events of one process, in order. -/
def eventsFor (log : EventLog) (process : Nat) : List ProcessEvent :=
  log.process.filter fun e => e.process == process

/-- The heading of the process log. -/
def processHeading : String :=
  "#At time x process y state arr w total z remain y wait k"

/-- The heading of the memory log. -/
def memoryHeading : String :=
  "#At time x allocated y bytes for process z from i to j"

/-- Lines of text, each ended by a line feed. -/
def unlines (lines : List String) : String :=
  String.join (lines.map (· ++ "\n"))

/-- The text of the process log. -/
def processText (log : EventLog) : String :=
  unlines (processHeading :: log.process.map ProcessEvent.text)

/-- The text of the memory log. -/
def memoryText (log : EventLog) : String :=
  unlines (memoryHeading :: log.memory.map MemoryEvent.text)

end EventLog

/-! ## Saved logs -/

/-- The figures of a finished process in a saved log. -/
def Completion.toJson (c : Completion) : Json :=
  .record [("turnaround", .ofNat c.turnaround), ("weighted_turnaround", .ofFloat c.weighted)]

/-- Reads the figures of a finished process. -/
def Completion.ofJson? (v : Json) : Option Completion :=
  match v.fields? ["turnaround", "weighted_turnaround"] 0 with
  | some [turnaround, weighted] => do
    return {
      turnaround := ← Json.required (Json.nat? word64) turnaround
      weighted := ← Json.required Json.float? weighted }
  | _ => none

/-- The names of the fields of a saved process event. -/
def ProcessEvent.fieldNames : List String :=
  ["tick", "process", "kind", "arrival", "total", "remaining", "waiting", "completion"]

/-- A process event in a saved log. -/
def ProcessEvent.toJson (e : ProcessEvent) : Json :=
  .record (fieldNames.zip
    [.ofNat e.tick, .ofNat e.process, .ofString e.kind.caseName, .ofNat e.arrival,
      .ofNat e.total, .ofNat e.remaining, .ofNat e.waiting,
      .ofOption Completion.toJson e.completion])

/-- Reads the kind of a process event. -/
def ProcessEventKind.ofJson? (v : Json) : Option ProcessEventKind :=
  v.unitVariant?.bind ofCaseName?

/-- Reads a process event. -/
def ProcessEvent.ofJson? (v : Json) : Option ProcessEvent :=
  match v.fields? fieldNames 0 with
  | some [tick, process, kind, arrival, total, remaining, waiting, completion] => do
    return {
      tick := ← Json.required (Json.nat? word64) tick
      process := ← Json.required (Json.nat? word32) process
      kind := ← Json.required ProcessEventKind.ofJson? kind
      arrival := ← Json.required (Json.nat? word64) arrival
      total := ← Json.required (Json.nat? word64) total
      remaining := ← Json.required (Json.nat? word64) remaining
      waiting := ← Json.required (Json.nat? word64) waiting
      completion := ← Json.optional Completion.ofJson? completion }
  | _ => none

/-- The names of the fields of a saved memory event. -/
def MemoryEvent.fieldNames : List String :=
  ["tick", "process", "kind", "size", "range"]

/-- A memory event in a saved log. -/
def MemoryEvent.toJson (e : MemoryEvent) : Json :=
  .record (fieldNames.zip
    [.ofNat e.tick, .ofNat e.process, .ofString e.kind.caseName, .ofNat e.size,
      .ofOption Range.toJson e.range])

/-- Reads the kind of a memory event. -/
def MemoryEventKind.ofJson? (v : Json) : Option MemoryEventKind :=
  v.unitVariant?.bind ofCaseName?

/-- Reads a memory event. -/
def MemoryEvent.ofJson? (v : Json) : Option MemoryEvent :=
  match v.fields? fieldNames 0 with
  | some [tick, process, kind, size, range] => do
    return {
      tick := ← Json.required (Json.nat? word64) tick
      process := ← Json.required (Json.nat? word32) process
      kind := ← Json.required MemoryEventKind.ofJson? kind
      size := ← Json.required (Json.nat? word64) size
      range := ← Json.optional Range.ofJson? range }
  | _ => none

/-- A saved log. -/
def EventLog.toJson (log : EventLog) : Json :=
  .record
    [("process", .array (log.process.map ProcessEvent.toJson)),
      ("memory", .array (log.memory.map MemoryEvent.toJson))]

/-- Reads a saved log. -/
def EventLog.ofJson? (v : Json) : Option EventLog :=
  match v.fields? ["process", "memory"] 0 with
  | some [process, memory] => do
    return {
      process := ← Json.required (Json.list? ProcessEvent.ofJson?) process
      memory := ← Json.required (Json.list? MemoryEvent.ofJson?) memory }
  | _ => none

end Uniprocessor
