import Uniprocessor.Journal.Log

/-!
# Journals

Everything a scheduler notes, in one chronological list: the events of both kinds, and two remarks
that no log keeps.  Diagnostics are written from it, and the event log is the part of it that is
events.
-/

namespace Uniprocessor

/-- Something a scheduler notes. -/
inductive Entry where
  | process (event : ProcessEvent)
  | memory (event : MemoryEvent)
  /-- The running process, with `left` ticks to go, gives way to one that needs `needed`. -/
  | preempting (tick : Tick) (left needed : Nat)
  /-- The unit of a finished process has been released. -/
  | reaped (unit : UnitId) (process : Nat)
  deriving Repr, DecidableEq

/-- The process event an entry is. -/
def Entry.process? : Entry → Option ProcessEvent
  | process e => some e
  | _ => none

/-- The memory event an entry is. -/
def Entry.memory? : Entry → Option MemoryEvent
  | memory e => some e
  | _ => none

/-- The entries of a run so far, the newest first. -/
structure Journal where
  newest : List Entry
  deriving Repr, DecidableEq

namespace Journal

/-- The journal without entries. -/
def empty : Journal :=
  ⟨[]⟩

/-- Adds an entry. -/
def add (j : Journal) (e : Entry) : Journal :=
  ⟨e :: j.newest⟩

/-- The entries in the order they were noted. -/
def entries (j : Journal) : List Entry :=
  j.newest.reverse

/-- The events noted. -/
def log (j : Journal) : EventLog :=
  ⟨j.entries.filterMap Entry.process?, j.entries.filterMap Entry.memory?⟩

@[simp] theorem entries_empty : empty.entries = [] := rfl

@[simp] theorem entries_add (j : Journal) (e : Entry) : (j.add e).entries = j.entries ++ [e] :=
  List.reverse_cons

end Journal

/-! ## Diagnostics -/

/-- How much a diagnostic matters; the first level matters most. -/
inductive Level where
  | warn
  | info
  | debug
  | trace
  deriving Repr, DecidableEq

namespace Level

/-- The name of a level. -/
def name : Level → String
  | warn => "WARN"
  | info => "INFO"
  | debug => "DEBUG"
  | trace => "TRACE"

/-- The rank of a level, the most important first. -/
def rank : Level → Nat
  | warn => 0
  | info => 1
  | debug => 2
  | trace => 3

/-- The level down to which diagnostics are shown for a count of requests for more. -/
def ofVerbosity : Nat → Level
  | 0 => warn
  | 1 => info
  | 2 => debug
  | _ => trace

end Level

/-- A remark on the progress of a run. -/
structure Diagnostic where
  level : Level
  message : String
  deriving Repr, DecidableEq

namespace Diagnostic

/-- The line of a diagnostic: the level in five columns, the thread, the message. -/
def line (d : Diagnostic) : String :=
  "[" ++ d.level.name ++ "".pushn ' ' (5 - d.level.name.length) ++ "] [main] " ++ d.message ++ "\n"

/-- The diagnostic of a journal entry.  A rejected request is a warning, other events are details,
and the remarks are finer details. -/
def ofEntry : Entry → Diagnostic
  | .process e => ⟨.debug, e.text⟩
  | .memory e => ⟨if e.kind = .rejected then .warn else .debug, e.text⟩
  | .preempting tick left needed =>
    ⟨.trace, "tick " ++ toString tick ++ ": preempting (" ++ toString left ++ " left, " ++
      toString needed ++ " ready)"⟩
  | .reaped unit process =>
    ⟨.trace, "reaped " ++ unitText unit ++ " (process " ++ toString process ++ ")"⟩

end Diagnostic

end Uniprocessor
