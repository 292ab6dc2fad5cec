import Uniprocessor.Span
import Uniprocessor.Units.Report

/-!
# Failures

Why an operation is refused.  Every kind of failure is an inductive type of causes, each with the
values its explanation quotes, and one function words the causes of a kind; `Failure` collects the
kinds.

* `ConfigError`, `WorkloadError` --- input that describes no run;
* `Failure.full` --- an arrival that finds no place in the ready structure;
* `Violation` --- a step of the scheduling protocol that does not fit the scheduler's state;
* `MemoryError`, `UnitError`, `ChannelError`, `FileError` --- refusals of the allocator, the
  execution units, the channels between the parties of a run, and the file system.
-/

namespace Uniprocessor

/-- What is wrong with a configuration. -/
inductive ConfigError where
  | unknownPolicy (text : String)
  | badQuantum (text : String)
  | zeroQuantum
  | badArena (size : Nat)
  | zeroCapacity
  | shortTimeout (timeout interval : Span)
  | emptyUnitName
  deriving Repr, DecidableEq

/-- The wording of a configuration error. -/
def ConfigError.message : ConfigError → String
  | unknownPolicy text =>
    "unknown policy '" ++ text ++ "' (expected hpf, srtn, rr or rr:<quantum>)"
  | badQuantum text => "invalid quantum '" ++ text ++ "'"
  | zeroQuantum => "round robin quantum must be > 0"
  | badArena size => "arena_size must be a non-zero power of two (got " ++ toString size ++ ")"
  | zeroCapacity => "ready_capacity must be > 0"
  | shortTimeout timeout interval =>
    "stall_timeout (" ++ timeout.text ++ ") must exceed tick_interval (" ++ interval.text ++ ")"
  | emptyUnitName => "unit_name_prefix must not be empty"

/-- The columns of a workload text. -/
inductive Column where
  | id
  | arrival
  | runTime
  | priority
  | memory
  deriving Repr, DecidableEq

/-- The heading of a column. -/
def Column.name : Column → String
  | id => "id"
  | arrival => "arrival"
  | runTime => "runtime"
  | priority => "priority"
  | memory => "memsize"

/-- What is wrong with a workload.  Lines are counted from one. -/
inductive WorkloadError where
  | fieldCount (line found : Nat)
  | badField (line : Nat) (column : Column) (text : String)
  | outOfRange (line : Nat) (column : Column)
  | zeroRunTime (process : Nat)
  | duplicateId (process : Nat)
  | tooMany (count : Nat)
  deriving Repr, DecidableEq

/-- The wording of a workload error. -/
def WorkloadError.message : WorkloadError → String
  | fieldCount line found =>
    "line " ++ toString line ++
      ": expected 5 fields (id arrival runtime priority memsize), found " ++ toString found
  | badField line column text =>
    "line " ++ toString line ++ ": invalid " ++ column.name ++ " '" ++ text ++ "'"
  | outOfRange line column => "line " ++ toString line ++ ": " ++ column.name ++ " out of range"
  | zeroRunTime process => "process " ++ toString process ++ " has zero run time"
  | duplicateId process => "duplicate process id " ++ toString process
  | tooMany count => "cannot generate " ++ toString count ++ " processes"

/-- A step that the scheduling protocol does not allow in the state it meets. -/
inductive Violation where
  | noHeapIndex (index : Nat)
  | largerKey (key current : Nat)
  | reportWhileIdle (report : UnitReport)
  | foreignReport (unit : UnitId) (process : Nat) (bound : Option UnitId)
  | finishWhileIdle
  | runningRetired
  | neverStarted (process : Nat)
  | unfinished (process remaining : Nat)
  | emptyReady
  | noUnit (process : Nat)
  | stillRunning
  | readyRetired
  | preemptWhileIdle
  | lateReport (reported tick : Tick)
  | lateBatch (batch tick : Tick)
  | clockJumped (tick next : Tick)
  | pauseAnswered (unit : UnitId) (remaining : Nat)
  | resumeAnswered (unit : UnitId) (remaining : Nat)
  deriving Repr, DecidableEq

/-- A unit as it is named in texts. -/
def unitText (unit : UnitId) : String :=
  "unit-" ++ toString unit

/-- A binding to a unit, as diagnostics quote it. -/
def bindingText : Option UnitId → String
  | some unit => "Some(UnitId(" ++ toString unit ++ "))"
  | none => "None"

/-- The wording of a violation. -/
def Violation.message : Violation → String
  | noHeapIndex index => "heap index " ++ toString index ++ " out of bounds"
  | largerKey key current =>
    "new key " ++ toString key ++ " is larger than current key " ++ toString current
  | reportWhileIdle report => report.text ++ " with no running process"
  | foreignReport unit process bound =>
    "report from " ++ unitText unit ++ " but process " ++ toString process ++ " is bound to " ++
      bindingText bound
  | finishWhileIdle => "finish with no running process"
  | runningRetired => "running slot points at a retired PCB"
  | neverStarted process => "process " ++ toString process ++ " was never started"
  | unfinished process remaining =>
    "process " ++ toString process ++ " finished with " ++ toString remaining ++ " ticks remaining"
  | emptyReady => "dispatch on an empty ready structure"
  | noUnit process => "process " ++ toString process ++ " has no unit"
  | stillRunning => "dispatch while a process is running"
  | readyRetired => "ready structure points at a retired PCB"
  | preemptWhileIdle => "preempt with no running process"
  | lateReport reported tick =>
    "report for tick " ++ toString reported ++ " received at tick " ++ toString tick
  | lateBatch batch tick =>
    "batch for tick " ++ toString batch ++ " received at tick " ++ toString tick
  | clockJumped tick next => "clock jumped from " ++ toString tick ++ " to " ++ toString next
  | pauseAnswered unit remaining =>
    unitText unit ++ " answered pause with Resumed \x7b remaining: " ++ toString remaining ++
      " \x7d"
  | resumeAnswered unit remaining =>
    unitText unit ++ " answered resume with Paused \x7b remaining: " ++ toString remaining ++
      " \x7d"

/-- A refusal of the memory allocator.  Blocks are quoted by their first and last address. -/
inductive MemoryError where
  | badCapacity (capacity : Nat)
  | notAllocated (start last : Nat)
  | split (start last : Nat)
  deriving Repr, DecidableEq

/-- The wording of a memory error. -/
def MemoryError.message : MemoryError → String
  | badCapacity capacity =>
    "arena capacity must be a non-zero power of two (got " ++ toString capacity ++ ")"
  | notAllocated start last =>
    "block " ++ toString start ++ "..=" ++ toString last ++ " is not allocated"
  | split start last => "block " ++ toString start ++ "..=" ++ toString last ++ " has been split"

/-- A refusal of the execution units. -/
inductive UnitError where
  | unknown (unit : UnitId)
  deriving Repr, DecidableEq

/-- The wording of a unit error. -/
def UnitError.message : UnitError → String
  | unknown unit => "unknown " ++ unitText unit

/-- A broken channel between the parties of a run. -/
inductive ChannelError where
  | receiverGone
  | clockStopped
  | arrivalsClosed
  deriving Repr, DecidableEq

/-- The wording of a channel error. -/
def ChannelError.message : ChannelError → String
  | receiverGone => "receiver disconnected"
  | clockStopped => "clock stopped"
  | arrivalsClosed => "arrival batch channel closed"

/-- A refusal of the file system, or contents that are not text. -/
inductive FileError where
  | notFound
  | alreadyExists
  | notDirectory
  | isDirectory
  | nameTooLong
  | notText
  | other (text : String)
  deriving Repr, DecidableEq

/-- The wording of a file error. -/
def FileError.message : FileError → String
  | notFound => "No such file or directory (os error 2)"
  | alreadyExists => "File exists (os error 17)"
  | notDirectory => "Not a directory (os error 20)"
  | isDirectory => "Is a directory (os error 21)"
  | nameTooLong => "File name too long (os error 36)"
  | notText => "stream did not contain valid UTF-8"
  | other text => text

/-- Why an operation is refused. -/
inductive Failure where
  | config (cause : ConfigError)
  | workload (cause : WorkloadError)
  | full (capacity : Nat)
  | protocol (cause : Violation)
  | memory (cause : MemoryError)
  | channel (cause : ChannelError)
  | unit (cause : UnitError)
  | file (cause : FileError)
  | json
  deriving Repr, DecidableEq

/-- The text of a failure. -/
def Failure.message : Failure → String
  | config cause => "config error: " ++ cause.message
  | workload cause => "workload error: " ++ cause.message
  | full capacity => "ready structure full (capacity " ++ toString capacity ++ ")"
  | protocol cause => "protocol violation: " ++ cause.message
  | memory cause => "memory error: " ++ cause.message
  | channel cause => "channel error: " ++ cause.message
  | unit cause => "executor error: " ++ cause.message
  | file cause => "I/O error: " ++ cause.message
  | json => "JSON error"

end Uniprocessor
