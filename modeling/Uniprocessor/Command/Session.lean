import Uniprocessor.Command.Arguments
import Uniprocessor.Report.Export
import Uniprocessor.Simulation
import Uniprocessor.Threads.Run
import Uniprocessor.Workload.Random
import Uniprocessor.Workload.Text

/-!
# Sessions

What the program does for a command line, on any disk: it reads a workload, runs it and writes the
report, or it makes a workload.  The outcome is an exit code and the texts for the two output
streams: diagnostics and the reason of a failure on the error stream, the figures of a run on the
other.

Diagnostics are written up to the level that was asked for, in the order things happen.
-/

namespace Uniprocessor

/-- What the program leaves to its caller. -/
structure Outcome where
  code : Nat
  stdout : String
  stderr : String
  deriving Repr, DecidableEq

namespace Outcome

/-- The text for the version. -/
def version : Outcome :=
  ⟨0, "schedsim 0.1.0\n", ""⟩

/-- The outcome of a command line that is no command, or that asks for help. -/
def ofStop : Stop → Outcome
  | .invalid => ⟨2, "", ""⟩
  | .help => ⟨0, "", ""⟩
  | .version => version

/-- The outcome of a failure after some diagnostics. -/
def failed (diagnostics : String) (e : Failure) : Outcome :=
  ⟨1, "", diagnostics ++ "schedsim: " ++ e.message ++ "\n"⟩

end Outcome

namespace Session

variable {m : Type → Type} [Monad m]

/-- The lines of the diagnostics that are to be shown. -/
def shown (level : Level) (ds : List Diagnostic) : String :=
  String.join ((ds.filter fun d => d.level.rank ≤ level.rank).map Diagnostic.line)

/-- Reads a workload from a file. -/
def readWorkload (disk : Disk m) (path : String) : m (Except Failure Workload) := do
  match ← disk.read path with
  | .error e => return .error (.file e)
  | .ok bytes =>
    match String.fromUTF8? bytes with
    | none => return .error (.file .notText)
    | some text => return (Workload.parse text).mapError .workload

/-- The configuration that settings describe. -/
def configOf (s : RunSettings) : Config :=
  { policy := s.policy
    arena := s.arena
    readyCapacity := s.capacity
    tickInterval := .ofMilliseconds s.tickLength }

/-- The diagnostics of a journal. -/
def remarks (j : Journal) : List Diagnostic :=
  j.entries.map Diagnostic.ofEntry

/-- How many processes are run, and how. -/
def announcement (verb : String) (c : Config) (w : Workload) : Diagnostic :=
  ⟨.info, verb ++ " " ++ toString w.size ++ " processes under " ++ c.policy.text⟩

/-- A run in lockstep, and its diagnostics. -/
def runLockstep (c : Config) (w : Workload) : List Diagnostic × Except Failure Report :=
  match Simulation.finish c w with
  | .error e => ([announcement "simulating" c w], .error e)
  | .ok (.finished m tick) =>
    (announcement "simulating" c w :: remarks m.journal ++
      [⟨.info, "simulation finished at tick " ++ toString tick⟩], .ok m.report)
  | .ok (.failed e m) => (announcement "simulating" c w :: remarks m.journal, .error e)
  | .ok (.running s) =>
    (announcement "simulating" c w :: remarks s.machine.journal, .ok s.machine.report)

/-- A run on threads, and its diagnostics. -/
def runThreads (c : Config) (w : Workload) : List Diagnostic × Except Failure Report :=
  match Threads.finish c w with
  | .error e => ([announcement "running" c w], .error e)
  | .ok s =>
    let begun := announcement "running" c w :: remarks s.scheduler.journal
    match s.result? with
    | some (.error e) => (begun, .error e)
    | _ =>
      let report := s.scheduler.report
      (begun ++ [⟨.info, "run finished after " ++ toString report.summary.totalTicks ++ " ticks"⟩],
        .ok report)

/-- Writes a report where the settings want it. -/
def writeReport (disk : Disk m) (s : RunSettings) (r : Report) : m (Except FileError Unit) := do
  match ← r.exportTexts disk s.out with
  | .error e => return .error e
  | .ok () =>
    match s.json with
    | some path => r.exportJson disk path
    | none => return .ok ()

/-- Runs a workload with a checked configuration. -/
def runWorkload (disk : Disk m) (verbosity : Nat) (s : RunSettings) (w : Workload) :
    m Outcome := do
  let c := configOf s
  let (diagnostics, result) := if s.deterministic then runLockstep c w else runThreads c w
  let errors := shown (.ofVerbosity verbosity) diagnostics
  match result with
  | .error e => return .failed errors e
  | .ok report =>
    match ← writeReport disk s report with
    | .error e => return .failed errors (.file e)
    | .ok () => return ⟨0, report.banner (0 < verbosity), errors⟩

/-- Runs a workload from a file. -/
def run (disk : Disk m) (verbosity : Nat) (s : RunSettings) : m Outcome := do
  match ← readWorkload disk s.workload with
  | .error e => return .failed "" e
  | .ok w =>
    match (configOf s).check with
    | .error e => return .failed "" e
    | .ok () => runWorkload disk verbosity s w

/-- Makes a workload and writes it to a file; `seed` is for the case that none is given. -/
def generate (disk : Disk m) (verbosity seed : Nat) (s : GenerateSettings) : m Outcome := do
  let seed := s.seed.getD seed
  match Workload.generate s.count seed s.arena with
  | .error e => return .failed "" (.workload e)
  | .ok w =>
    match ← disk.write s.output w.toText with
    | .error e => return .failed "" (.file e)
    | .ok () =>
      let written : Diagnostic :=
        ⟨.info, "wrote " ++ toString w.size ++ " processes to " ++ s.output ++
          " (seed " ++ toString seed ++ ")"⟩
      return ⟨0, "", shown (.ofVerbosity verbosity) [written]⟩

/-- Does what a command line asks for. -/
def main (disk : Disk m) (seed : Nat) (args : List String) : m Outcome :=
  match Invocation.read args with
  | .error stop => return .ofStop stop
  | .ok ⟨.run s, verbosity⟩ => run disk verbosity s
  | .ok ⟨.generate s, verbosity⟩ => generate disk verbosity seed s

end Session

end Uniprocessor
