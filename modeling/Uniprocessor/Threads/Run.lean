import Uniprocessor.Report.Run
import Uniprocessor.Simulation
import Uniprocessor.Threads.System

/-!
# A fair run on threads

Which party makes the next step is up to nobody in particular.  A run is carried out here in
rounds, in each of which every party makes a step if it need not wait: the scheduler, the clock,
the generator, and the units, each from both of its sources.

A tick takes a bounded number of rounds beyond the messages about arrivals, and the run is over by
the horizon of its workload, so `Threads.rounds` is enough of them.
-/

namespace Uniprocessor

namespace Threads

/-- The parties of a run, in the order of a round. -/
def parties (s : System) : List Party :=
  [.scheduler, .clock, .generator] ++
    s.crew.threads.flatMap fun t => [.unit t.unit .commands, .unit t.unit .ticks]

/-- A step of a party, if it need not wait. -/
def attempt (s : System) (p : Party) : System :=
  (s.step? p).getD s

/-- A round. -/
def round (s : System) : System :=
  (parties s).foldl attempt s

/-- At most `n` rounds, until the scheduler has returned. -/
def runFor : Nat → System → System
  | 0, s => s
  | n + 1, s => if s.result?.isSome then s else runFor n (round s)

/-- Enough rounds for a run of a workload. -/
def rounds (w : Workload) : Nat :=
  32 * (Simulation.horizon w + 2) + 4 * w.size

/-- The parties at the end of a run of a workload. -/
def finish (c : Config) (w : Workload) : Except Failure System :=
  (System.start c w).map (runFor (rounds w))

/-- The report of a run of a workload. -/
def run (c : Config) (w : Workload) : Except Failure Report :=
  match finish c w with
  | .error e => .error e
  | .ok s =>
    match s.result? with
    | some (.error e) => .error e
    | _ => .ok s.scheduler.report

end Threads

end Uniprocessor
