import Uniprocessor.Json.Printer
import Uniprocessor.Json.Reader
import Uniprocessor.Policy
import Uniprocessor.Journal.Log
import Uniprocessor.Metrics.Basic

/-!
# Reports

Everything a run has produced: the policy it ran under, its figures and its events.  A report can
be saved as JSON and read back, and the same goes for the event log alone.

* `Report.save`, `Report.load?` --- a report as a text and back;
* `EventLog.save`, `EventLog.load?` --- a log as a text and back;
* `Report.banner` --- what is shown of a report at the end of a run.
-/

namespace Uniprocessor

/-- What a run has produced. -/
structure Report where
  policy : Policy
  summary : Summary
  events : EventLog
  deriving Repr, DecidableEq

namespace Summary

/-- The fields of a saved summary that are always there. -/
def fixedFields : List String :=
  ["total_ticks", "busy_ticks", "idle_ticks", "finished", "rejected", "cpu_utilization",
    "mean_wta", "mean_waiting", "mean_turnaround", "std_wta"]

/-- The fields of a saved summary that a run without finished processes leaves out. -/
def percentileFields : List String :=
  ["p50_turnaround", "p99_turnaround"]

/-- The figures in a saved report. -/
def toJson (s : Summary) : Json :=
  .record <|
    fixedFields.zip
        [.ofNat s.totalTicks, .ofNat s.busyTicks, .ofNat s.idleTicks, .ofNat s.finished,
          .ofNat s.rejected, .ofFloat s.cpuUtilization, .ofFloat s.meanWeighted,
          .ofFloat s.meanWaiting, .ofFloat s.meanTurnaround, .ofFloat s.deviationWeighted] ++
      (percentileFields.zip [s.median, s.percentile99]).filterMap fun (name, value) =>
        value.map fun v => (name, .ofNat v)

/-- Reads the figures of a saved report. -/
def ofJson? (v : Json) : Option Summary :=
  match v.fields? (fixedFields ++ percentileFields) 2 with
  | some [totalTicks, busyTicks, idleTicks, finished, rejected, cpuUtilization, meanWeighted,
      meanWaiting, meanTurnaround, deviationWeighted, median, percentile99] => do
    return {
      totalTicks := ← Json.required (Json.nat? word64) totalTicks
      busyTicks := ← Json.required (Json.nat? word64) busyTicks
      idleTicks := ← Json.required (Json.nat? word64) idleTicks
      finished := ← Json.required (Json.nat? word64) finished
      rejected := ← Json.required (Json.nat? word64) rejected
      cpuUtilization := ← Json.required Json.float? cpuUtilization
      meanWeighted := ← Json.required Json.float? meanWeighted
      meanWaiting := ← Json.required Json.float? meanWaiting
      meanTurnaround := ← Json.required Json.float? meanTurnaround
      deviationWeighted := ← Json.required Json.float? deviationWeighted
      median := ← Json.optional (Json.nat? word64) median
      percentile99 := ← Json.optional (Json.nat? word64) percentile99 }
  | _ => none

end Summary

namespace Report

/-- A saved report. -/
def toJson (r : Report) : Json :=
  .record [("policy", r.policy.toJson), ("summary", r.summary.toJson), ("events", r.events.toJson)]

/-- Reads a saved report. -/
def ofJson? (v : Json) : Option Report :=
  match v.fields? ["policy", "summary", "events"] 0 with
  | some [policy, summary, events] => do
    return {
      policy := ← Json.required Policy.ofJson? policy
      summary := ← Json.required Summary.ofJson? summary
      events := ← Json.required EventLog.ofJson? events }
  | _ => none

/-- The text of a saved report. -/
def save (r : Report) : String :=
  r.toJson.pretty

/-- Reads the text of a saved report. -/
def load? (text : String) : Option Report :=
  (Json.parse? text).bind ofJson?

/-- The lines about percentiles; there are none unless both are known. -/
def percentileText (s : Summary) : String :=
  match s.median, s.percentile99 with
  | some p50, some p99 =>
    "Turnaround p50 = " ++ toString p50 ++ "  p99 = " ++ toString p99 ++ "\n"
  | _, _ => ""

/-- Counts and averages beyond the four usual figures. -/
def details (s : Summary) : String :=
  "Ticks: " ++ toString s.totalTicks ++ " (" ++ toString s.busyTicks ++ " busy, " ++
    toString s.idleTicks ++ " idle)\n" ++
  "Finished: " ++ toString s.finished ++ "  Rejected: " ++ toString s.rejected ++ "\n" ++
  "Avg turnaround = " ++ twoPlaces s.meanTurnaround ++ "\n" ++
  percentileText s

/-- What is shown of a report at the end of a run. -/
def banner (r : Report) (verbose : Bool) : String :=
  "=== " ++ r.policy.text ++ " ===\n" ++ r.summary.text ++
    if verbose then details r.summary else ""

end Report

namespace EventLog

/-- The text of a saved log. -/
def save (log : EventLog) : String :=
  log.toJson.pretty

/-- Reads the text of a saved log. -/
def load? (text : String) : Option EventLog :=
  (Json.parse? text).bind ofJson?

end EventLog

end Uniprocessor
