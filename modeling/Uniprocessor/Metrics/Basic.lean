import Uniprocessor.Basic
import Uniprocessor.Decimal.Fixed
import Uniprocessor.Metrics.Percentile

/-!
# Metrics

What is counted while a run goes on, and the figures that come of it at the end.

* `Metrics` --- ticks with and without a running process, rejected arrivals, and the figures of
  every finished process in the order they finished;
* `Summary` --- averages, deviation, utilization and percentiles;
* `Metrics.summary` --- the one from the other.

The averages of weighted turnaround are sums of floats, and so depend on the order of the summands
and on what the sum starts from: it starts from negative zero, which is what an empty run shows.
Waiting and turnaround times are summed in a machine word as the processes finish, and divided once.
-/

namespace Uniprocessor

/-- The figures of a finished process. -/
structure Finish where
  turnaround : Nat
  weighted : Float
  waiting : Nat
  deriving Repr, DecidableEq

/-- What is counted during a run. -/
structure Metrics where
  busyTicks : Nat
  idleTicks : Nat
  rejected : Nat
  /-- The finished processes, in the order they finished. -/
  finishes : Array Finish
  deriving Repr, DecidableEq

/-- The figures of a run. -/
structure Summary where
  totalTicks : Nat
  busyTicks : Nat
  idleTicks : Nat
  finished : Nat
  rejected : Nat
  /-- Percentage of ticks with a running process. -/
  cpuUtilization : Float
  meanWeighted : Float
  meanWaiting : Float
  meanTurnaround : Float
  deviationWeighted : Float
  median : Option Nat
  percentile99 : Option Nat
  deriving Repr, DecidableEq

namespace Metrics

/-- Nothing counted yet. -/
def empty : Metrics :=
  ⟨0, 0, 0, #[]⟩

/-- Counts a tick. -/
def countTick (m : Metrics) (busy : Bool) : Metrics :=
  if busy then { m with busyTicks := m.busyTicks + 1 } else { m with idleTicks := m.idleTicks + 1 }

/-- Counts a finished process. -/
def countFinish (m : Metrics) (f : Finish) : Metrics :=
  { m with finishes := m.finishes.push f }

/-- Counts a rejected arrival. -/
def countRejection (m : Metrics) : Metrics :=
  { m with rejected := m.rejected + 1 }

/-- Number of finished processes. -/
def finished (m : Metrics) : Nat :=
  m.finishes.size

/-- All turnaround times together, however large. -/
def totalTurnaround (m : Metrics) : Nat :=
  (m.finishes.toList.map Finish.turnaround).sum

/-- All waiting times together, however large. -/
def totalWaiting (m : Metrics) : Nat :=
  (m.finishes.toList.map Finish.waiting).sum

/-- What is in a machine word to which numbers have been added one by one: when it is full, it starts
from zero again. -/
def wordSum (xs : List Nat) : Nat :=
  xs.foldl (fun word x => (word + x) % word64) 0

/-- The word that turnaround times are added to as the processes finish. -/
def turnaroundWord (m : Metrics) : Nat :=
  wordSum (m.finishes.toList.map Finish.turnaround)

/-- The word that waiting times are added to as the processes finish. -/
def waitingWord (m : Metrics) : Nat :=
  wordSum (m.finishes.toList.map Finish.waiting)

/-- The weighted turnaround times, in the order the processes finished. -/
def weighted (m : Metrics) : List Float :=
  m.finishes.toList.map Finish.weighted

/-- The sum of floats, from negative zero on and from left to right. -/
def sumFloats (xs : List Float) : Float :=
  xs.foldl (· + ·) (-0.0)

/-- Sum of floats over a count. -/
def meanOver (n : Float) (xs : List Float) : Float :=
  sumFloats xs / n

/-- The square of the distance to a mean. -/
def squaredDistance (mean x : Float) : Float :=
  (x - mean) * (x - mean)

/-- The percentage of busy ticks; none of no ticks. -/
def utilization (m : Metrics) : Float :=
  if m.busyTicks + m.idleTicks = 0 then 0.0
  else nearestFloat m.busyTicks / nearestFloat (m.busyTicks + m.idleTicks) * 100.0

/-- The figures of what has been counted.  Averages over no process are averages over one that
contributes nothing. -/
def summary (m : Metrics) : Summary :=
  let n := nearestFloat (max m.finished 1)
  let mean := meanOver n m.weighted
  let turnarounds := m.finishes.toList.map Finish.turnaround
  { totalTicks := m.busyTicks + m.idleTicks
    busyTicks := m.busyTicks
    idleTicks := m.idleTicks
    finished := m.finished
    rejected := m.rejected
    cpuUtilization := m.utilization
    meanWeighted := mean
    meanWaiting := nearestFloat m.waitingWord / n
    meanTurnaround := nearestFloat m.turnaroundWord / n
    deviationWeighted := (meanOver n (m.weighted.map (squaredDistance mean))).sqrt
    median := quantile? 0.50 turnarounds
    percentile99 := quantile? 0.99 turnarounds }

end Metrics

namespace Summary

/-- Utilization as a fraction. -/
def utilization (s : Summary) : Float :=
  s.cpuUtilization / 100.0

/-- The figures as a text of four lines. -/
def text (s : Summary) : String :=
  "CPU utilization = " ++ twoPlaces s.cpuUtilization ++ "%\n" ++
  "Avg WTA = " ++ twoPlaces s.meanWeighted ++ "\n" ++
  "Avg Waiting = " ++ twoPlaces s.meanWaiting ++ "\n" ++
  "Std WTA = " ++ twoPlaces s.deviationWeighted ++ "\n"

end Summary

end Uniprocessor
