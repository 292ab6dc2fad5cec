import Uniprocessor.Metrics.Basic
import Uniprocessor.Proofs.Journal.Tenures

/-!
# The figures of a log

What a run counts can be counted once more from its events: who has finished and with which figures,
how many were rejected, how long the processor was held, and when the last process was done with.

* `ProcessEvent.Rated`: an event with the figures that follow from the rest of it;
* `EventLog.metrics`: the figures of a log;
* `EventLog.figures_of_map_finish?`: the figures of the finishes, one kind at a time;
* `Metrics.Recounted`, `Summary.Recounted`: what has been counted, and its summary, as a log has them;
* `Metrics.Recounted.summary`: **the summary of what a log has is what the log says.**
-/

namespace Uniprocessor

/-- The figures that an event tells of a finished process. -/
def ProcessEvent.finish? (e : ProcessEvent) : Option Finish :=
  if e.kind = .finished then e.completion.map fun c => ⟨c.turnaround, c.weighted, e.waiting⟩ else none

/-- The turnaround time that an event tells of. -/
def ProcessEvent.turnaround? (e : ProcessEvent) : Option Nat :=
  e.completion.map Completion.turnaround

/-- The weighted turnaround time that an event tells of. -/
def ProcessEvent.weighted? (e : ProcessEvent) : Option Float :=
  e.completion.map Completion.weighted

/-- An event tells of a finish. -/
def ProcessEvent.finishes (e : ProcessEvent) : Bool :=
  e.kind = .finished

/-- The figures of a process that finishes with an event: the time since its arrival, and this time as
a multiple of its run time. -/
def ProcessEvent.figures (e : ProcessEvent) : Completion :=
  ⟨e.tick - e.arrival,
    if e.total = 0 then 0.0 else nearestFloat (e.tick - e.arrival) / nearestFloat e.total⟩

/-- An event tells of figures exactly if it tells of a finish, and then they follow from the rest of
it. -/
def ProcessEvent.Rated (e : ProcessEvent) : Prop :=
  e.completion = if e.finishes then some e.figures else none

theorem ProcessEvent.Rated.isSome_finish? {e : ProcessEvent} (h : e.Rated) (hfinish : e.finishes = true) :
    e.finish?.isSome = true := by
  rw [Rated, if_pos hfinish] at h
  rw [finish?, if_pos (of_decide_eq_true hfinish), h]
  rfl

/-- An event tells of a rejection. -/
def MemoryEvent.rejects (e : MemoryEvent) : Bool :=
  e.kind = .rejected

namespace EventLog

/-- The figures of the finished processes, in the order they finished. -/
def finishes (log : EventLog) : List Finish :=
  log.process.filterMap ProcessEvent.finish?

/-- The waiting times that the finishes tell of. -/
def waitings (log : EventLog) : List Nat :=
  (log.process.filter ProcessEvent.finishes).map ProcessEvent.waiting

/-- The turnaround times that the finishes tell of. -/
def turnarounds (log : EventLog) : List Nat :=
  (log.process.filter ProcessEvent.finishes).filterMap ProcessEvent.turnaround?

/-- The weighted turnaround times that the finishes tell of. -/
def weighted (log : EventLog) : List Float :=
  (log.process.filter ProcessEvent.finishes).filterMap ProcessEvent.weighted?

/-- The time between dispatches and the events that end them. -/
def busyTicks (log : EventLog) : Nat :=
  ((tenures log.process).map fun x => x.2.tick - x.1.tick).sum

/-- The ticks at which processes have finished or were rejected. -/
def endings (log : EventLog) : List Tick :=
  (log.process.filter ProcessEvent.finishes).map ProcessEvent.tick ++
    (log.memory.filter MemoryEvent.rejects).map MemoryEvent.tick

/-- The last of them. -/
def lastEnding (log : EventLog) : Tick :=
  log.endings.max?.getD 0

/-- The figures of a log, where all processes are done with. -/
def metrics (log : EventLog) : Metrics where
  busyTicks := log.busyTicks
  idleTicks := log.lastEnding - log.busyTicks
  rejected := log.memory.countP MemoryEvent.rejects
  finishes := log.finishes.toArray

/-- If every finish is logged with its figures, there are as many figures as finishes. -/
theorem map_finish? {log : EventLog}
    (h : ∀ e ∈ log.process, e.finishes = true → e.finish?.isSome = true) :
    (log.process.filter ProcessEvent.finishes).map ProcessEvent.finish? = log.finishes.map some := by
  rw [finishes]
  generalize log.process = es at h ⊢
  induction es with
  | nil => rfl
  | cons e es ih =>
    obtain ⟨he, hrest⟩ := List.forall_mem_cons.mp h
    cases hfinish : e.finishes with
    | true =>
      obtain ⟨f, hf⟩ := Option.isSome_iff_exists.mp (he hfinish)
      rw [List.filter_cons_of_pos hfinish, List.map_cons, ih hrest, List.filterMap_cons_some hf, hf,
        List.map_cons]
    | false =>
      have hnone : e.finish? = none := if_neg (of_decide_eq_false hfinish)
      rw [List.filter_cons_of_neg (by simp [hfinish]), ih hrest, List.filterMap_cons_none hnone]

/-- The figures of finishes, one kind of figure at a time. -/
theorem figures_of_map_finish? {es : List ProcessEvent} {fs : List Finish}
    (h : es.map ProcessEvent.finish? = fs.map some) :
    fs.map Finish.waiting = es.map ProcessEvent.waiting ∧
      fs.map Finish.turnaround = es.filterMap ProcessEvent.turnaround? ∧
      fs.map Finish.weighted = es.filterMap ProcessEvent.weighted? := by
  induction es generalizing fs with
  | nil =>
    obtain rfl : fs = [] := List.map_eq_nil_iff.mp h.symm
    exact ⟨rfl, rfl, rfl⟩
  | cons e es ih =>
    cases fs with
    | nil => exact absurd h (by simp)
    | cons f fs =>
      obtain ⟨hf, hrest⟩ := List.cons.inj h
      obtain ⟨hwaiting, hturnaround, hweighted⟩ := ih hrest
      unfold ProcessEvent.finish? at hf
      split at hf
      · obtain ⟨c, hc, rfl⟩ := Option.map_eq_some_iff.mp hf
        have hturnaround? : e.turnaround? = some c.turnaround := congrArg (Option.map _) hc
        have hweighted? : e.weighted? = some c.weighted := congrArg (Option.map _) hc
        refine ⟨congrArg (e.waiting :: ·) hwaiting, ?_, ?_⟩
        · rw [List.map_cons, List.filterMap_cons_some hturnaround?, hturnaround]
        · rw [List.map_cons, List.filterMap_cons_some hweighted?, hweighted]
      · exact absurd hf (by simp)

theorem lastEnding_eq {log : EventLog} {t : Tick} (hle : ∀ x ∈ log.endings, x ≤ t)
    (hlast : t ∈ log.endings ∨ t = 0 ∧ log.endings = []) : log.lastEnding = t := by
  rcases hlast with hmem | ⟨rfl, hnil⟩
  · rw [lastEnding, List.max?_eq_some_iff.mpr ⟨hmem, hle⟩]
    rfl
  · rw [lastEnding, hnil]
    rfl

end EventLog

namespace Metrics

/-- Figures that can be counted once more from the log of a run of the processes `ps`. -/
structure Recounted (k : Metrics) (log : EventLog) (ps : List Process) : Prop where
  /-- They are the figures of the log. -/
  eq_metrics : k = log.metrics
  /-- Every event of a finish has its figures, and there are no others. -/
  finishes : (log.process.filter ProcessEvent.finishes).map ProcessEvent.finish? =
    k.finishes.toList.map some
  finished : k.finished = log.process.countP ProcessEvent.finishes
  rejected : k.rejected = log.memory.countP MemoryEvent.rejects
  totalWaiting : k.totalWaiting = log.waitings.sum
  totalTurnaround : k.totalTurnaround = log.turnarounds.sum
  /-- The words that the times were added to are the sums, as far as a word holds them. -/
  waitingWord : k.waitingWord = log.waitings.sum % word64
  turnaroundWord : k.turnaroundWord = log.turnarounds.sum % word64
  weighted : k.weighted = log.weighted
  /-- The processor was busy for the run times of the processes that have finished. -/
  busyTicks : k.busyTicks = ((ps.filter log.hasFinished).map Process.runTime).sum
  /-- It was so from each dispatch to the next event of the same process, and each has one. -/
  spans : ∃ spans : List (ProcessEvent × ProcessEvent),
    spans.map Prod.fst = log.process.filter (fun e => e.kind.dispatches) ∧
    (∀ d e, (d, e) ∈ spans ↔ Tenure log.process d e) ∧
    k.busyTicks = (spans.map fun x => x.2.tick - x.1.tick).sum
  /-- The ticks were counted up to the last finish or rejection. -/
  totalTicks : k.busyTicks + k.idleTicks = log.lastEnding

/-- What a word holds to which numbers have been added. -/
theorem wordSum_eq (xs : List Nat) : wordSum xs = xs.sum % word64 := by
  have hfold : ∀ word < word64,
      xs.foldl (fun word x => (word + x) % word64) word = (word + xs.sum) % word64 := by
    induction xs with
    | nil => exact fun word hword => (Nat.mod_eq_of_lt hword).symm
    | cons x xs ih =>
      intro word _
      rw [List.foldl_cons, ih _ (Nat.mod_lt _ (by decide)), Nat.mod_add_mod, Nat.add_assoc,
        List.sum_cons]
  rw [wordSum, hfold 0 (by decide), Nat.zero_add]

end Metrics

/-- A summary that can be computed once more from the log of a run of the processes `ps`. -/
structure Summary.Recounted (s : Summary) (log : EventLog) (ps : List Process) : Prop where
  finished : s.finished = log.process.countP ProcessEvent.finishes
  rejected : s.rejected = log.memory.countP MemoryEvent.rejects
  busyTicks : s.busyTicks = ((ps.filter log.hasFinished).map Process.runTime).sum
  held : s.busyTicks = log.busyTicks
  totalTicks : s.totalTicks = log.lastEnding
  idleTicks : s.busyTicks + s.idleTicks = s.totalTicks
  cpuUtilization : s.cpuUtilization =
    if log.lastEnding = 0 then 0.0
    else nearestFloat log.busyTicks / nearestFloat log.lastEnding * 100.0
  meanWeighted : s.meanWeighted =
    Metrics.meanOver (nearestFloat (max s.finished 1)) log.weighted
  meanWaiting : s.meanWaiting =
    nearestFloat (log.waitings.sum % word64) / nearestFloat (max s.finished 1)
  meanTurnaround : s.meanTurnaround =
    nearestFloat (log.turnarounds.sum % word64) / nearestFloat (max s.finished 1)
  /-- The root of the mean of the squared distances to the mean. -/
  deviationWeighted : s.deviationWeighted =
    (Metrics.meanOver (nearestFloat (max s.finished 1))
      (log.weighted.map (Metrics.squaredDistance s.meanWeighted))).sqrt
  median : s.median = quantile? 0.50 log.turnarounds
  percentile99 : s.percentile99 = quantile? 0.99 log.turnarounds

/-- **The summary of what a log has is what the log says.** -/
theorem Metrics.Recounted.summary {k : Metrics} {log : EventLog} {ps : List Process}
    (h : k.Recounted log ps) : k.summary.Recounted log ps := by
  obtain ⟨-, hturnarounds, -⟩ := EventLog.figures_of_map_finish? h.finishes
  have hheld : k.busyTicks = log.busyTicks := congrArg Metrics.busyTicks h.eq_metrics
  refine {
    finished := h.finished
    rejected := h.rejected
    busyTicks := h.busyTicks
    held := hheld
    totalTicks := h.totalTicks
    idleTicks := rfl
    cpuUtilization := ?_
    meanWeighted := congrArg (meanOver _) h.weighted
    meanWaiting := congrArg (nearestFloat · / _) h.waitingWord
    meanTurnaround := congrArg (nearestFloat · / _) h.turnaroundWord
    deviationWeighted := ?_
    median := congrArg (quantile? 0.50) hturnarounds
    percentile99 := congrArg (quantile? 0.99) hturnarounds }
  · show k.utilization = _
    rw [utilization, h.totalTicks, hheld]
  · show (meanOver _ (k.weighted.map (squaredDistance k.summary.meanWeighted))).sqrt = _
    rw [h.weighted]
    rfl

end Uniprocessor
