import Uniprocessor.Proofs.Journal.Figures

/-!
# Logs without their rejections

A rejection is told by one memory event and by nothing else.  Without these events a log has the
same process events, and so the same finishes, dispatches and figures.  What is left of the
processes that were rejected is the time at which the last of them was: for a log tells that its run
has ended when the last process had finished or was rejected.

* `EventLog.granted`: a log without its rejections, and `EventLog.lastFinish`: the end of what it
  tells;
* `EventLog.hasRejected`, `Gone.hasRejected_eq_false`: who was rejected, and that nobody was who was
  given memory;
* `EventLog.metrics_granted`, `Metrics.Recounted.spared`: **the figures of a log without its
  rejections.**
-/

namespace Uniprocessor
namespace EventLog

variable {log : EventLog} {es : List ProcessEvent} {ms : List MemoryEvent} {e : MemoryEvent}
  {p : Process}

/-- The log without its rejections. -/
def granted (log : EventLog) : EventLog :=
  ⟨log.process, log.memory.filter fun e => !e.rejects⟩

/-- Whether a log tells of the rejection of a process. -/
def hasRejected (log : EventLog) (p : Process) : Bool :=
  log.memory.any fun e => e.rejects && e.process == p.id

/-- When the last process has finished. -/
def lastFinish (log : EventLog) : Tick :=
  ((log.process.filter ProcessEvent.finishes).map ProcessEvent.tick).max?.getD 0

/-! ## Logs that grow -/

theorem granted_extend (log : EventLog) (es : List ProcessEvent) (ms : List MemoryEvent) :
    (log.extend es ms).granted = log.granted.extend es (ms.filter fun e => !e.rejects) :=
  congrArg (EventLog.mk _) (List.filter_append log.memory ms)

/-- Where nobody is rejected, both grow by the same. -/
theorem granted_extend_of_none (h : ∀ e ∈ ms, e.rejects = false) :
    (log.extend es ms).granted = log.granted.extend es ms := by
  have hall : ms.filter (fun e => !e.rejects) = ms :=
    List.filter_eq_self.mpr fun e he => by rw [h e he]; rfl
  rw [granted_extend, hall]

/-- A rejection does not show. -/
theorem granted_extend_rejected (h : e.rejects = true) : (log.extend [] [e]).granted = log.granted := by
  rw [granted_extend, List.filter_cons_of_neg (by simp [h]), List.filter_nil, extend_nil]

theorem not_rejects_of_granted (h : e ∈ log.granted.memory) : e.rejects = false :=
  Bool.not_eq_true' _ ▸ (List.mem_filter.mp h).2

/-! ## Who was rejected -/

theorem hasRejected_of_mem (h : e ∈ log.memory) (hid : e.process = p.id) (hkind : e.kind = .rejected) :
    log.hasRejected p = true := by
  refine List.any_eq_true.mpr ⟨e, h, ?_⟩
  rw [hid, MemoryEvent.rejects, hkind]
  simp

/-- Of those who are gone, nobody was rejected who was given memory. -/
theorem Gone.hasRejected_eq_false (hgone : log.Gone p) (h : e ∈ log.memory) (hid : e.process = p.id)
    (hkind : e.kind = .allocated) : log.hasRejected p = false := by
  have hrequest : ∀ d ∈ log.memory, d.process = p.id → d.kind ∈ log.requestsFor p.id := fun d hd hid =>
    List.mem_map_of_mem (List.mem_filter.mpr ⟨hd, beq_iff_eq.mpr hid⟩)
  have hallocated := hrequest e h hid
  rw [hkind] at hallocated
  refine Bool.eq_false_iff.mpr fun hrejected => ?_
  obtain ⟨d, hd, hboth⟩ := List.any_eq_true.mp hrejected
  obtain ⟨hrejects, hid'⟩ := Bool.and_eq_true_iff.mp hboth
  have hrefused := hrequest d hd (beq_iff_eq.mp hid')
  rw [of_decide_eq_true hrejects] at hrefused
  cases hgone with
  | finished hrequests hevents => simp [hrequests] at hrefused
  | rejected hrequests hevents => simp [hrequests] at hallocated

/-! ## Figures -/

/-- Without its rejections, a log ends with its last finish. -/
theorem lastEnding_granted (log : EventLog) : log.granted.lastEnding = log.lastFinish := by
  have hnone : log.granted.memory.filter MemoryEvent.rejects = [] :=
    List.filter_eq_nil_iff.mpr fun e he => by simp [not_rejects_of_granted he]
  rw [lastEnding, endings, hnone, List.map_nil, List.append_nil]
  rfl

theorem lastFinish_le_lastEnding (log : EventLog) : log.lastFinish ≤ log.lastEnding := by
  rw [lastFinish, lastEnding, endings]
  cases hlast : ((log.process.filter ProcessEvent.finishes).map ProcessEvent.tick).max? with
  | none => exact Nat.zero_le _
  | some t =>
    have hmem := List.mem_append_left ((log.memory.filter MemoryEvent.rejects).map MemoryEvent.tick)
      (List.max?_mem hlast)
    exact List.le_max?_getD_of_mem hmem

/-- **Without its rejections a log has the same figures**, but for the count of them and the ticks
after the last finish. -/
theorem metrics_granted (log : EventLog) :
    log.granted.metrics = { log.metrics with
      idleTicks := log.lastFinish - log.busyTicks
      rejected := 0 } := by
  have hnone : log.granted.memory.countP MemoryEvent.rejects = 0 :=
    List.countP_eq_zero.mpr fun e he => by simp [not_rejects_of_granted he]
  rw [metrics, lastEnding_granted, hnone]
  rfl

end EventLog

namespace Metrics

/-- The figures `k'` of a run that nobody was rejected in are the figures `k` of another one with
the log `log`, but for the rejections and the ticks after the last finish. -/
structure Spared (k k' : Metrics) (log : EventLog) : Prop where
  busyTicks : k'.busyTicks = k.busyTicks
  finishes : k'.finishes = k.finishes
  finished : k'.finished = k.finished
  totalWaiting : k'.totalWaiting = k.totalWaiting
  totalTurnaround : k'.totalTurnaround = k.totalTurnaround
  weighted : k'.weighted = k.weighted
  rejected : k'.rejected = 0
  /-- The one run ends with the last finish. -/
  totalTicks : k'.busyTicks + k'.idleTicks = log.lastFinish
  /-- The other one goes on after it, without anybody, up to the last rejection. -/
  idleTicks : k.idleTicks = k'.idleTicks + (log.lastEnding - log.lastFinish)

variable {k k' : Metrics} {log : EventLog} {ps ps' : List Process}

/-- Figures that can be counted once more from a log, and from the log without its rejections. -/
theorem Recounted.spared (h : k.Recounted log ps) (h' : k'.Recounted log.granted ps') :
    k.Spared k' log := by
  have hsame := h'.eq_metrics
  rw [EventLog.metrics_granted, ← h.eq_metrics] at hsame
  have hfinishes : k'.finishes = k.finishes := by rw [hsame]
  have hbusy : k'.busyTicks = k.busyTicks := by rw [hsame]
  have hrejected : k'.rejected = 0 := by rw [hsame]
  have htotal := h'.totalTicks
  rw [EventLog.lastEnding_granted] at htotal
  refine ⟨hbusy, hfinishes, congrArg Array.size hfinishes, ?_, ?_, ?_, hrejected, htotal, ?_⟩
  · rw [Metrics.totalWaiting, Metrics.totalWaiting, hfinishes]
  · rw [Metrics.totalTurnaround, Metrics.totalTurnaround, hfinishes]
  · rw [Metrics.weighted, Metrics.weighted, hfinishes]
  · have hall := h.totalTicks
    have hle := log.lastFinish_le_lastEnding
    dsimp only [Tick] at *
    omega

/-- The summary is the same, but for these figures and the utilization. -/
theorem Spared.summary (h : k.Spared k' log) :
    k'.summary = { k.summary with
      totalTicks := log.lastFinish
      idleTicks := k'.idleTicks
      rejected := 0
      cpuUtilization := k'.utilization } := by
  rw [← h.totalTicks, ← h.rejected]
  simp only [Metrics.summary, Metrics.waitingWord, Metrics.turnaroundWord, h.finished, h.weighted,
    h.finishes, h.busyTicks]

end Metrics
end Uniprocessor
