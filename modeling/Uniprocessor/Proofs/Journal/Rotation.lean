import Uniprocessor.Proofs.Journal.Course
import Uniprocessor.Proofs.Journal.Timetable

/-!
# Who has come to wait

Processes come to wait when they are admitted, and when they are stopped.  In a tick the admissions come
first, and then at most one process is stopped.  Whoever gets the processor has waited.

A log that grows by events of the current tick says of the ticks before what it has said.

* `EventLog.enqueued`: who has come to wait, in the order in which they came;
* `EventLog.dispatches`, `EventLog.dispatched`: who got the processor;
* `enqueued_extend`, `dispatched_extend`: the ticks before are over;
* `EventLog.InOrder`: **whoever has come first gets the processor first.**
-/

namespace Uniprocessor
namespace EventLog

/-- Who has been stopped at a tick. -/
def stoppedAt (log : EventLog) (tick : Tick) : List Nat :=
  (log.process.filter fun e => e.kind = .stopped ∧ e.tick = tick).map ProcessEvent.process

/-- Who has come to wait before a tick, in this order: at every tick those who were admitted, and then
those who were stopped. -/
def enqueued (log : EventLog) (n : Tick) : List Nat :=
  (List.range n).flatMap fun tick => log.admittedAt tick ++ log.stoppedAt tick

/-- Who got the processor, in this order. -/
def dispatches (log : EventLog) : List Nat :=
  (log.process.filter fun e => e.kind.dispatches).map ProcessEvent.process

/-- Who got the processor before a tick, in this order. -/
def dispatched (log : EventLog) (n : Tick) : List Nat :=
  (log.process.filter fun e => e.kind.dispatches ∧ e.tick < n).map ProcessEvent.process

variable {log : EventLog} {es : List ProcessEvent} {ms : List MemoryEvent} {n n' tick : Tick}

theorem enqueued_succ (log : EventLog) (n : Tick) :
    log.enqueued (n + 1) = log.enqueued n ++ (log.admittedAt n ++ log.stoppedAt n) := by
  rw [enqueued, List.range_succ, List.flatMap_append, List.flatMap_singleton, ← enqueued]

/-- Whoever has come to wait has done so in the order in which they will have come. -/
theorem enqueued_prefix (log : EventLog) (h : n ≤ n') : log.enqueued n <+: log.enqueued n' := by
  induction n', h using Nat.le_induction with
  | base => exact List.prefix_rfl
  | succ n' hle ih =>
    rw [enqueued_succ]
    exact ih.trans (List.prefix_append _ _)

/-- What has happened before a tick is all that has happened, at that tick. -/
theorem dispatched_eq (h : ∀ e ∈ log.process, e.tick < n) : log.dispatched n = log.dispatches := by
  rw [dispatched, dispatches]
  refine congrArg _ (List.filter_congr fun e he => ?_)
  simp [h e he]

theorem dispatches_extend (log : EventLog) (es : List ProcessEvent) (ms : List MemoryEvent) :
    (log.extend es ms).dispatches = log.dispatches ++
      (es.filter fun e => e.kind.dispatches).map ProcessEvent.process := by
  rw [dispatches, extend, List.filter_append, List.map_append, dispatches]

theorem stoppedAt_extend (log : EventLog) (es : List ProcessEvent) (ms : List MemoryEvent)
    (tick : Tick) : (log.extend es ms).stoppedAt tick = log.stoppedAt tick ++
      (es.filter fun e => e.kind = .stopped ∧ e.tick = tick).map ProcessEvent.process := by
  rw [stoppedAt, extend, List.filter_append, List.map_append, stoppedAt]

/-- Nobody has been stopped at a tick that is to come. -/
theorem stoppedAt_of_before (h : ∀ e ∈ log.process, e.tick < n) (hle : n ≤ tick) :
    log.stoppedAt tick = [] := by
  rw [stoppedAt, List.filter_eq_nil_iff.mpr fun e he => ?_, List.map_nil]
  have hlt := Nat.lt_of_lt_of_le (h e he) hle
  simp [Nat.ne_of_lt hlt]

/-! ## Ticks that are over -/

theorem stoppedAt_extend_of_lt (hes : ∀ e ∈ es, n ≤ e.tick) (hlt : tick < n) :
    (log.extend es ms).stoppedAt tick = log.stoppedAt tick := by
  rw [stoppedAt_extend, List.filter_eq_nil_iff.mpr fun e he => ?_, List.map_nil, List.append_nil]
  have hlater := Nat.lt_of_lt_of_le hlt (hes e he)
  simp [Nat.ne_of_gt hlater]

theorem admittedAt_extend_of_lt (hms : ∀ e ∈ ms, n ≤ e.tick) (hlt : tick < n) :
    (log.extend es ms).admittedAt tick = log.admittedAt tick := by
  have hnew : ((ms.filter fun e => e.kind = .allocated).map fun e => (e.tick, e.process)).filter
      (fun x => x.1 = tick) = [] := by
    refine List.filter_eq_nil_iff.mpr (List.forall_mem_map.mpr fun e he => ?_)
    have hlater := Nat.lt_of_lt_of_le hlt (hms e (List.mem_of_mem_filter he))
    simp [Nat.ne_of_gt hlater]
  rw [admittedAt, entrances_extend, List.filter_append, hnew, List.append_nil, admittedAt]

/-- **Who has come to wait before a tick is settled by then.** -/
theorem enqueued_extend (hes : ∀ e ∈ es, n ≤ e.tick) (hms : ∀ e ∈ ms, n ≤ e.tick) (h : n' ≤ n) :
    (log.extend es ms).enqueued n' = log.enqueued n' := by
  refine List.flatMap_congr fun tick htick => ?_
  have hlt := Nat.lt_of_lt_of_le (List.mem_range.mp htick) h
  rw [admittedAt_extend_of_lt hms hlt, stoppedAt_extend_of_lt hes hlt]

/-- **Who got the processor before a tick is settled by then.** -/
theorem dispatched_extend (hes : ∀ e ∈ es, n ≤ e.tick) (h : n' ≤ n) :
    (log.extend es ms).dispatched n' = log.dispatched n' := by
  have hnew : es.filter (fun e => e.kind.dispatches ∧ e.tick < n') = [] := by
    refine List.filter_eq_nil_iff.mpr fun e he => ?_
    have hlater := Nat.le_trans h (hes e he)
    simp [Nat.not_lt.mpr hlater]
  rw [dispatched, extend, List.filter_append, hnew, List.append_nil, dispatched]

/-- What happens to processes admits nobody. -/
theorem admittedAt_extend_process (log : EventLog) (es : List ProcessEvent) (tick : Tick) :
    (log.extend es []).admittedAt tick = log.admittedAt tick := by
  rw [admittedAt, entrances_extend_of_ne log es fun _ he => absurd he List.not_mem_nil, admittedAt]

/-- Until a tick, whoever got the processor had come to wait before it was given away at that tick, and
no other one had come before who did not get it. -/
def InOrder (log : EventLog) (n : Tick) : Prop :=
  ∀ tick < n, log.dispatched (tick + 1) <+: log.enqueued tick ++ log.admittedAt tick

theorem InOrder.extend (h : log.InOrder n) (hes : ∀ e ∈ es, n ≤ e.tick) (hms : ∀ e ∈ ms, n ≤ e.tick) :
    (log.extend es ms).InOrder n := by
  intro tick hlt
  rw [dispatched_extend hes hlt, enqueued_extend hes hms (Nat.le_of_lt hlt),
    admittedAt_extend_of_lt hms hlt]
  exact h tick hlt

/-- One more tick, if by then those have got the processor who had come to wait first. -/
theorem InOrder.succ (h : log.InOrder n) (hbefore : ∀ e ∈ log.process, e.tick < n + 1)
    (hnow : log.dispatches <+: log.enqueued n ++ log.admittedAt n) : log.InOrder (n + 1) := by
  intro tick hlt
  rcases Nat.lt_succ_iff_lt_or_eq.mp hlt with hlt | rfl
  · exact h tick hlt
  · rw [dispatched_eq hbefore]
    exact hnow

end EventLog
end Uniprocessor
