import Mathlib.Data.List.Pairwise
import Uniprocessor.Journal.Basic

/-!
# Logs that grow

Entries are noted one after the other, so a log is only ever extended at its end.

* `EventLog.extend`: a log with some events more;
* `EventLog.requestsFor`: what became of the memory requests of one process;
* `EventLog.Chronological`: its events lie in the order of their ticks;
* `Journal.log_add_process`, `log_add_memory`: an event that is noted extends the log by it;
* `Journal.log_add_preempting`, `log_add_reaped`: a remark does not.
-/

namespace Uniprocessor
namespace EventLog

/-- The log with more process events and memory events. -/
def extend (log : EventLog) (es : List ProcessEvent) (ms : List MemoryEvent) : EventLog :=
  ⟨log.process ++ es, log.memory ++ ms⟩

/-- What became of the memory requests and blocks of one process, in order. -/
def requestsFor (log : EventLog) (process : Nat) : List MemoryEventKind :=
  (log.memory.filter fun e => e.process == process).map MemoryEvent.kind

variable {log : EventLog} {es es' : List ProcessEvent} {ms ms' : List MemoryEvent} {id : Nat}

@[simp] theorem extend_nil (log : EventLog) : log.extend [] [] = log := by
  simp [extend]

theorem extend_extend : (log.extend es ms).extend es' ms' = log.extend (es ++ es') (ms ++ ms') := by
  simp [extend]

theorem eventsFor_extend_of_ne (h : ∀ e ∈ es, e.process ≠ id) :
    (log.extend es ms).eventsFor id = log.eventsFor id := by
  have hnone : es.filter (fun e => e.process == id) = [] :=
    List.filter_eq_nil_iff.mpr fun e he => by simp [h e he]
  rw [eventsFor, extend, List.filter_append, hnone, List.append_nil, eventsFor]

theorem eventsFor_extend_self (h : ∀ e ∈ es, e.process = id) :
    (log.extend es ms).eventsFor id = log.eventsFor id ++ es := by
  have hall : es.filter (fun e => e.process == id) = es :=
    List.filter_eq_self.mpr fun e he => by simp [h e he]
  rw [eventsFor, extend, List.filter_append, hall, eventsFor]

theorem requestsFor_extend_of_ne (h : ∀ e ∈ ms, e.process ≠ id) :
    (log.extend es ms).requestsFor id = log.requestsFor id := by
  have hnone : ms.filter (fun e => e.process == id) = [] :=
    List.filter_eq_nil_iff.mpr fun e he => by simp [h e he]
  rw [requestsFor, extend, List.filter_append, hnone, List.append_nil, requestsFor]

theorem requestsFor_extend_self (h : ∀ e ∈ ms, e.process = id) :
    (log.extend es ms).requestsFor id = log.requestsFor id ++ ms.map MemoryEvent.kind := by
  have hall : ms.filter (fun e => e.process == id) = ms :=
    List.filter_eq_self.mpr fun e he => by simp [h e he]
  rw [requestsFor, extend, List.filter_append, hall, List.map_append, requestsFor]

/-- Events lie in the order of their ticks, before the tick `f` that comes next. -/
structure Chronological (log : EventLog) (f : Tick) : Prop where
  process_sorted : log.process.Pairwise fun d e => d.tick ≤ e.tick
  process_before : ∀ e ∈ log.process, e.tick < f
  memory_sorted : log.memory.Pairwise fun d e => d.tick ≤ e.tick
  memory_before : ∀ e ∈ log.memory, e.tick < f

theorem Chronological.mono {f f' : Tick} (h : log.Chronological f) (hf : f ≤ f') :
    log.Chronological f' :=
  ⟨h.process_sorted, fun e he => Nat.lt_of_lt_of_le (h.process_before e he) hf, h.memory_sorted,
    fun e he => Nat.lt_of_lt_of_le (h.memory_before e he) hf⟩

/-- A list that goes on with entries of the current tick stays in order. -/
theorem pairwise_append_of_tick {α : Type} {l l' : List α} {time : α → Tick} {tick : Tick}
    (hl : l.Pairwise fun x y => time x ≤ time y) (hbefore : ∀ x ∈ l, time x < tick + 1)
    (hnew : ∀ x ∈ l', time x = tick) : (l ++ l').Pairwise fun x y => time x ≤ time y := by
  refine List.pairwise_append.mpr ⟨hl, List.pairwise_of_forall_mem_list ?_, ?_⟩
  · intro x hx y hy
    exact Nat.le_of_eq ((hnew x hx).trans (hnew y hy).symm)
  · intro x hx y hy
    rw [hnew y hy]
    exact Nat.le_of_lt_succ (hbefore x hx)

theorem Chronological.extend {tick : Tick} (h : log.Chronological (tick + 1))
    (hes : ∀ e ∈ es, e.tick = tick) (hms : ∀ e ∈ ms, e.tick = tick) :
    (log.extend es ms).Chronological (tick + 1) where
  process_sorted := pairwise_append_of_tick h.process_sorted h.process_before hes
  process_before := List.forall_mem_append.mpr
    ⟨h.process_before, fun e he => Nat.lt_succ_of_le (Nat.le_of_eq (hes e he))⟩
  memory_sorted := pairwise_append_of_tick h.memory_sorted h.memory_before hms
  memory_before := List.forall_mem_append.mpr
    ⟨h.memory_before, fun e he => Nat.lt_succ_of_le (Nat.le_of_eq (hms e he))⟩

theorem chronological_empty (f : Tick) : empty.Chronological f :=
  ⟨List.Pairwise.nil, fun _ he => absurd he List.not_mem_nil, List.Pairwise.nil,
    fun _ he => absurd he List.not_mem_nil⟩

end EventLog

namespace Journal

theorem log_add (j : Journal) (e : Entry) :
    (j.add e).log = j.log.extend e.process?.toList e.memory?.toList := by
  unfold log EventLog.extend
  rw [entries_add, List.filterMap_append, List.filterMap_append]
  cases e <;> rfl

theorem log_add_process (j : Journal) (e : ProcessEvent) :
    (j.add (.process e)).log = j.log.extend [e] [] :=
  log_add j _

theorem log_add_memory (j : Journal) (e : MemoryEvent) :
    (j.add (.memory e)).log = j.log.extend [] [e] :=
  log_add j _

/-- A remark about a displacement is in no log. -/
theorem log_add_preempting (j : Journal) (tick : Tick) (left needed : Nat) :
    (j.add (.preempting tick left needed)).log = j.log :=
  (log_add j _).trans (EventLog.extend_nil _)

/-- Nor is a remark about a released unit. -/
theorem log_add_reaped (j : Journal) (unit : UnitId) (id : Nat) :
    (j.add (.reaped unit id)).log = j.log :=
  (log_add j _).trans (EventLog.extend_nil _)

/-- What an entry adds to the log does not depend on the remarks before it. -/
theorem log_add_congr {j j' : Journal} (h : j'.log = j.log) (e : Entry) :
    (j'.add e).log = (j.add e).log := by
  rw [log_add, log_add, h]

end Journal
end Uniprocessor
