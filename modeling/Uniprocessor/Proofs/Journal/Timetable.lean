import Uniprocessor.Proofs.Journal.Log

/-!
# First come, first served

A processor that serves processes one after the other, in a given order and each of them to its end,
is given to the next one when that one has come and the one before it has gone.

* `freeAfter`: when the processor is free again;
* `timetable`: what such a processor does, and when;
* `EventLog.outline`, `EventLog.admitted`: what a log says the processor has done, and for whom
  there was memory.
-/

namespace Uniprocessor

/-- When a processor is free again that is free at a tick and serves processes one after the other.
-/
def freeAfter (free : Tick) : List Process → Tick
  | [] => free
  | p :: ps => freeAfter (max p.arrival free + p.runTime) ps

/-- What a processor does that is free at a tick and serves processes one after the other: each of
them is started when it has come and the one before it is finished, and runs to its end. -/
def timetable (free : Tick) : List Process → List (ProcessEventKind × Nat × Tick)
  | [] => []
  | p :: ps =>
    (.started, p.id, max p.arrival free) ::
      (.finished, p.id, max p.arrival free + p.runTime) ::
        timetable (max p.arrival free + p.runTime) ps

variable {free : Tick} {ps : List Process} {p : Process}

theorem freeAfter_concat (free : Tick) (ps : List Process) (p : Process) :
    freeAfter free (ps ++ [p]) = max p.arrival (freeAfter free ps) + p.runTime := by
  induction ps generalizing free with
  | nil => rfl
  | cons q ps ih => exact ih _

theorem timetable_concat (free : Tick) (ps : List Process) (p : Process) :
    timetable free (ps ++ [p]) = timetable free ps ++
      [(.started, p.id, max p.arrival (freeAfter free ps)),
        (.finished, p.id, max p.arrival (freeAfter free ps) + p.runTime)] := by
  induction ps generalizing free with
  | nil => rfl
  | cons q ps ih => exact congrArg (_ :: _ :: ·) (ih _)

/-- A timetable stops nobody. -/
theorem kind_of_mem_timetable {x : ProcessEventKind × Nat × Tick} (h : x ∈ timetable free ps) :
    x.1 = .started ∨ x.1 = .finished := by
  induction ps generalizing free with
  | nil => exact absurd h List.not_mem_nil
  | cons q ps ih =>
    rcases List.mem_cons.mp h with rfl | h
    · exact Or.inl rfl
    · rcases List.mem_cons.mp h with rfl | h
      · exact Or.inr rfl
      · exact ih h

/-- What an event says of the processor. -/
def ProcessEvent.outline (e : ProcessEvent) : ProcessEventKind × Nat × Tick :=
  (e.kind, e.process, e.tick)

namespace EventLog

/-- What a log says of the processor. -/
def outline (log : EventLog) : List (ProcessEventKind × Nat × Tick) :=
  log.process.map ProcessEvent.outline

/-- Who has been admitted, in this order. -/
def admitted (log : EventLog) : List Nat :=
  (log.memory.filter fun e => e.kind = .allocated).map MemoryEvent.process

/-- Who has been admitted when, in this order. -/
def entrances (log : EventLog) : List (Tick × Nat) :=
  (log.memory.filter fun e => e.kind = .allocated).map fun e => (e.tick, e.process)

/-- Who has been admitted at a tick, in this order. -/
def admittedAt (log : EventLog) (tick : Tick) : List Nat :=
  (log.entrances.filter fun x => x.1 = tick).map Prod.snd

variable {log : EventLog}

theorem outline_extend (log : EventLog) (es : List ProcessEvent) (ms : List MemoryEvent) :
    (log.extend es ms).outline = log.outline ++ es.map ProcessEvent.outline :=
  List.map_append

theorem admitted_extend (log : EventLog) (es : List ProcessEvent) (ms : List MemoryEvent) :
    (log.extend es ms).admitted = log.admitted ++
      (ms.filter fun e => e.kind = .allocated).map MemoryEvent.process := by
  rw [admitted, extend, List.filter_append, List.map_append, admitted]

theorem admitted_extend_allocated (log : EventLog) (id : Nat) (tick : Tick) (block : Buddy.Block) :
    (log.extend [] [.ofBlock id tick .allocated block]).admitted = log.admitted ++ [id] :=
  admitted_extend log [] _

/-- What happens to processes admits nobody. -/
theorem admitted_extend_process (log : EventLog) (es : List ProcessEvent) :
    (log.extend es []).admitted = log.admitted :=
  (admitted_extend log es []).trans (List.append_nil _)

theorem entrances_extend (log : EventLog) (es : List ProcessEvent) (ms : List MemoryEvent) :
    (log.extend es ms).entrances = log.entrances ++
      (ms.filter fun e => e.kind = .allocated).map fun e => (e.tick, e.process) := by
  rw [entrances, extend, List.filter_append, List.map_append, entrances]

/-- Who has not been given a block has not been admitted. -/
theorem entrances_extend_of_ne (log : EventLog) (es : List ProcessEvent) {ms : List MemoryEvent}
    (h : ∀ e ∈ ms, e.kind ≠ .allocated) : (log.extend es ms).entrances = log.entrances := by
  rw [entrances_extend, List.filter_eq_nil_iff.mpr fun e he => by simpa using h e he, List.map_nil,
    List.append_nil]

/-- A log that keeps to a timetable tells of nobody who was stopped. -/
theorem not_stopped_of_outline (h : log.outline = timetable free ps) :
    ∀ e ∈ log.process, e.kind ≠ .stopped := by
  intro e he hkind
  have hmem : e.outline ∈ timetable free ps := h ▸ List.mem_map_of_mem he
  rcases kind_of_mem_timetable hmem with hstarted | hfinished
  · exact absurd (hkind.symm.trans hstarted) (by simp)
  · exact absurd (hkind.symm.trans hfinished) (by simp)

end EventLog
end Uniprocessor
