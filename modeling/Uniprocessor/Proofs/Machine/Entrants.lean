import Uniprocessor.Proofs.Journal.Timetable
import Uniprocessor.Proofs.Machine.Accounts

/-!
# Entrants

Of the arrivals of a tick some are admitted and the others rejected, depending on the memory that
those before them have left.  Whoever is admitted is given a block, and that is logged; nothing else
that happens in a tick gives anybody a block.

* `Machine.entrants`: who is admitted, of a list of arrivals;
* `Machine.entrances_arrival`: the log tells of the entrants;
* `Reported.entrances`, `Turn.entrances`: the rest of a tick admits nobody.
-/

namespace Uniprocessor

/-- An arrival that may be answered in a way is answered so. -/
theorem Scheduler.Arrival.arrive_eq {s s' : Scheduler} {tick : Tick} {p : Process}
    {admission : Admission} (h : s.Arrival tick p (.done admission s')) :
    s.arrive tick p = .done admission s' := by
  cases h with
  | rejected hpos hmemory => exact arrive_rejected hpos hmemory tick
  | admitted block memory ready hpos hmemory hready hperm hinsert =>
    exact arrive_admitted hpos hmemory hinsert tick

/-- Who enters with an arrival. -/
def Admission.entrant (p : Process) : Admission → List Process
  | admitted .. => [p]
  | rejected _ => []

namespace Machine

variable {m m' : Machine} {tick : Tick} {p : Process} {admission : Admission} {s : Scheduler}

/-- Who is admitted at a tick, in this order, of a list of arrivals. -/
def entrants (m : Machine) (tick : Tick) : List Process → List Process
  | [] => []
  | p :: ps =>
    match m.arrive tick p with
    | ⟨.ok admission, m⟩ => admission.entrant p ++ m.entrants tick ps
    | ⟨.error _, _⟩ => []

theorem arrive_eq (ha : m.toScheduler.Arrival tick p (.done admission s)) :
    m.arrive tick p = .done admission (m.withScheduler s) := by
  rw [arrive, schedule, ha.arrive_eq]
  rfl

theorem entrants_cons (ha : m.toScheduler.Arrival tick p (.done admission s)) (ps : List Process) :
    m.entrants tick (p :: ps) = admission.entrant p ++ (m.withScheduler s).entrants tick ps := by
  rw [entrants, arrive_eq ha]
  rfl

/-- An arrival is logged as a request for memory, whatever comes of it. -/
theorem process_arrival (ha : m.toScheduler.Arrival tick p (.done admission s)) :
    s.journal.log.process = m.journal.log.process := by
  have hadd : ∀ e : MemoryEvent, (m.journal.add (.memory e)).log.process = m.journal.log.process :=
    fun e => (congrArg EventLog.process (Journal.log_add_memory m.journal e)).trans
      (List.append_nil _)
  cases ha with
  | rejected hpos hmemory => exact hadd _
  | admitted block memory ready hpos hmemory hready hperm => exact hadd _

/-- **Whoever enters with an arrival is logged as admitted.** -/
theorem entrances_arrival (ha : m.toScheduler.Arrival tick p (.done admission s)) :
    s.journal.log.entrances =
      m.journal.log.entrances ++ (admission.entrant p).map fun q => (tick, q.id) := by
  cases ha with
  | rejected hpos hmemory =>
    rw [log_reject, EventLog.entrances_extend]
    rfl
  | admitted block memory ready hpos hmemory hready hperm =>
    show (m.journal.add _).log.entrances = _
    rw [Journal.log_add_memory, EventLog.entrances_extend]
    rfl

/-- The reports of a tick admit nobody. -/
theorem Reported.entrances {reports : List UnitReport} (hr : Reported m tick reports m') :
    m'.journal.log.entrances = m.journal.log.entrances := by
  cases hr with
  | quiet hquiet => rfl
  | progress slot b u c hrun hslot hunit hc hcounts hleft => rfl
  | finished slot b u c memory hrun hslot hunit hc hcounts hleft =>
    rw [log_retired]
    exact EventLog.entrances_extend_of_ne _ _
      (List.forall_mem_singleton.mpr MemoryEventKind.noConfusion)

/-- The end of a tick admits nobody. -/
theorem Turn.entrances (h : Turn m tick m') :
    m'.journal.log.entrances = m.journal.log.entrances := by
  obtain ⟨es, hlog, -⟩ := h.log
  rw [hlog]
  exact EventLog.entrances_extend_of_ne _ _ fun _ he => absurd he List.not_mem_nil

end Machine
end Uniprocessor
