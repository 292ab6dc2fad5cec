import Uniprocessor.Proofs.Journal.Rotation
import Uniprocessor.Proofs.Machine.Entrants
import Uniprocessor.Proofs.Machine.Slices
import Uniprocessor.Proofs.Ready.Line

/-!
# Taking turns

Under round robin the processes wait in a ring.  Finishes do not touch it, and entrants go to its end.
At the end of a tick the first one may get the processor, and whoever has had it until then goes to the
end; if nobody does, then the running process has used up one more tick of its slice.

* `Machine.waiting`: who waits, in order;
* `Reported.waiting`, `waiting_arrival`: what finishes and arrivals do to them;
* `Machine.Rotated`, `Turn.rotated`: **what the end of a tick does to them.**
-/

namespace Uniprocessor
namespace Machine

variable {m m' : Machine} {slot s : Slot} {b d : ControlBlock} {tick : Tick} {quantum : Nat}
  {p : Process}

/-- The identifier of the process in a slot. -/
def idAt (m : Machine) (slot : Slot) : Nat :=
  ((m.table.get? slot).map ControlBlock.id).getD 0

/-- The identifiers of those who wait, in order. -/
def waiting (m : Machine) : List Nat :=
  m.ready.toList.map m.idAt

theorem idAt_eq (hslot : m.table.get? slot = some b) : m.idAt slot = b.id := by
  rw [idAt, hslot]
  rfl

theorem idAt_congr (h : m'.table.get? s = m.table.get? s) : m'.idAt s = m.idAt s := by
  rw [idAt, h, idAt]

/-- A process that is written down anew is still the same one. -/
theorem idAt_set (hslot : m.table.get? slot = some b) (htable : m'.table = m.table.set slot d)
    (hid : d.id = b.id) (s : Slot) : m'.idAt s = m.idAt s := by
  rw [idAt, idAt, htable, ProcessTable.get?_set hslot]
  split
  · rename_i hs
    rw [hs, hslot, Option.map_some, Option.map_some, hid]
  · rfl

theorem idAt_bound (h : Bound m tick slot m') (s : Slot) : m'.idAt s = m.idAt s := by
  cases h with
  | launched b hslot hunit => exact idAt_set (d := b.started tick m.units.next) hslot rfl rfl s
  | resumed b u hslot hunit => exact idAt_set (d := b.resumed tick) hslot rfl rfl s

/-- Those who wait are the same if nothing is done to them. -/
theorem waiting_congr (hready : m'.ready = m.ready) (hsame : ∀ s ∈ m.ready.toList, m'.idAt s = m.idAt s) :
    m'.waiting = m.waiting := by
  rw [waiting, hready]
  exact List.map_congr_left hsame

theorem waiting_ne_nil : m.waiting ≠ [] ↔ m.ready.toList ≠ [] := by
  rw [waiting, ne_eq, List.map_eq_nil_iff]

/-! ## Reports and arrivals -/

theorem Reported.waiting {reports : List UnitReport} (hr : Reported m tick reports m')
    (hm : m.Sound []) : m'.waiting = m.waiting := by
  cases hr with
  | quiet hquiet => rfl
  | progress slot b u c hrun hslot hunit hc hcounts hleft =>
    exact waiting_congr rfl fun s _ => idAt_set (d := { b with remaining := c.remaining - 1 }) hslot rfl
      rfl s
  | finished slot b u c memory hrun hslot hunit hc hcounts hleft =>
    exact waiting_congr rfl fun s hs => idAt_congr (hm.get?_vacate_of_waiting hrun hslot hs)

theorem Reported.inTurn {reports : List UnitReport} (hr : Reported m tick reports m')
    (hturn : m.ready.InTurn) : m'.ready.InTurn := by
  cases hr <;> exact hturn

/-- A slice is not touched by a report. -/
theorem Reported.sliceLeft {reports : List UnitReport} (hr : Reported m tick reports m') :
    m'.sliceLeft = m.sliceLeft := by
  cases hr <;> rfl

/-- Nobody gets the processor by a report, or loses it but by finishing. -/
theorem Reported.process {reports : List UnitReport} (hr : Reported m tick reports m') :
    ∃ es ms, m'.journal.log = m.journal.log.extend es ms ∧ ∀ e ∈ es, e.kind = .finished := by
  cases hr with
  | quiet hquiet => exact ⟨[], [], (EventLog.extend_nil _).symm, fun _ he => absurd he List.not_mem_nil⟩
  | progress slot b u c hrun hslot hunit hc hcounts hleft =>
    exact ⟨[], [], (EventLog.extend_nil _).symm, fun _ he => absurd he List.not_mem_nil⟩
  | finished slot b u c memory hrun hslot hunit hc hcounts hleft =>
    exact ⟨_, _, log_retired _ tick slot b u memory, List.forall_mem_singleton.mpr rfl⟩

/-- **Whoever enters goes to the end.** -/
theorem waiting_arrival (hm : m.Sound []) (hturn : m.ready.InTurn) {admission : Admission}
    {x : Scheduler} (ha : m.toScheduler.Arrival tick p (.done admission x)) :
    (m.withScheduler x).ready.InTurn ∧
      (m.withScheduler x).waiting = m.waiting ++ (admission.entrant p).map Process.id := by
  cases ha with
  | rejected hpos hmemory => exact ⟨hturn, (List.append_nil _).symm⟩
  | admitted block memory ready hpos hmemory hready hperm hinsert =>
    obtain ⟨hturn', hlist⟩ := hturn.insert hm.scheduler.ready hinsert
    refine ⟨hturn', ?_⟩
    have hids : ∀ s ∈ m.ready.toList, Machine.idAt (m.withScheduler { m.toScheduler with
        memory := memory
        table := (m.table.insert (.ofProcess p block)).2
        ready := ready
        journal := m.journal.add (.memory (.ofBlock p.id tick .allocated block)) }) s = m.idAt s :=
      fun s hs => idAt_congr (hm.get?_insert_of_waiting _ hs)
    show ready.toList.map _ = m.ready.toList.map m.idAt ++ [p.id]
    rw [hlist, List.map_append, List.map_singleton]
    refine congrArg₂ _ (List.map_congr_left hids) (congrArg (fun id => [id]) ?_)
    exact idAt_eq (b := .ofProcess p block) (ProcessTable.get?_insert_self hm.scheduler.table _)

theorem sliceLeft_arrival {admission : Admission} {x : Scheduler}
    (ha : m.toScheduler.Arrival tick p (.done admission x)) : x.sliceLeft = m.sliceLeft := by
  cases ha <;> rfl

/-! ## The end of a tick -/

/-- What the end of a tick does to those who wait: nothing, and then the slice is one tick shorter if
anybody does; or the first one gets the processor with a full slice, and whoever is stopped goes to the
end. -/
inductive Rotated (m : Machine) (quantum : Nat) (tick : Tick) (m' : Machine) : Prop
  | still (hwaiting : m'.waiting = m.waiting) (hlog : m'.journal.log = m.journal.log)
      (hslice : m.waiting ≠ [] → m'.sliceLeft + 1 = m.sliceLeft)
  | given (e : ProcessEvent) (rest : List Nat) (stops : List ProcessEvent)
      (hwaiting : m.waiting = e.process :: rest)
      (hwaiting' : m'.waiting = rest ++ stops.map ProcessEvent.process)
      (hlog : m'.journal.log = m.journal.log.extend (stops ++ [e]) [])
      (hkind : e.kind.dispatches = true) (htick : e.tick = tick)
      (hstops : ∀ d ∈ stops, d.kind = .stopped ∧ d.tick = tick)
      (hslice : m'.sliceLeft = quantum)

/-- The event of a process that gets the processor is about the process in its slot. -/
theorem Bound.dispatches (h : Bound m tick slot m') : ∃ e, m'.journal.log = m.journal.log.extend [e] [] ∧
    e.tick = tick ∧ e.kind.dispatches = true ∧ e.process = m.idAt slot := by
  cases h with
  | launched b hslot hunit =>
    exact ⟨_, log_launch .., rfl, rfl, (idAt_eq hslot).symm⟩
  | resumed b u hslot hunit =>
    exact ⟨_, log_resume .., rfl, rfl, (idAt_eq hslot).symm⟩

/-- **What the end of a tick does to those who wait.** -/
theorem Turn.rotated (h : Turn m tick m') (hm : m.Sound []) (hpolicy : m.policy = .roundRobin quantum)
    (hturn : m.ready.InTurn) : m'.ready.InTurn ∧ Rotated m quantum tick m' := by
  cases h with
  | idle hnone ha =>
    refine ⟨ha.ready ▸ hturn, .still ?_ ha.log fun hwait => absurd hnone (waiting_ne_nil.mp hwait)⟩
    exact waiting_congr ha.ready fun s _ => idAt_congr (by rw [ha.table])
  | kept slot b u c hrun hslot hunit hc ha hdecide hslice =>
    obtain ⟨hmore, hfewer⟩ : 0 < m.sliceLeft - 1 ∧ _ :=
      sliceLeft_of_keep (m := m.hear slot b c.remaining) hpolicy hdecide
    have hslice' : m'.sliceLeft = m.sliceLeft - 1 := hslice.trans hfewer
    have hready : m'.ready = m.ready := ha.ready
    refine ⟨hready ▸ hturn, .still (waiting_congr hready fun s _ => ?_) ha.log fun _ => by omega⟩
    exact idAt_set (d := { b with remaining := c.remaining }) hslot ha.table rfl s
  | launched next ready m₁ hrun hperm hheld hbound ha htake hslice =>
    obtain ⟨hturn', hlist⟩ := hturn.take hm.scheduler.ready htake
    have hready : m'.ready = ready := ha.ready.trans hbound.ready_eq
    obtain ⟨e, hlog, htick, hkind, hprocess⟩ := hbound.dispatches
    have hids : ∀ s, m'.idAt s = m.idAt s := fun s =>
      (idAt_congr (by rw [ha.table])).trans (idAt_bound hbound s)
    refine ⟨hready ▸ hturn', .given e (ready.toList.map m.idAt) [] ?_ ?_ (ha.log.trans hlog) hkind
      htick (fun _ hd => absurd hd List.not_mem_nil) (hslice quantum hpolicy)⟩
    · rw [waiting, hlist, List.map_cons, hprocess]
      rfl
    · rw [waiting, hready, List.map_nil, List.append_nil]
      exact List.map_congr_left fun s _ => hids s
  | swapped slot b u c next ready ready' m₁ hrun hslot hunit hc hperm hperm' hheld hbound ha hdecide
      htake hinsert hslice =>
    obtain ⟨hturn', hlist⟩ := hturn.take hm.scheduler.ready htake
    obtain ⟨hturn'', hlist'⟩ := hturn'.insert (hm.scheduler.ready.take htake) hinsert
    have hready : m'.ready = ready' := ha.ready.trans hbound.ready_eq
    obtain ⟨e, hlog, htick, hkind, hprocess⟩ := hbound.dispatches
    have hslot' := get?_hear hslot c.remaining
    have hstopped : ∀ s, (((m.hear slot b c.remaining).withReady ready).stop tick slot
        { b with remaining := c.remaining } u c.remaining ready').idAt s = m.idAt s := fun s =>
      (idAt_set (m := m.hear slot b c.remaining)
        (d := { b with remaining := c.remaining }.stopped tick) hslot' rfl rfl s).trans
        (idAt_set (d := { b with remaining := c.remaining }) hslot rfl rfl s)
    have hids : ∀ s, m'.idAt s = m.idAt s := fun s =>
      (idAt_congr (by rw [ha.table])).trans ((idAt_bound hbound s).trans (hstopped s))
    let stop : ProcessEvent := .ofBlock ({ b with remaining := c.remaining }.stopped tick) tick .stopped none
    refine ⟨hready ▸ hturn'', .given e (ready.toList.map m.idAt) [stop] ?_ ?_ ?_ hkind htick
      (List.forall_mem_singleton.mpr ⟨rfl, rfl⟩) (hslice quantum hpolicy)⟩
    · rw [waiting, hlist, List.map_cons, hprocess, hstopped]
    · rw [waiting, hready, hlist', List.map_append]
      exact congrArg₂ _ (List.map_congr_left fun s _ => hids s)
        (congrArg (fun id => [id]) ((hids slot).trans (idAt_eq (b := b) hslot)))
    · have hstop := Journal.log_add_process m.journal stop
      exact (ha.log.trans hlog).trans (congrArg (fun log : EventLog => log.extend [e] []) hstop |>.trans
        (EventLog.extend_extend ..))

end Machine
end Uniprocessor
