import Uniprocessor.Proofs.Simulation.Figures
import Uniprocessor.Proofs.Simulation.Outcome

/-!
# Machines with the same processes

Neither the reports of a tick nor the answer to an arrival depend on the policy, on the order in
which processes wait, or on what has been counted and logged.  So two machines that agree in
everything else take the same reports, and answer an arrival alike if in both of them as many
processes wait and as many can; and they count and log the same.

* `Machine.Twins`: the same processes, in the same slots, with the same units and blocks;
* `Twins.reported`, `Twins.arrive`: **the reports of a tick and an arrival leave them so**;
* `Twins.stop`, `Twins.bound`: and so do the moves of a dispatch.
-/

namespace Uniprocessor

namespace ProcessTable

variable {t : ProcessTable} {slot : Slot} {b : ControlBlock}

/-- To write down once more what is known already changes nothing. -/
theorem set_self (h : t.get? slot = some b) : t.set slot b = t := by
  have hslot : t.slots[slot]? = some (some b) := Option.join_eq_some_iff.mp h
  obtain ⟨hlt, hget⟩ := Array.getElem?_eq_some_iff.mp hslot
  rw [set_eq h, Array.setIfInBounds, dif_pos hlt, ← hget, Array.set_getElem_self]

end ProcessTable

namespace Machine

/-- Two machines with the same processes, in the same slots, with the same units and blocks. -/
structure Twins (m n : Machine) : Prop where
  table : n.table = m.table
  memory : n.memory = m.memory
  running : n.running = m.running
  units : n.units = m.units

variable {m m' n n' : Machine} {tick : Tick} {slot : Slot} {b : ControlBlock} {p : Process}

theorem Twins.refl (m : Machine) : m.Twins m :=
  ⟨rfl, rfl, rfl, rfl⟩

theorem Twins.symm (h : m.Twins n) : n.Twins m :=
  ⟨h.table.symm, h.memory.symm, h.running.symm, h.units.symm⟩

theorem Twins.trans (h : m.Twins m') (h' : m'.Twins n) : m.Twins n :=
  ⟨h'.table.trans h.table, h'.memory.trans h.memory, h'.running.trans h.running,
    h'.units.trans h.units⟩

theorem Alike.twins (h : Alike m n) : m.Twins n :=
  ⟨h.table, h.memory, h.running, h.units⟩

/-- What has counted the same before, and counts the same now, has counted the same then. -/
theorem Noted.metrics_eq {es : List ProcessEvent} {ms : List MemoryEvent} (h : Noted tick es ms m m')
    (h' : Noted tick es ms n n') (hsame : n.metrics = m.metrics) : n'.metrics = m'.metrics := by
  have hbusy : n'.metrics.busyTicks = m'.metrics.busyTicks := by rw [h'.busyTicks, h.busyTicks, hsame]
  have hidle : n'.metrics.idleTicks = m'.metrics.idleTicks := by rw [h'.idleTicks, h.idleTicks, hsame]
  have hrejected : n'.metrics.rejected = m'.metrics.rejected := by
    rw [h'.rejected, h.rejected, hsame]
  have hfinishes : n'.metrics.finishes = m'.metrics.finishes := by
    refine Array.toList_inj.mp ?_
    rw [h'.finishes, h.finishes, hsame]
  cases hn : n'.metrics
  cases hm : m'.metrics
  rw [hn, hm] at hbusy hidle hrejected hfinishes
  subst hbusy hidle hrejected hfinishes
  rfl

theorem Noted.log_eq {es : List ProcessEvent} {ms : List MemoryEvent} (h : Noted tick es ms m m')
    (h' : Noted tick es ms n n') (hsame : n.journal.log = m.journal.log) :
    n'.journal.log = m'.journal.log := by
  rw [h'.log, h.log, hsame]

/-! ## Reports -/

/-- The units of both report the same. -/
theorem Twins.reports (h : m.Twins n) (tick : Tick) : (n.advance tick).1 = (m.advance tick).1 := by
  rw [advance, advance, h.units]

/-- What is in the table, and so what the running process is, is the same in both. -/
theorem Twins.occupant (h : m.Twins n) {slot' : Slot} {b' : ControlBlock} {u u' : UnitId}
    {c c' : Countdown} (hrun : m.running = some slot) (hslot : m.table.get? slot = some b)
    (hunit : b.unit = some u) (hc : m.units.find? u = some c) (hrun' : n.running = some slot')
    (hslot' : n.table.get? slot' = some b') (hunit' : b'.unit = some u')
    (hc' : n.units.find? u' = some c') : slot' = slot ∧ b' = b ∧ u' = u ∧ c' = c := by
  rw [h.running, hrun] at hrun'
  obtain rfl := Option.some.inj hrun'
  rw [h.table, hslot] at hslot'
  obtain rfl := Option.some.inj hslot'
  rw [hunit] at hunit'
  obtain rfl := Option.some.inj hunit'
  rw [h.units, hc] at hc'
  exact ⟨rfl, rfl, rfl, (Option.some.inj hc').symm⟩

/-- **The same reports are taken alike**, and the same is counted and logged. -/
theorem Twins.reported (h : m.Twins n) {reports reports' : List UnitReport}
    (hsame : reports' = reports) (hr : Reported m tick reports m')
    (hr' : Reported n tick reports' n') :
    m'.Twins n' ∧ ∃ es ms, Noted tick es ms m m' ∧ Noted tick es ms n n' := by
  have hunits : (n.units.advance tick).2 = (m.units.advance tick).2 := by rw [h.units]
  cases hr with
  | quiet hquiet =>
    cases hr' with
    | quiet hquiet' =>
      exact ⟨⟨h.table, h.memory, h.running, hunits⟩, [], [], Noted.nothing rfl rfl rfl,
        Noted.nothing rfl rfl rfl⟩
    | progress => exact absurd hsame (by simp)
    | finished => exact absurd hsame (by simp)
  | progress slot b u c hrun hslot hunit hc hcounts hleft =>
    cases hr' with
    | quiet => exact absurd hsame (by simp)
    | finished => exact absurd hsame (by simp)
    | progress slot' b' u' c' hrun' hslot' hunit' hc' =>
      obtain ⟨rfl, rfl, rfl, rfl⟩ := h.occupant hrun hslot hunit hc hrun' hslot' hunit' hc'
      refine ⟨⟨?_, h.memory, h.running, hunits⟩, [], [], Noted.nothing rfl rfl rfl,
        Noted.nothing rfl rfl rfl⟩
      exact congrArg (ProcessTable.set · slot' _) h.table
  | finished slot b u c memory hrun hslot hunit hc hcounts hleft hfree =>
    cases hr' with
    | quiet => exact absurd hsame (by simp)
    | progress => exact absurd hsame (by simp)
    | finished slot' b' u' c' memory' hrun' hslot' hunit' hc' hcounts' hleft' hfree' =>
      obtain ⟨rfl, rfl, rfl, rfl⟩ := h.occupant hrun hslot hunit hc hrun' hslot' hunit' hc'
      rw [h.memory] at hfree'
      obtain rfl := Except.ok.inj (hfree.symm.trans hfree')
      refine ⟨⟨?_, rfl, rfl, ?_⟩, _, _, noted_retired m tick slot' b' u' memory,
        noted_retired n tick slot' b' u' memory⟩
      · exact congrArg (ProcessTable.vacate · slot') h.table
      · exact congrArg (UnitPool.drop · u') hunits

/-! ## Arrivals -/

/-- **An arrival is answered alike**, if as many processes wait in both machines and as many can;
and the same is counted and logged. -/
theorem Twins.arrive (h : m.Twins n) (hm : m.Sound []) (hn : n.Sound [])
    (hsize : n.ready.size = m.ready.size) (hcapacity : n.ready.capacity = m.ready.capacity)
    (tick : Tick) (p : Process) :
    (∃ admission s s', m.toScheduler.arrive tick p = .done admission s ∧
      n.toScheduler.arrive tick p = .done admission s' ∧
      (m.withScheduler s).Twins (n.withScheduler s') ∧
      ∃ ms, Noted tick [] ms m (m.withScheduler s) ∧ Noted tick [] ms n (n.withScheduler s')) ∨
    ∃ e s s', m.toScheduler.arrive tick p = .refused e s ∧
      n.toScheduler.arrive tick p = .refused e s' := by
  by_cases hzero : p.runTime = 0
  · exact Or.inr ⟨_, _, _, if_pos hzero, if_pos hzero⟩
  cases hmemory : m.memory.allocate? p.memory with
  | none =>
    have hmemory' : n.memory.allocate? p.memory = none := by rw [h.memory, hmemory]
    refine Or.inl ⟨_, _, _, Scheduler.arrive_rejected hzero hmemory tick,
      Scheduler.arrive_rejected hzero hmemory' tick, ⟨h.table, h.memory, h.running, h.units⟩, _,
      noted_rejected m tick p, noted_rejected n tick p⟩
  | some out =>
    obtain ⟨block, memory⟩ := out
    have hmemory' : n.memory.allocate? p.memory = some (block, memory) := by rw [h.memory, hmemory]
    rcases Nat.lt_or_ge m.ready.size m.ready.capacity with hroom | hfull
    · have hroom' : n.ready.size < n.ready.capacity := by rw [hsize, hcapacity]; exact hroom
      obtain ⟨ready, hinsert, -⟩ := ReadyQueue.insert_ok hm.scheduler.ready hroom
        (Scheduler.readyKey m.policy (.ofProcess p block)) (m.table.insert (.ofProcess p block)).1
      obtain ⟨ready', hinsert', -⟩ := ReadyQueue.insert_ok hn.scheduler.ready hroom'
        (Scheduler.readyKey n.policy (.ofProcess p block)) (n.table.insert (.ofProcess p block)).1
      refine Or.inl ⟨_, _, _, Scheduler.arrive_admitted hzero hmemory hinsert tick,
        Scheduler.arrive_admitted hzero hmemory' hinsert' tick, ⟨?_, rfl, h.running, h.units⟩, _,
        noted_admitted m tick p block memory _ ready, noted_admitted n tick p block memory _ ready'⟩
      exact congrArg (fun t => (ProcessTable.insert t (.ofProcess p block)).2) h.table
    · have hsome : (m.memory.allocate? p.memory).isSome = true := by rw [hmemory]; rfl
      have hle := ReadyQueue.size_le_capacity hm.scheduler.ready
      have hfull' : n.ready.size = n.ready.capacity := by omega
      have hrefused := hn.arrive_full hzero (h.memory ▸ hsome) hfull' tick
      rw [hcapacity] at hrefused
      exact Or.inr ⟨_, _, _,
        Attempt.eq_refused (hm.arrive_full hzero hsome (Nat.le_antisymm hle hfull) tick),
        Attempt.eq_refused hrefused⟩

/-! ## Dispatch -/

theorem Twins.withReady (h : m.Twins n) (ready ready' : ReadyQueue) :
    (m.withReady ready).Twins (n.withReady ready') :=
  ⟨h.table, h.memory, h.running, h.units⟩

theorem Twins.hear (h : m.Twins n) (slot : Slot) (b : ControlBlock) (left : Nat) :
    (m.hear slot b left).Twins (n.hear slot b left) :=
  ⟨congrArg (ProcessTable.set · slot _) h.table, h.memory, h.running, h.units⟩

theorem Twins.stop (h : m.Twins n) (tick : Tick) (slot : Slot) (b : ControlBlock) (u : UnitId)
    (left : Nat) (ready ready' : ReadyQueue) :
    (m.stop tick slot b u left ready).Twins (n.stop tick slot b u left ready') :=
  ⟨congrArg (ProcessTable.set · slot _) h.table, h.memory, rfl,
    congrArg (UnitPool.tell · u .pause) h.units⟩

/-- A process gets the free processor alike in both, and the same is logged. -/
theorem Twins.bound (h : m.Twins n) (hbound : Bound m tick slot m') (hbound' : Bound n tick slot n') :
    m'.Twins n' ∧ ∃ es, m'.journal.log = m.journal.log.extend es [] ∧
      n'.journal.log = n.journal.log.extend es [] := by
  cases hbound with
  | launched b hslot hunit =>
    cases hbound' with
    | resumed b' u' hslot' hunit' =>
      rw [h.table, hslot] at hslot'
      obtain rfl := Option.some.inj hslot'
      exact absurd (hunit.symm.trans hunit') (by simp)
    | launched b' hslot' hunit' =>
      rw [h.table, hslot] at hslot'
      obtain rfl := Option.some.inj hslot'
      have hstarted : b.started tick n.units.next = b.started tick m.units.next := by rw [h.units]
      refine ⟨⟨?_, h.memory, rfl, congrArg (fun p => (UnitPool.start p b.remaining tick).2) h.units⟩,
        _, Journal.log_add_process _ _, ?_⟩
      · show n.table.set slot (b.started tick n.units.next) = _
        rw [hstarted, h.table]
        rfl
      · rw [← hstarted]
        exact Journal.log_add_process _ _
  | resumed b u hslot hunit =>
    cases hbound' with
    | launched b' hslot' hunit' =>
      rw [h.table, hslot] at hslot'
      obtain rfl := Option.some.inj hslot'
      exact absurd (hunit'.symm.trans hunit) (by simp)
    | resumed b' u' hslot' hunit' =>
      rw [h.table, hslot] at hslot'
      obtain rfl := Option.some.inj hslot'
      obtain rfl := Option.some.inj (hunit.symm.trans hunit')
      exact ⟨⟨congrArg (ProcessTable.set · slot _) h.table, h.memory, rfl,
        congrArg (UnitPool.tell · u _) h.units⟩, _, Journal.log_add_process _ _,
        Journal.log_add_process _ _⟩

end Machine
end Uniprocessor
