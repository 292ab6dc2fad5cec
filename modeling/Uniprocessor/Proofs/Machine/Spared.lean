import Uniprocessor.Proofs.Journal.Rejections
import Uniprocessor.Proofs.Machine.Twins
import Uniprocessor.Proofs.Simulation.Proper

/-!
# Machines that were spared a rejection

An arrival that is rejected is counted and logged, and no longer awaited.  The arena stays as it
was, down to the nodes of its tree; nobody is put into the table or among those who wait, and
nobody's place among them changes.  So the machine to which that arrival never came differs in these
records only, and none of them is looked at when a report is taken, an arrival answered, or the
processor given away.

* `Machine.Spared`: a machine to which the rejected arrivals of another one never came;
* `Spared.reported`, `Spared.arrival`: it takes the same reports, and answers the arrivals that do
  come in the same way;
* `Spared.turn`: **and gives the processor to the same process.**
-/

namespace Uniprocessor

namespace Scheduler

/-- A decision depends on the policy, on who waits and, under round robin, on what is left of the
turn. -/
theorem decide_congr (s s' : Scheduler) (hpolicy : s'.policy = s.policy) (hready : s'.ready = s.ready)
    (hslice : ∀ quantum, s.policy = .roundRobin quantum → s'.sliceLeft = s.sliceLeft) (tick : Tick)
    (left : Nat) :
    (s'.decide tick (some left)).1 = (s.decide tick (some left)).1 ∧
      ∀ quantum, s.policy = .roundRobin quantum →
        (s'.decide tick (some left)).2.sliceLeft = (s.decide tick (some left)).2.sliceLeft := by
  unfold decide
  rw [hpolicy, hready]
  cases hp : s.policy with
  | highestPriorityFirst => exact ⟨rfl, fun quantum hround => absurd hround (by simp)⟩
  | shortestRemainingTimeNext =>
    refine ⟨?_, fun quantum hround => absurd hround (by simp)⟩
    cases s.ready.leastKey? with
    | none => rfl
    | some needed =>
      simp only []
      split <;> rfl
  | roundRobin quantum =>
    simp only []
    rw [hslice quantum hp]
    exact ⟨rfl, fun _ _ => rfl⟩

end Scheduler

namespace Machine

variable {m m' n n' : Machine} {tick : Tick} {p : Process}

/-- The machine `n` is the machine `m`, but for the arrivals that `m` has rejected: these never came
to it. -/
structure Spared (m n : Machine) : Prop where
  twins : m.Twins n
  ready : n.ready = m.ready
  policy : n.policy = m.policy
  /-- As much is left of the turn, under round robin. -/
  sliceLeft : ∀ quantum, m.policy = .roundRobin quantum → n.sliceLeft = m.sliceLeft
  log : n.journal.log = m.journal.log.granted

/-! ## Reports -/

/-- The reports of a tick touch neither those who wait nor the turn. -/
theorem Reported.keeps {reports : List UnitReport} (hr : Reported m tick reports m') :
    m'.ready = m.ready ∧ m'.policy = m.policy ∧ m'.sliceLeft = m.sliceLeft := by
  cases hr <;> exact ⟨rfl, rfl, rfl⟩

theorem Spared.reported (h : m.Spared n) {reports reports' : List UnitReport}
    (hsame : reports' = reports) (hr : Reported m tick reports m')
    (hr' : Reported n tick reports' n') : m'.Spared n' := by
  obtain ⟨htwins, es, ms, hnoted, hnoted'⟩ := h.twins.reported hsame hr hr'
  obtain ⟨hready, hpolicy, hslice⟩ := hr.keeps
  obtain ⟨hready', hpolicy', hslice'⟩ := hr'.keeps
  refine ⟨htwins, by rw [hready', h.ready, hready], by rw [hpolicy', h.policy, hpolicy],
    fun quantum hround => ?_, ?_⟩
  · rw [hslice', hslice]
    exact h.sliceLeft quantum (hpolicy ▸ hround)
  · have hnone : ms.countP MemoryEvent.rejects = 0 := by
      have hcount := hnoted.rejected
      rw [rejected_reported hr] at hcount
      omega
    rw [hnoted.log, hnoted'.log, h.log, EventLog.granted_extend_of_none fun e he =>
      Bool.eq_false_iff.mpr (List.countP_eq_zero.mp hnone e he)]

/-! ## Arrivals -/

/-- **An arrival that is rejected changes nothing for a machine to which it does not come; any other
one is answered by both in the same way.**  The log tells which of the two it was. -/
theorem Spared.arrival (h : m.Spared n) {admission : Admission} {s : Scheduler}
    (ha : m.toScheduler.Arrival tick p (.done admission s)) :
    ((m.withScheduler s).Spared n ∧
      ∃ e ∈ (m.withScheduler s).journal.log.memory, e.process = p.id ∧ e.kind = .rejected) ∨
    ∃ s', n.toScheduler.arrive tick p = .done admission s' ∧
      (m.withScheduler s).Spared (n.withScheduler s') ∧
      ∃ e ∈ (m.withScheduler s).journal.log.memory, e.process = p.id ∧ e.kind = .allocated := by
  cases ha with
  | rejected hpos hmemory =>
    have hlog := (noted_rejected m tick p).log
    refine Or.inl ⟨⟨⟨h.twins.table, h.twins.memory, h.twins.running, h.twins.units⟩, h.ready, h.policy,
      h.sliceLeft, ?_⟩, ?_⟩
    · rw [hlog, EventLog.granted_extend_rejected (by rfl)]
      exact h.log
    · rw [hlog]
      exact ⟨_, List.mem_append_right _ (List.mem_singleton_self _), rfl, rfl⟩
  | admitted block memory ready hpos hmemory hready hperm hinsert =>
    have hlog := (noted_admitted m tick p block memory
      (m.table.insert (.ofProcess p block)).2 ready).log
    have hmemory' : n.memory.allocate? p.memory = some (block, memory) := by
      rw [h.twins.memory, hmemory]
    have hinsert' : n.ready.insert (Scheduler.readyKey n.policy (.ofProcess p block))
        (n.table.insert (.ofProcess p block)).1 = .ok ready := by
      rw [h.ready, h.policy, h.twins.table, hinsert]
    refine Or.inr ⟨_, Scheduler.arrive_admitted hpos hmemory' hinsert' tick,
      ⟨⟨?_, rfl, h.twins.running, h.twins.units⟩, rfl, h.policy, h.sliceLeft, ?_⟩, ?_⟩
    · exact congrArg (fun t => (ProcessTable.insert t (.ofProcess p block)).2) h.twins.table
    · rw [hlog, (noted_admitted n tick p block memory (n.table.insert (.ofProcess p block)).2 ready).log,
        h.log, EventLog.granted_extend_of_none (List.forall_mem_singleton.mpr rfl)]
    · rw [hlog]
      exact ⟨_, List.mem_append_right _ (List.mem_singleton_self _), rfl, rfl⟩

/-! ## The end of a tick -/

/-- Where nobody waits, everything stays as it is. -/
theorem Turn.of_nil (h : Turn m tick m') (hnone : m.ready.toList = []) :
    Alike m m' ∧ m'.sliceLeft = m.sliceLeft := by
  cases h with
  | idle _ ha hslice => exact ⟨ha, hslice⟩
  | kept _ _ _ _ _ _ _ _ _ _ _ hwait => exact absurd hnone hwait
  | launched _ _ _ _ hperm => exact absurd (hnone ▸ hperm) (by simp)
  | swapped _ _ _ _ _ _ _ _ _ _ _ _ hperm => exact absurd (hnone ▸ hperm) (by simp)

/-- Where the processor is free, the next process gets it. -/
theorem Turn.of_free (h : Turn m tick m') (hidle : m.running = none) (hwait : m.ready.toList ≠ [])
    {next : Slot} {ready : ReadyQueue} (htake : m.ready.take? = some (next, ready)) :
    ∃ m₁, Bound (m.withReady ready) tick next m₁ ∧ Alike m₁ m' ∧
      ∀ quantum, m.policy = .roundRobin quantum → m'.sliceLeft = quantum := by
  cases h with
  | idle hnone => exact absurd hnone hwait
  | kept _ _ _ _ hrun => exact absurd (hidle.symm.trans hrun) (by simp)
  | swapped _ _ _ _ _ _ _ _ hrun => exact absurd (hidle.symm.trans hrun) (by simp)
  | launched next' ready' m₁ _ _ _ hbound ha htake' hslice =>
    obtain ⟨rfl, rfl⟩ := Prod.mk.inj (Option.some.inj (htake.symm.trans htake'))
    exact ⟨m₁, hbound, ha, hslice⟩

variable {slot : Slot} {b : ControlBlock} {u : UnitId} {c : Countdown}

/-- Where it is decided that the running process keeps the processor, it does. -/
theorem Turn.of_keep (h : Turn m tick m') (hrun : m.running = some slot)
    (hslot : m.table.get? slot = some b) (hunit : b.unit = some u) (hc : m.units.find? u = some c)
    (hwait : m.ready.toList ≠ [])
    (hdecide : ((m.hear slot b c.remaining).decide tick (some c.remaining)).1 = .keep) :
    Alike (m.hear slot b c.remaining) m' ∧ m'.sliceLeft =
      ((m.hear slot b c.remaining).decide tick (some c.remaining)).2.sliceLeft := by
  cases h with
  | idle hnone => exact absurd hnone hwait
  | launched _ _ _ hidle => exact absurd (hidle.symm.trans hrun) (by simp)
  | kept slot' b' u' c' hrun' hslot' hunit' hc' ha _ hslice =>
    obtain ⟨rfl, rfl, rfl, rfl⟩ := (Twins.refl m).occupant hrun hslot hunit hc hrun' hslot' hunit' hc'
    exact ⟨ha, hslice⟩
  | swapped slot' b' u' c' _ _ _ _ hrun' hslot' hunit' hc' _ _ _ _ _ hdecide' =>
    obtain ⟨rfl, rfl, rfl, rfl⟩ := (Twins.refl m).occupant hrun hslot hunit hc hrun' hslot' hunit' hc'
    exact absurd (hdecide.symm.trans hdecide') (by simp)

/-- Where it is decided that the running process is displaced, the next process gets its place. -/
theorem Turn.of_swap (h : Turn m tick m') (hrun : m.running = some slot)
    (hslot : m.table.get? slot = some b) (hunit : b.unit = some u) (hc : m.units.find? u = some c)
    (hwait : m.ready.toList ≠ [])
    (hdecide : ((m.hear slot b c.remaining).decide tick (some c.remaining)).1 = .swap) {next : Slot}
    {ready ready' : ReadyQueue} (htake : m.ready.take? = some (next, ready))
    (hinsert : ready.insert (Scheduler.readyKey m.policy
      ({ b with remaining := c.remaining }.stopped tick)) slot = .ok ready') :
    ∃ m₁, Bound (((m.hear slot b c.remaining).withReady ready).stop tick slot
        { b with remaining := c.remaining } u c.remaining ready') tick next m₁ ∧ Alike m₁ m' ∧
      ∀ quantum, m.policy = .roundRobin quantum → m'.sliceLeft = quantum := by
  cases h with
  | idle hnone => exact absurd hnone hwait
  | launched _ _ _ hidle => exact absurd (hidle.symm.trans hrun) (by simp)
  | kept slot' b' u' c' hrun' hslot' hunit' hc' _ hdecide' =>
    obtain ⟨rfl, rfl, rfl, rfl⟩ := (Twins.refl m).occupant hrun hslot hunit hc hrun' hslot' hunit' hc'
    exact absurd (hdecide.symm.trans hdecide') (by simp)
  | swapped slot' b' u' c' next' _ _ m₁ hrun' hslot' hunit' hc' _ _ _ hbound ha _ htake' hinsert'
      hslice =>
    obtain ⟨rfl, rfl, rfl, rfl⟩ := (Twins.refl m).occupant hrun hslot hunit hc hrun' hslot' hunit' hc'
    obtain ⟨rfl, rfl⟩ := Prod.mk.inj (Option.some.inj (htake.symm.trans htake'))
    obtain rfl := Except.ok.inj (hinsert.symm.trans hinsert')
    exact ⟨m₁, hbound, ha, hslice⟩

/-- The same is decided about the running process, and under round robin as much is left of its
turn. -/
theorem Spared.decide (h : m.Spared n) (slot : Slot) (b : ControlBlock) (left : Nat) (tick : Tick) :
    ((n.hear slot b left).decide tick (some left)).1 = ((m.hear slot b left).decide tick (some left)).1 ∧
      ∀ quantum, m.policy = .roundRobin quantum →
        ((n.hear slot b left).decide tick (some left)).2.sliceLeft =
          ((m.hear slot b left).decide tick (some left)).2.sliceLeft :=
  Scheduler.decide_congr (m.hear slot b left).toScheduler (n.hear slot b left).toScheduler h.policy h.ready
    h.sliceLeft tick left

/-- Machines come out of a tick that one of them was spared the same, if they do so up to what a
dispatch does not look at. -/
theorem Spared.of_alike {m₁ n₁ : Machine} (htwins : m₁.Twins n₁) (hready : n₁.ready = m₁.ready)
    (hlog : n₁.journal.log = m₁.journal.log.granted) (ha : Alike m₁ m') (ha' : Alike n₁ n')
    (hpolicy : n'.policy = m'.policy)
    (hslice : ∀ quantum, m'.policy = .roundRobin quantum → n'.sliceLeft = m'.sliceLeft) :
    m'.Spared n' :=
  ⟨(ha.twins.symm.trans htwins).trans ha'.twins, by rw [ha'.ready, ha.ready, hready], hpolicy, hslice,
    by rw [ha'.log, ha.log, hlog]⟩

/-- And if the free processor has been given to the same process before. -/
theorem Spared.of_bound {m₀ n₀ m₁ n₁ : Machine} (htwins : m₀.Twins n₀) (hready : n₀.ready = m₀.ready)
    (hlog : n₀.journal.log = m₀.journal.log.granted) (hbound : Bound m₀ tick slot m₁)
    (hbound' : Bound n₀ tick slot n₁) (ha : Alike m₁ m') (ha' : Alike n₁ n')
    (hpolicy : n'.policy = m'.policy)
    (hslice : ∀ quantum, m'.policy = .roundRobin quantum → n'.sliceLeft = m'.sliceLeft) :
    m'.Spared n' := by
  obtain ⟨htwins₁, es, hes, hes'⟩ := htwins.bound hbound hbound'
  refine of_alike htwins₁ (by rw [hbound'.ready_eq, hbound.ready_eq, hready]) ?_ ha ha' hpolicy hslice
  rw [hes, hes', hlog, EventLog.granted_extend_of_none fun _ he => absurd he List.not_mem_nil]

/-- **Both give the processor to the same process**, or leave it alone. -/
theorem Spared.turn (h : m.Spared n) (hturn : Turn m tick m') (hrun : m.runTick tick = .done () m')
    (hturn' : Turn n tick n') (hrun' : n.runTick tick = .done () n') : m'.Spared n' := by
  have hsame : m'.policy = m.policy := (runTick_counted hrun).1
  have hpolicy : n'.policy = m'.policy := by rw [(runTick_counted hrun').1, h.policy, hsame]
  -- where both begin a turn, it is a quantum long
  have hfresh : (∀ quantum, m.policy = .roundRobin quantum → m'.sliceLeft = quantum) →
      (∀ quantum, n.policy = .roundRobin quantum → n'.sliceLeft = quantum) →
      ∀ quantum, m'.policy = .roundRobin quantum → n'.sliceLeft = m'.sliceLeft := by
    intro hm hn quantum hround
    rw [hsame] at hround
    rw [hm quantum hround, hn quantum (h.policy.trans hround)]
  cases hturn with
  | idle hnone ha hslice =>
    obtain ⟨ha', hslice'⟩ := hturn'.of_nil (h.ready ▸ hnone)
    refine of_alike h.twins h.ready h.log ha ha' hpolicy fun quantum hround => ?_
    rw [hslice', hslice, h.sliceLeft quantum (hsame ▸ hround)]
  | launched next ready m₁ hidle hperm hheld hbound ha htake hslice =>
    have hwait : n.ready.toList ≠ [] := fun hnone => by
      rw [← h.ready, hnone] at hperm
      exact absurd hperm (by simp)
    obtain ⟨n₁, hbound', ha', hslice'⟩ := hturn'.of_free (h.twins.running.trans hidle) hwait
      (h.ready ▸ htake)
    exact of_bound (h.twins.withReady ready ready) rfl h.log hbound hbound' ha ha' hpolicy
      (hfresh hslice hslice')
  | kept slot b u c hbusy hslot hunit hc ha hdecide hslice hwait =>
    obtain ⟨hdecision, hleft⟩ := h.decide slot b c.remaining tick
    obtain ⟨ha', hslice'⟩ := hturn'.of_keep (h.twins.running.trans hbusy) (h.twins.table ▸ hslot) hunit
      (h.twins.units ▸ hc) (h.ready ▸ hwait) (hdecision.trans hdecide)
    refine of_alike (h.twins.hear slot b c.remaining) h.ready h.log ha ha' hpolicy
      fun quantum hround => ?_
    rw [hslice', hslice]
    exact hleft quantum (hsame ▸ hround)
  | swapped slot b u c next ready ready' m₁ hbusy hslot hunit hc hperm hperm' hheld hbound ha hdecide
      htake hinsert hslice =>
    have hwait : n.ready.toList ≠ [] := fun hnone => by
      rw [← h.ready, hnone] at hperm
      exact absurd hperm (by simp)
    obtain ⟨hdecision, -⟩ := h.decide slot b c.remaining tick
    obtain ⟨n₁, hbound', ha', hslice'⟩ := hturn'.of_swap (h.twins.running.trans hbusy)
      (h.twins.table ▸ hslot) hunit (h.twins.units ▸ hc) hwait (hdecision.trans hdecide)
      (h.ready ▸ htake) (h.policy ▸ hinsert)
    have hstopped := ((h.twins.hear slot b c.remaining).withReady ready ready).stop tick slot
      { b with remaining := c.remaining } u c.remaining ready' ready'
    refine of_bound hstopped rfl ?_ hbound hbound' ha ha' hpolicy (hfresh hslice hslice')
    -- the event of the displacement is logged by both
    refine (Journal.log_add_process n.journal _).trans ?_
    rw [h.log, ← EventLog.granted_extend_of_none fun _ he => absurd he List.not_mem_nil]
    exact congrArg EventLog.granted (Journal.log_add_process m.journal _).symm

end Machine
end Uniprocessor
