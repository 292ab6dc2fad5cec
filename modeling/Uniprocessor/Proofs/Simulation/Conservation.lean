import Uniprocessor.Proofs.Simulation.Proper

/-!
# No policy wastes a tick

The processor is given away at the end of a tick whenever anybody is live, whatever the policy.  So
a tick is counted as idle only if everybody who has been admitted by then has finished.

A tick that finds the processor taken burns a tick of run time.  Whose it is depends on the policy,
but how much is left altogether does not.  So two runs of the same workload that reject nobody have
the same load before every tick, and every tick is busy in one of them exactly if it is busy in the
other one.

* `EventLog.AllFinished`: everybody has finished who has been admitted;
* `Machine.Reconciled`: who has been admitted has finished or is live, as the log tells;
* `Simulation.Abreast`: two runs with the same load, in which the same ticks have been counted;
* `Abreast.onward`, `Abreast.reached`: **they stay abreast under any two policies**;
* `Simulation.run_conserves`: **no tick is idle while somebody is unfinished**, and the busy ticks
  do not depend on the policy.
-/

namespace Uniprocessor

namespace EventLog

/-- How often a process has been admitted. -/
def admissions (log : EventLog) (id : Nat) : Nat :=
  log.memory.countP fun e => e.kind = .allocated ∧ e.process = id

/-- How often it has finished. -/
def completions (log : EventLog) (id : Nat) : Nat :=
  log.process.countP fun e => e.kind = .finished ∧ e.process = id

/-- Everybody has finished who has been admitted, and as often. -/
def AllFinished (log : EventLog) : Prop :=
  ∀ id, log.admissions id = log.completions id

variable {log : EventLog} {es : List ProcessEvent} {ms : List MemoryEvent}

theorem admissions_extend (id : Nat) : (log.extend es ms).admissions id =
    log.admissions id + ms.countP fun e => e.kind = .allocated ∧ e.process = id :=
  List.countP_append

theorem completions_extend (id : Nat) : (log.extend es ms).completions id =
    log.completions id + es.countP fun e => e.kind = .finished ∧ e.process = id :=
  List.countP_append

/-- Events that tell of no finish make nobody finish. -/
theorem completions_extend_of_none (h : ∀ e ∈ es, e.finishes = false) (id : Nat) :
    (log.extend es ms).completions id = log.completions id := by
  have hnone : es.countP (fun e => e.kind = .finished ∧ e.process = id) = 0 := by
    refine List.countP_eq_zero.mpr fun e he hfinish => ?_
    have hkind : e.finishes = true := decide_eq_true (of_decide_eq_true hfinish).1
    exact absurd (hkind.symm.trans (h e he)) (by simp)
  rw [completions_extend, hnone, Nat.add_zero]

end EventLog

namespace Machine

variable {m m' : Machine} {tick f : Tick} {p : Process}

/-- The identifiers of the live processes. -/
def liveIds (m : Machine) : List Nat :=
  m.table.toList.map ControlBlock.id

/-- As often as a process has been admitted, it has finished or is live. -/
def Reconciled (m : Machine) : Prop :=
  ∀ id, m.journal.log.admissions id = m.journal.log.completions id + m.liveIds.count id

theorem Reconciled.reported (h : m.Reconciled) {reports : List UnitReport}
    (hr : Reported m tick reports m') : m'.Reconciled := by
  cases hr with
  | quiet hquiet => exact h
  | progress slot b u c hrun hslot hunit hc hcounts hleft =>
    intro id
    have hlive := perm_map_set (d := { b with remaining := c.remaining - 1 })
      (f := ControlBlock.id) hslot rfl
    exact (h id).trans (congrArg _ (hlive.count_eq id).symm)
  | finished slot b u c memory hrun hslot hunit hc hcounts hleft =>
    intro id
    obtain ⟨rest, hlist, -, hrest⟩ := ProcessTable.exists_rest hslot
    have hbefore := (hlist.map ControlBlock.id).count_eq id
    have hafter := (hrest.map ControlBlock.id).count_eq id
    have hbalance := h id
    rw [liveIds, hbefore, List.map_cons, List.count_cons] at hbalance
    rw [log_retired, EventLog.admissions_extend, EventLog.completions_extend]
    show m.journal.log.admissions id + 0 = m.journal.log.completions id + _ +
      ((m.table.vacate slot).toList.map ControlBlock.id).count id
    rw [hafter, List.countP_singleton]
    by_cases hid : b.id = id
    · simp only [Scheduler.finishEvent, ProcessEvent.ofBlock, hid, and_self, decide_true, if_true,
        beq_self_eq_true] at hbalance ⊢
      omega
    · simp only [Scheduler.finishEvent, ProcessEvent.ofBlock, hid, and_false, decide_false,
        Bool.false_eq_true, if_false, beq_eq_false_iff_ne.mpr hid] at hbalance ⊢
      omega

theorem Reconciled.arrival (h : m.Reconciled) (hm : m.Sound []) {admission : Admission}
    {s : Scheduler} (ha : m.toScheduler.Arrival tick p (.done admission s)) :
    (m.withScheduler s).Reconciled := by
  intro id
  have hbalance := h id
  cases ha with
  | rejected hpos hmemory =>
    have hlog : (m.withScheduler (m.reject tick p)).journal.log = _ := log_reject m tick p
    rw [hlog, EventLog.admissions_extend, EventLog.completions_extend]
    exact hbalance
  | admitted block memory ready hpos hmemory hready hperm =>
    have hlive := ((ProcessTable.toList_insert hm.scheduler.table (.ofProcess p block)).map
      ControlBlock.id).count_eq id
    have hlog := Journal.log_add_memory m.journal (.ofBlock p.id tick .allocated block)
    rw [List.map_cons, List.count_cons] at hlive
    show (m.journal.add _).log.admissions id = (m.journal.add _).log.completions id +
      (List.map _ (m.table.insert _).2.toList).count id
    rw [hlog, EventLog.admissions_extend, EventLog.completions_extend, hlive, List.countP_singleton,
      hbalance, liveIds]
    show _ + (if decide (_ ∧ p.id = id) = true then 1 else 0) =
      _ + 0 + (_ + if (p.id == id) = true then 1 else 0)
    by_cases hid : p.id = id
    · simp only [hid, MemoryEvent.ofBlock, and_self, decide_true, if_true, beq_self_eq_true]
      omega
    · simp only [hid, and_false, decide_false, Bool.false_eq_true, if_false,
        beq_eq_false_iff_ne.mpr hid]
      omega

theorem Reconciled.turn (h : m.Reconciled) (ht : Turn m tick m') : m'.Reconciled := by
  intro id
  obtain ⟨es, hlog, hes⟩ := ht.log
  have hlive : m'.liveIds.Perm m.liveIds :=
    ht.perm_map ⟨fun _ _ _ => rfl, fun _ _ => rfl, fun _ _ => rfl⟩ fun _ _ _ _ _ _ _ _ => rfl
  rw [hlog, EventLog.completions_extend_of_none (fun e he => (hes e he).2.1),
    EventLog.admissions_extend, hlive.count_eq]
  exact h id

/-- Everybody has finished exactly if nobody is live. -/
theorem Reconciled.allFinished_iff (h : m.Reconciled) :
    m.journal.log.AllFinished ↔ m.table.toList = [] := by
  constructor
  · intro hall
    refine List.eq_nil_iff_forall_not_mem.mpr fun b hb => ?_
    have hone : 0 < m.liveIds.count b.id := List.count_pos_iff.mpr (List.mem_map_of_mem hb)
    have hbalance := h b.id
    have hsame := hall b.id
    omega
  · intro hlive id
    rw [h id, liveIds, hlive]
    rfl

/-- Where nobody is live unless somebody has the processor, it is taken exactly if there is anything
to go. -/
theorem Sound.running_iff (h : m.Sound []) (htimely : m.Timely f) (hbusy : m.Busy) :
    m.running.isSome = true ↔ m.load ≠ 0 := by
  cases hrun : m.running with
  | none =>
    have hload : m.load = 0 := by rw [load, hbusy hrun]; rfl
    simp [hload]
  | some slot =>
    obtain ⟨b, hslot⟩ := h.scheduler.running_live hrun
    have hpos := (htimely slot b hslot).left_pos
    have hle := remaining_le_load hslot
    simp only [Option.isSome_some, true_iff]
    omega

end Machine

namespace Simulation

open Machine

variable {m m' : Machine} {ps : List Process} {s s' s₀ s₁ next : Simulation} {tick t t' : Tick}
  {c c' : Config} {w : Workload} {k k' n : Nat} {latest : Tick} {total : Nat}

/-- In the run that starts with `s₀`, a tick is counted as busy. -/
def BusyAt (s₀ : Simulation) (t : Tick) : Prop :=
  ∃ s next, runFor t s₀ = .running s ∧ runFor (t + 1) s₀ = .running next ∧
    next.machine.metrics.busyTicks = s.machine.metrics.busyTicks + 1

/-- In the run that starts with `s₀`, a tick is counted as idle. -/
def IdleAt (s₀ : Simulation) (t : Tick) : Prop :=
  ∃ s next, runFor t s₀ = .running s ∧ runFor (t + 1) s₀ = .running next ∧
    next.machine.metrics.idleTicks = s.machine.metrics.idleTicks + 1

/-! ## One run -/

theorem LetIn.reconciled (h : LetIn tick m ps m') (hm : m.Sound []) (hr : m.Reconciled) :
    m'.Reconciled := by
  induction h with
  | nil m => exact hr
  | cons ha hsound hrest ih => exact ih hsound (hr.arrival hm ha)

/-- What holds before every tick of a run, whatever list of processes it is of: every live process
has been admitted, and everybody who has been admitted is live or has finished. -/
structure Reconciled (s : Simulation) (latest : Tick) (total : Nat) : Prop where
  ongoing : s.Ongoing latest total
  machine : s.machine.Reconciled

/-- **A tick is counted as idle exactly if everybody has finished by its dispatch** who has been
admitted, and as busy otherwise. -/
theorem Reconciled.step (h : s.Reconciled latest total) (hnext : s.step = .running next) :
    next.Reconciled latest total ∧ ∃ m, s.settle = .done () m ∧
      m.metrics.busyTicks = s.machine.metrics.busyTicks ∧
      m.metrics.idleTicks = s.machine.metrics.idleTicks ∧
      next.machine.metrics = m.metrics.countTick next.machine.running.isSome ∧
      (next.machine.running = none ↔ m.journal.log.AllFinished) := by
  have ht := step_ticked h.ongoing.sound
  rw [hnext] at ht
  have hongoing := (h.ongoing.step ht).1
  cases ht with
  | @running reports m₁ m₂ m₃ hreported hsound₁ hletIn hsound₂ hdone hturn hsound₃ hrun hsettle =>
    have hreconciled := hletIn.reconciled hsound₁ (h.machine.reported hreported)
    obtain ⟨es, ms, hnoted⟩ := hreported.noted
    obtain ⟨es', ms', hnoted'⟩ := hletIn.noted
    have hboth := hnoted.trans hnoted'
    refine ⟨⟨hongoing, hreconciled.turn hturn⟩, m₂, hsettle, hboth.busyTicks, hboth.idleTicks,
      (runTick_counted hrun).2.2, ?_⟩
    rw [hreconciled.allFinished_iff, ← List.length_eq_zero_iff, ← hturn.accounts.2]
    constructor
    · exact fun hidle => List.length_eq_zero_iff.mpr (hongoing.busy hidle)
    · intro hlive
      refine Option.eq_none_iff_forall_ne_some.mpr fun slot hslot => ?_
      obtain ⟨b, hb⟩ := hsound₃.scheduler.running_live hslot
      have hmem := ProcessTable.mem_toList.mpr ⟨slot, hb⟩
      rw [List.length_eq_zero_iff.mp hlive] at hmem
      exact List.not_mem_nil hmem

/-- A tick that has been counted was counted once, as idle or as busy. -/
theorem Reconciled.counted (h : s.Reconciled latest total) (hreached : runFor t s₀ = .running s)
    (hnext : s.step = .running next) :
    ∃ m, s.settle = .done () m ∧
      (s₀.IdleAt t ∧ ¬ s₀.BusyAt t ∧ m.journal.log.AllFinished ∨
        s₀.BusyAt t ∧ ¬ s₀.IdleAt t ∧ ¬ m.journal.log.AllFinished) := by
  obtain ⟨-, m, hsettle, hbusy, hidle, hmetrics, hiff⟩ := h.step hnext
  have hafter : runFor (t + 1) s₀ = .running next := (runFor_succ_of_running hreached).trans hnext
  refine ⟨m, hsettle, ?_⟩
  cases hrun : next.machine.running with
  | none =>
    rw [hrun] at hmetrics
    have hsame : next.machine.metrics.busyTicks = s.machine.metrics.busyTicks := by
      rw [hmetrics, ← hbusy]
      rfl
    refine Or.inl ⟨⟨s, next, hreached, hafter, by rw [hmetrics, ← hidle]; rfl⟩, ?_, hiff.mp hrun⟩
    rintro ⟨s₁, next₁, hreached₁, hafter₁, hmore⟩
    obtain rfl := TickOutcome.running.inj (hreached.symm.trans hreached₁)
    obtain rfl := TickOutcome.running.inj (hafter.symm.trans hafter₁)
    omega
  | some slot =>
    rw [hrun] at hmetrics
    have hsame : next.machine.metrics.idleTicks = s.machine.metrics.idleTicks := by
      rw [hmetrics, ← hidle]
      rfl
    refine Or.inr ⟨⟨s, next, hreached, hafter, by rw [hmetrics, ← hbusy]; rfl⟩, ?_, fun hall => ?_⟩
    · rintro ⟨s₁, next₁, hreached₁, hafter₁, hmore⟩
      obtain rfl := TickOutcome.running.inj (hreached.symm.trans hreached₁)
      obtain rfl := TickOutcome.running.inj (hafter.symm.trans hafter₁)
      omega
    · rw [hiff.mpr hall] at hrun
      exact absurd hrun (by simp)

theorem start_reconciled (hc : c.Valid) (w : Workload) :
    ∃ s, start c w = .ok s ∧ s.Reconciled (latestArrival w) (totalRunTime w) := by
  obtain ⟨s, hstart, hongoing, -, -, htable, hjournal, -⟩ := start_ongoing hc w
  refine ⟨s, hstart, hongoing, fun id => ?_⟩
  rw [liveIds, htable, hjournal]
  rfl

theorem Reconciled.reached (h : s₀.Reconciled latest total) (hrun : runFor n s₀ = .running s) :
    s.Reconciled latest total := by
  rcases runFor_induction (fun s next hs hnext => (Reconciled.step hs hnext).1) h n with
    ⟨last, -, -, hover⟩ | ⟨s', hs', hrun'⟩
  · exact absurd hrun (hover s)
  · exact TickOutcome.running.inj (hrun.symm.trans hrun') ▸ hs'

/-! ## Two runs -/

/-- Two runs of the same processes have the same load, and the same ticks have been counted in
both. -/
structure Abreast (s s' : Simulation) : Prop where
  tick : s'.tick = s.tick
  pending : s'.pending = s.pending
  load : s'.machine.load = s.machine.load
  busyTicks : s'.machine.metrics.busyTicks = s.machine.metrics.busyTicks
  idleTicks : s'.machine.metrics.idleTicks = s.machine.metrics.idleTicks

theorem Abreast.symm (h : s.Abreast s') : s'.Abreast s :=
  ⟨h.tick.symm, h.pending.symm, h.load.symm, h.busyTicks.symm, h.idleTicks.symm⟩

/-- What a tick burns does not depend on whose it is. -/
theorem Proper.load_reported (h : s.Proper c w) {reports : List UnitReport}
    (hr : Reported s.machine s.tick reports m) : m.load = s.machine.load - 1 := by
  have hongoing := h.underway.ongoing
  cases hrun : s.machine.running with
  | none =>
    have hlive := hongoing.busy hrun
    rw [Machine.load, table_reported hr hrun, Machine.load, hlive]
    rfl
  | some slot =>
    have hburnt := hongoing.timely.load_reported hongoing.sound hr hrun
    omega

/-- After the reports and the arrivals of a tick the load is that before it, less what it burns and
with what its arrivals bring. -/
theorem Settled.load_eq (h : s.Settled w m) (hs : s.Proper c w) :
    m.load = ((due s.pending s.tick).map Process.runTime).sum + (s.machine.load - 1) := by
  obtain ⟨reports, m₁, hreported, hperm⟩ := h.arrived
  rw [Machine.load_eq, hperm.sum_nat, List.sum_append, ← Machine.load_eq, hs.load_reported hreported]

/-- Somebody is left after the reports and the arrivals of a tick, unless nothing is left to go and
nobody is still to come. -/
theorem Settled.outstanding_iff (h : s.Settled w m) :
    m.outstanding = 0 ↔ m.load = 0 ∧ notDue s.pending s.tick = [] := by
  have hnil := Backlog.eq_nil_iff_sum h.positive
  rw [h.outstanding, Machine.load_eq, ← hnil, ← List.length_eq_zero_iff, ← List.length_eq_zero_iff]
  omega

/-- **Two runs that are abreast before a tick come to an end together in it**, or are abreast before
the next one. -/
theorem Abreast.onward (h : s.Abreast s') (hs : s.Proper c w) (hs' : s'.Proper c' w)
    (hon : s.Onward w k m t) (hon' : s'.Onward w k' m' t') :
    (s.step = .finished m t ∧ m'.metrics.busyTicks = m.metrics.busyTicks ∧
        m'.metrics.idleTicks = m.metrics.idleTicks ∧ m'.metrics.finished = m.metrics.finished) ∨
      ∃ next next' j j', s.step = .running next ∧ s'.step = .running next' ∧ k = j + 1 ∧
        next.Abreast next' ∧ runFor j next = .finished m t ∧ runFor j' next' = .finished m' t' := by
  have hsame : ∀ {m m'}, s.Settled w m → s'.Settled w m' →
      m'.load = m.load ∧ (m.outstanding = 0 ↔ m'.outstanding = 0) := by
    intro m m' hm hm'
    have hload : m'.load = m.load := by
      rw [hm.load_eq hs, hm'.load_eq hs', h.pending, h.tick, h.load]
    exact ⟨hload, by rw [hm.outstanding_iff, hm'.outstanding_iff, hload, h.pending, h.tick]⟩
  cases hon with
  | last hsettled hdone hover =>
    cases hon' with
    | last hsettled' hdone' hover' =>
      have hall := hsettled.finished
      have hall' := hsettled'.finished
      refine Or.inl ⟨hover, ?_, ?_, by omega⟩
      · rw [hsettled.busyTicks, hsettled'.busyTicks, h.busyTicks]
      · rw [hsettled.idleTicks, hsettled'.idleTicks, h.idleTicks]
    | more m₂' next' j' hsettled' hleft' =>
      exact absurd ((hsame hsettled hsettled').2.mp hdone) hleft'
  | more m₂ next j hsettled hleft hturn hbacklog hnext hpending htick hk hend hmetrics =>
    cases hon' with
    | last hsettled' hdone' hover' =>
      exact absurd ((hsame hsettled hsettled').2.mpr hdone') hleft
    | more m₂' next' j' hsettled' hleft' hturn' hbacklog' hnext' hpending' htick' hk' hend'
        hmetrics' =>
      have hload : next'.machine.load = next.machine.load :=
        (hbacklog'.sum_nat.trans (hsame hsettled hsettled').1).trans hbacklog.sum_nat.symm
      have hafter := (hs.step hnext).underway.ongoing
      have hafter' := (hs'.step hnext').underway.ongoing
      have hrun := hafter.sound.running_iff hafter.timely hafter.busy
      have hrun' := hafter'.sound.running_iff hafter'.timely hafter'.busy
      have hbusy : next'.machine.running.isSome = next.machine.running.isSome := by
        rw [Bool.eq_iff_iff, hrun, hrun', hload]
      refine Or.inr ⟨next, next', j, j', hnext, hnext', hk, ⟨?_, ?_, hload, ?_, ?_⟩, hend, hend'⟩
      · rw [htick, htick', h.tick]
      · rw [hpending, hpending', h.pending, h.tick]
      · rw [hmetrics, hmetrics', hbusy]
        unfold Metrics.countTick
        split <;> simp [hsettled.busyTicks, hsettled'.busyTicks, h.busyTicks]
      · rw [hmetrics, hmetrics', hbusy]
        unfold Metrics.countTick
        split <;> simp [hsettled.idleTicks, hsettled'.idleTicks, h.idleTicks]

/-- Two runs that are abreast come to the same end. -/
theorem Abreast.finish (h : s.Abreast s') (hs : s.Proper c w) (hs' : s'.Proper c' w)
    (hend : runFor k s = .finished m t) (hend' : runFor k' s' = .finished m' t')
    (hnone : m.metrics.rejected = 0) (hnone' : m'.metrics.rejected = 0) :
    m'.metrics.busyTicks = m.metrics.busyTicks ∧ m'.metrics.idleTicks = m.metrics.idleTicks ∧
      m'.metrics.finished = m.metrics.finished := by
  induction k generalizing s s' k' with
  | zero => exact absurd hend (by simp [runFor])
  | succ k ih =>
    rcases h.onward hs hs' (hs.onward hend hnone) (hs'.onward hend' hnone') with
      ⟨-, hbusy, hidle, hfinished⟩ | ⟨next, next', j, j', hnext, hnext', hk, hafter, hend, hend'⟩
    · exact ⟨hbusy, hidle, hfinished⟩
    · obtain rfl : k = j := Nat.succ.inj hk
      exact ih hafter (hs.step hnext) (hs'.step hnext') hend hend'

/-- **As far as one of two runs goes that are abreast, the other one goes, too**, and they are
abreast there. -/
theorem Abreast.reached (h : s.Abreast s') (hs : s.Proper c w) (hs' : s'.Proper c' w)
    (hend : runFor k s = .finished m t) (hend' : runFor k' s' = .finished m' t')
    (hnone : m.metrics.rejected = 0) (hnone' : m'.metrics.rejected = 0)
    (hrun : runFor n s = .running s₁) : ∃ s₁', runFor n s' = .running s₁' ∧ s₁.Abreast s₁' := by
  induction n generalizing s s' k k' with
  | zero =>
    obtain rfl : s = s₁ := by simpa [runFor] using hrun
    exact ⟨s', rfl, h⟩
  | succ n ih =>
    rcases h.onward hs hs' (hs.onward hend hnone) (hs'.onward hend' hnone') with
      ⟨hover, -⟩ | ⟨next, next', j, j', hnext, hnext', -, hafter, hend, hend'⟩
    · rw [runFor, hover] at hrun
      exact absurd hrun (by simp)
    · rw [runFor, hnext] at hrun
      obtain ⟨s₁', hrun', hreached⟩ := ih hafter (hs.step hnext) (hs'.step hnext') hend hend' hrun
      exact ⟨s₁', by rw [runFor, hnext']; exact hrun', hreached⟩

/-- The same ticks are busy in two runs of which one goes as far as the other one, and abreast. -/
theorem busyAt_of_reached (hreach : ∀ n s₁, runFor n s = .running s₁ →
      ∃ s₁', runFor n s' = .running s₁' ∧ s₁.Abreast s₁') :
    (∀ t, s.BusyAt t → s'.BusyAt t) ∧ ∀ t, s.IdleAt t → s'.IdleAt t := by
  constructor
  · rintro t ⟨s₁, next, hrun, hnext, hmore⟩
    obtain ⟨s₁', hrun', hbefore⟩ := hreach t s₁ hrun
    obtain ⟨next', hnext', hafter⟩ := hreach (t + 1) next hnext
    exact ⟨s₁', next', hrun', hnext', by rw [hbefore.busyTicks, hafter.busyTicks, hmore]⟩
  · rintro t ⟨s₁, next, hrun, hnext, hmore⟩
    obtain ⟨s₁', hrun', hbefore⟩ := hreach t s₁ hrun
    obtain ⟨next', hnext', hafter⟩ := hreach (t + 1) next hnext
    exact ⟨s₁', next', hrun', hnext', by rw [hbefore.idleTicks, hafter.idleTicks, hmore]⟩

/-! ## Whole runs -/

/-- **No policy wastes a tick.**  In a run of any list of processes every tick that is counted is
counted once, as idle if everybody who has been admitted by its dispatch has finished, and as busy
otherwise.  So the same ticks are busy under any two policies, where neither run rejects anybody. -/
theorem run_conserves {c : Config} (hc : c.Valid) (w : Workload) :
    ∃ s₀, start c w = .ok s₀ ∧
      (∀ t next, runFor (t + 1) s₀ = .running next →
        ∃ s m, runFor t s₀ = .running s ∧ s.settle = .done () m ∧
          (s₀.IdleAt t ∧ ¬ s₀.BusyAt t ∧ m.journal.log.AllFinished ∨
            s₀.BusyAt t ∧ ¬ s₀.IdleAt t ∧ ¬ m.journal.log.AllFinished)) ∧
      ∀ (other : Policy) (ps : List Process) (r r' : Report),
        { c with policy := other }.Valid → Workload.ofList ps = .ok w → run c w = .ok r →
        run { c with policy := other } w = .ok r' → r.summary.rejected = 0 →
        r'.summary.rejected = 0 →
        ∃ s₀', start { c with policy := other } w = .ok s₀' ∧
          (∀ t, s₀.BusyAt t ↔ s₀'.BusyAt t) ∧ (∀ t, s₀.IdleAt t ↔ s₀'.IdleAt t) ∧
          r.summary.busyTicks = r'.summary.busyTicks ∧ r.summary.idleTicks = r'.summary.idleTicks ∧
          r.summary.totalTicks = r'.summary.totalTicks ∧ r.summary.finished = r'.summary.finished := by
  obtain ⟨s₀, hstart, hreconciled⟩ := start_reconciled hc w
  refine ⟨s₀, hstart, fun t next hnext => ?_, ?_⟩
  · cases hrun : runFor t s₀ with
    | running s =>
      have hstep := (runFor_succ_of_running hrun).symm.trans hnext
      obtain ⟨m, hsettle, hcounted⟩ := (hreconciled.reached hrun).counted hrun hstep
      exact ⟨s, m, rfl, hsettle, hcounted⟩
    | finished m t' =>
      rw [runFor_of_le (by simp [hrun]) (Nat.le_succ t), hrun] at hnext
      exact absurd hnext (by simp)
    | failed e m =>
      rw [runFor_of_le (by simp [hrun]) (Nat.le_succ t), hrun] at hnext
      exact absurd hnext (by simp)
  · intro other ps r r' hc' hw hr hr' hnone hnone'
    obtain ⟨s, hs₀, hs, htick, hpending, htable, -⟩ := start_proper hc hw
    obtain ⟨s', hstart', hs', htick', hpending', htable', -⟩ := start_proper hc' hw
    obtain rfl : s₀ = s := Except.ok.inj (hstart.symm.trans hs₀)
    obtain ⟨k, m, t, hend, -, rfl, -⟩ := hs.exists_finished hstart htick hr
    obtain ⟨k', m', t', hend', -, rfl, -⟩ := hs'.exists_finished hstart' htick' hr'
    have hcounts := hs.counted.figured.ticks
    have hcounts' := hs'.counted.figured.ticks
    rw [htick] at hcounts
    rw [htick'] at hcounts'
    have habreast : s₀.Abreast s' := by
      refine ⟨htick'.trans htick.symm, hpending'.trans hpending.symm, ?_, by omega, by omega⟩
      rw [Machine.load, Machine.load, htable, htable']
    obtain ⟨hbusy, hidle, hfinished⟩ := habreast.finish hs hs' hend hend' hnone hnone'
    have hthere := busyAt_of_reached fun _ _ =>
      habreast.reached hs hs' hend hend' hnone hnone'
    have hback := busyAt_of_reached fun _ _ =>
      habreast.symm.reached hs' hs hend' hend hnone' hnone
    refine ⟨s', hstart', fun t => ⟨hthere.1 t, hback.1 t⟩, fun t => ⟨hthere.2 t, hback.2 t⟩,
      hbusy.symm, hidle.symm, ?_, hfinished.symm⟩
    show m.metrics.busyTicks + m.metrics.idleTicks = m'.metrics.busyTicks + m'.metrics.idleTicks
    rw [hbusy, hidle]

/-- Two processes that need different times, and one that comes when both are gone for a while. -/
theorem run_conserves_gap :
    ∃ (c : Config) (w : Workload) (s₀ s₀' : Simulation) (r r' : Report),
      c.Valid ∧ { c with policy := .roundRobin 1 }.Valid ∧
      w.processes.map Process.id = [1, 2, 3] ∧ start c w = .ok s₀ ∧
      start { c with policy := .roundRobin 1 } w = .ok s₀' ∧ run c w = .ok r ∧
      run { c with policy := .roundRobin 1 } w = .ok r' ∧
      (r.summary.busyTicks, r.summary.idleTicks) = (5, 2) ∧ (∀ t, s₀.BusyAt t ↔ s₀'.BusyAt t) ∧
      r.summary.busyTicks = r'.summary.busyTicks ∧ r.summary.idleTicks = r'.summary.idleTicks := by
  let c : Config := { policy := .shortestRemainingTimeNext, readyCapacity := 2 }
  let w : Workload := ⟨[⟨1, 0, 3, 0, 100⟩, ⟨2, 1, 1, 0, 100⟩, ⟨3, 6, 1, 0, 100⟩]⟩
  have hw : Workload.ofList w.processes = .ok w := Workload.ofList_of_pairwise rfl (by decide)
  have hc : c.Valid := by decide
  have hc' : { c with policy := .roundRobin 1 }.Valid := by decide
  have hrun : ((run c w).toOption.map fun r =>
      (r.summary.rejected, r.summary.busyTicks, r.summary.idleTicks)) = some (0, 5, 2) := by
    decide +kernel
  have hrun' : ((run { c with policy := .roundRobin 1 } w).toOption.map fun r =>
      r.summary.rejected) = some 0 := by decide +kernel
  obtain ⟨r, hr, hfigures⟩ := exists_of_toOption_map hrun
  obtain ⟨r', hr', hnone'⟩ := exists_of_toOption_map hrun'
  obtain ⟨hnone, hticks⟩ := Prod.mk.inj hfigures
  obtain ⟨s₀, hstart, -, htwo⟩ := run_conserves hc w
  obtain ⟨s₀', hstart', hsame, -, hbusy, hidle, -⟩ :=
    htwo _ _ r r' hc' hw hr hr' hnone hnone'
  exact ⟨c, w, s₀, s₀', r, r', hc, hc', rfl, hstart, hstart', hr, hr', hticks, hsame, hbusy, hidle⟩

end Simulation
end Uniprocessor
