import Uniprocessor.Proofs.Journal.Figures
import Uniprocessor.Proofs.Machine.Settings
import Uniprocessor.Proofs.Simulation.Accounts

/-!
# The figures of a run

What a run counts is also in its log, though counted and logged in different places: finished
processes with their figures, rejections, and the ticks with and without a running process.  So the
summary of a run can be computed once more from the events of the run alone.

Finishes and rejections are counted when they are logged.  The ticks are counted one by one, at the
end of each, while the log has the times at which the processor changed hands; what ties them is the
time that the processor was held (`held`), which grows by one in every tick that is counted as busy.
The last tick is not counted any more, since it is the one in which the last process was done with.

* `Machine.Noted`: what the reports and the arrivals of a tick count and log;
* `Machine.Figured`: the figures of a machine so far are those of its log;
* `Simulation.run_figures`: **the figures of a run are those of its log.**
-/

namespace Uniprocessor

namespace Machine

variable {m m' m'' : Machine} {tick t : Tick} {slot : Slot} {p : Process}
  {es es' : List ProcessEvent} {ms ms' : List MemoryEvent}

/-! ## Counting and logging -/

/-- From `m` to `m'` the given events of a tick have been logged, and counted as far as they are
finishes and rejections. -/
structure Noted (tick : Tick) (es : List ProcessEvent) (ms : List MemoryEvent) (m m' : Machine) :
    Prop where
  log : m'.journal.log = m.journal.log.extend es ms
  process_tick : ∀ e ∈ es, e.tick = tick
  memory_tick : ∀ e ∈ ms, e.tick = tick
  /-- Every finish is logged with its figures. -/
  rated : ∀ e ∈ es, e.Rated
  finishes : m'.metrics.finishes.toList = m.metrics.finishes.toList ++
    es.filterMap ProcessEvent.finish?
  rejected : m'.metrics.rejected = m.metrics.rejected + ms.countP MemoryEvent.rejects
  busyTicks : m'.metrics.busyTicks = m.metrics.busyTicks
  idleTicks : m'.metrics.idleTicks = m.metrics.idleTicks
  /-- Only those who have finished or were rejected are not awaited any longer. -/
  outstanding : m.outstanding ≤ m'.outstanding +
    (es.countP ProcessEvent.finishes + ms.countP MemoryEvent.rejects)

/-- Nothing is logged and nothing counted. -/
theorem Noted.nothing (hlog : m'.journal.log = m.journal.log) (hmetrics : m'.metrics = m.metrics)
    (houtstanding : m'.outstanding = m.outstanding) : Noted tick [] [] m m' where
  log := hlog.trans (EventLog.extend_nil _).symm
  process_tick := fun _ he => absurd he List.not_mem_nil
  memory_tick := fun _ he => absurd he List.not_mem_nil
  rated := fun _ he => absurd he List.not_mem_nil
  finishes := hmetrics ▸ (List.append_nil _).symm
  rejected := congrArg Metrics.rejected hmetrics
  busyTicks := congrArg Metrics.busyTicks hmetrics
  idleTicks := congrArg Metrics.idleTicks hmetrics
  outstanding := houtstanding.ge

theorem Noted.trans (h : Noted tick es ms m m') (h' : Noted tick es' ms' m' m'') :
    Noted tick (es ++ es') (ms ++ ms') m m'' where
  log := by rw [h'.log, h.log, EventLog.extend_extend]
  process_tick := List.forall_mem_append.mpr ⟨h.process_tick, h'.process_tick⟩
  memory_tick := List.forall_mem_append.mpr ⟨h.memory_tick, h'.memory_tick⟩
  rated := List.forall_mem_append.mpr ⟨h.rated, h'.rated⟩
  finishes := by rw [h'.finishes, h.finishes, List.filterMap_append, List.append_assoc]
  rejected := by rw [h'.rejected, h.rejected, List.countP_append, Nat.add_assoc]
  busyTicks := h'.busyTicks.trans h.busyTicks
  idleTicks := h'.idleTicks.trans h.idleTicks
  outstanding := by
    have hfirst := h.outstanding
    have hsecond := h'.outstanding
    rw [List.countP_append, List.countP_append]
    omega

/-- The end of a process in a tick is logged and counted. -/
theorem noted_retired (m : Machine) (tick : Tick) (slot : Slot) (b : ControlBlock) (u : UnitId)
    (memory : Buddy) :
    Noted tick [Scheduler.finishEvent { b with remaining := 0, state := .finished } tick]
      [.ofBlock b.id tick .freed b.memory] m ((m.advance tick).2.retired tick slot b u memory) := by
  refine ⟨log_retired _ tick slot b u memory, List.forall_mem_singleton.mpr rfl,
    List.forall_mem_singleton.mpr rfl, List.forall_mem_singleton.mpr rfl, ?_, rfl, rfl, rfl, ?_⟩
  · exact Array.toList_push ..
  · show m.outstanding ≤ m.outstanding - 1 + (1 + 0)
    omega

/-- The reports of a tick log and count at most one finish. -/
theorem Reported.noted {reports : List UnitReport} (hr : Reported m tick reports m') :
    ∃ es ms, Noted tick es ms m m' := by
  cases hr with
  | quiet hquiet => exact ⟨[], [], Noted.nothing rfl rfl rfl⟩
  | progress slot b u c hrun hslot hunit hc hcounts hleft => exact ⟨[], [], Noted.nothing rfl rfl rfl⟩
  | finished slot b u c memory hrun hslot hunit hc hcounts hleft =>
    exact ⟨_, _, noted_retired m tick slot b u memory⟩

/-- A rejection is logged and counted. -/
theorem noted_rejected (m : Machine) (tick : Tick) (p : Process) :
    Noted tick [] [⟨tick, p.id, .rejected, p.memory, none⟩] m
      (m.withScheduler (m.reject tick p)) := by
  refine ⟨Journal.log_add_memory _ _, fun _ he => absurd he List.not_mem_nil,
    List.forall_mem_singleton.mpr rfl, fun _ he => absurd he List.not_mem_nil,
    (List.append_nil _).symm, rfl, rfl, rfl, ?_⟩
  show m.outstanding ≤ m.outstanding - 1 + (0 + 1)
  omega

/-- An admission is logged. -/
theorem noted_admitted (m : Machine) (tick : Tick) (p : Process) (block : Buddy.Block)
    (memory : Buddy) (table : ProcessTable) (ready : ReadyQueue) :
    Noted tick [] [.ofBlock p.id tick .allocated block] m
      (m.withScheduler { m.toScheduler with
        memory := memory
        table := table
        ready := ready
        journal := m.journal.add (.memory (.ofBlock p.id tick .allocated block)) }) :=
  ⟨Journal.log_add_memory _ _, fun _ he => absurd he List.not_mem_nil,
    List.forall_mem_singleton.mpr rfl, fun _ he => absurd he List.not_mem_nil,
    (List.append_nil _).symm, rfl, rfl, rfl, Nat.le_refl _⟩

/-- An arrival logs and counts at most a rejection. -/
theorem noted_arrival {admission : Admission} {s : Scheduler}
    (ha : m.toScheduler.Arrival tick p (.done admission s)) :
    ∃ es ms, Noted tick es ms m (m.withScheduler s) := by
  cases ha with
  | rejected hpos hmemory => exact ⟨_, _, noted_rejected m tick p⟩
  | admitted block memory ready hpos hmemory hready hperm =>
    exact ⟨_, _, noted_admitted m tick p block memory _ ready⟩

/-! ## The figures so far -/

/-- The figures of a machine are those of its log, at a tick that has not been counted yet. -/
structure Figured (m : Machine) (t : Tick) : Prop where
  rated : ∀ e ∈ m.journal.log.process, e.Rated
  finishes : m.metrics.finishes.toList = m.journal.log.finishes
  rejected : m.metrics.rejected = m.journal.log.memory.countP MemoryEvent.rejects
  busyTicks : m.metrics.busyTicks = held m.journal.log.process t
  ticks : m.metrics.busyTicks + m.metrics.idleTicks = t

theorem Figured.figured (h : m.Figured t) :
    ∀ e ∈ m.journal.log.process, e.finishes = true → e.finish?.isSome = true :=
  fun e he hfinish => (h.rated e he).isSome_finish? hfinish

/-- The figures count the finishes of the log. -/
theorem Figured.finished_eq (h : m.Figured t) :
    m.metrics.finished = m.journal.log.process.countP ProcessEvent.finishes := by
  have hlen := congrArg List.length (EventLog.map_finish? h.figured)
  rw [List.length_map, List.length_map, ← List.countP_eq_length_filter, ← h.finishes] at hlen
  exact hlen.symm

theorem Figured.noted (h : m.Figured t) (hnoted : Noted t es ms m m') : m'.Figured t := by
  refine ⟨?_, ?_, ?_, ?_, ?_⟩
  · rw [hnoted.log]
    exact List.forall_mem_append.mpr ⟨h.rated, hnoted.rated⟩
  · rw [hnoted.finishes, hnoted.log, h.finishes]
    exact List.filterMap_append.symm
  · rw [hnoted.rejected, hnoted.log, h.rejected]
    exact List.countP_append.symm
  · rw [hnoted.busyTicks, hnoted.log, h.busyTicks]
    exact (held_append_of_tick hnoted.process_tick).symm
  · rw [hnoted.busyTicks, hnoted.idleTicks]
    exact h.ticks

/-- The processor is taken exactly if somebody has not been released. -/
theorem Sound.length_unreleased (h : m.Sound []) (hrota : Rota m.journal.log.process m.current?) :
    (unreleased m.journal.log.process).length = if m.running.isSome then 1 else 0 := by
  rw [← List.length_map, hrota.map_unreleased]
  cases hrun : m.running with
  | none =>
    rw [current?_of_idle hrun]
    rfl
  | some slot =>
    obtain ⟨b, hslot⟩ := h.scheduler.running_live hrun
    rw [current?_of_running hrun hslot]
    rfl

/-- The figures of a machine that nobody holds, at the tick at which the last process was done with,
can be counted once more from its log. -/
theorem Figured.recounted (h : m.Figured t) (hreleased : unreleased m.journal.log.process = [])
    (hlast : m.journal.log.lastEnding = t) {all : List Process}
    (hheld : held m.journal.log.process t =
      ((all.filter m.journal.log.hasFinished).map Process.runTime).sum) :
    m.metrics.Recounted m.journal.log all := by
  have hbusy : m.metrics.busyTicks = m.journal.log.busyTicks :=
    h.busyTicks.trans (held_eq_tenures hreleased _)
  have hticks := h.ticks
  rw [← hlast] at hticks
  have hidle : m.metrics.idleTicks = m.journal.log.lastEnding - m.journal.log.busyTicks := by
    rw [← hbusy, ← hticks, Nat.add_sub_cancel_left]
  have hfinishes := EventLog.map_finish? h.figured
  rw [← h.finishes] at hfinishes
  obtain ⟨hwaiting, hturnaround, hweighted⟩ := EventLog.figures_of_map_finish? hfinishes
  exact {
    eq_metrics := by
      rw [EventLog.metrics, ← hidle, ← hbusy, ← h.rejected, ← h.finishes, Array.toArray_toList]
    finishes := hfinishes
    finished := h.finished_eq
    rejected := h.rejected
    totalWaiting := congrArg List.sum hwaiting
    totalTurnaround := congrArg List.sum hturnaround
    waitingWord := by
      rw [Metrics.waitingWord, Metrics.wordSum_eq, hwaiting]
      rfl
    turnaroundWord := by
      rw [Metrics.turnaroundWord, Metrics.wordSum_eq, hturnaround]
      rfl
    weighted := hweighted
    busyTicks := h.busyTicks.trans hheld
    spans := ⟨_, map_fst_tenures hreleased, fun d e => mem_tenures, hbusy⟩
    totalTicks := hticks }

/-- **The end of a tick counts what the log says of it.** -/
theorem Figured.turn (h : m.Figured t) (hturn : Turn m t m') (hrun : m.runTick t = .done () m')
    (hsound : m'.Sound []) (hrota : Rota m'.journal.log.process m'.current?)
    (hbefore : ∀ e ∈ m'.journal.log.process, e.tick < t + 1) : m'.Figured (t + 1) := by
  obtain ⟨es, hlog, hes⟩ := hturn.log
  obtain ⟨-, -, hmetrics⟩ := runTick_counted hrun
  have hnone : es.filterMap ProcessEvent.finish? = [] := by
    refine List.filterMap_eq_nil_iff.mpr fun e he => if_neg ?_
    simpa [ProcessEvent.finishes] using (hes e he).2.1
  have hheld : held m'.journal.log.process t = held m.journal.log.process t := by
    rw [hlog]
    exact held_append_of_tick fun e he => (hes e he).1
  have hsucc := held_succ fun e he => Nat.le_of_lt_succ (hbefore e he)
  rw [hsound.length_unreleased hrota, hheld, ← h.busyTicks] at hsucc
  have hticks := h.ticks
  refine ⟨?_, ?_, ?_, ?_, ?_⟩
  · rw [hlog]
    exact List.forall_mem_append.mpr ⟨h.rated, fun e he => (hes e he).2.2⟩
  · rw [hmetrics, Metrics.finishes_countTick, h.finishes, hlog, EventLog.finishes,
      EventLog.finishes, EventLog.extend, List.filterMap_append, hnone, List.append_nil]
  · rw [hmetrics, Metrics.rejected_countTick, h.rejected, hlog, EventLog.extend, List.append_nil]
  · rw [hsucc, hmetrics]
    unfold Metrics.countTick
    split <;> rfl
  · rw [hmetrics]
    unfold Metrics.countTick
    dsimp only [Tick] at *
    split
    · show m.metrics.busyTicks + 1 + m.metrics.idleTicks = t + 1
      omega
    · show m.metrics.busyTicks + (m.metrics.idleTicks + 1) = t + 1
      omega

end Machine

namespace Simulation

open Machine

variable {m m' : Machine} {ps all : List Process} {s : Simulation} {tick latest : Tick} {total : Nat}

theorem LetIn.noted (h : LetIn tick m ps m') : ∃ es ms, Noted tick es ms m m' := by
  induction h with
  | nil m => exact ⟨[], [], Noted.nothing rfl rfl rfl⟩
  | cons ha hsound hrest ih =>
    obtain ⟨es, ms, hfirst⟩ := noted_arrival ha
    obtain ⟨es', ms', hlater⟩ := ih
    exact ⟨es ++ es', ms ++ ms', hfirst.trans hlater⟩

/-- What holds before every tick of a run of the processes `all`: the books are kept, and the figures
are those of the log. -/
structure Counted (s : Simulation) (latest : Tick) (total : Nat) (all : List Process) : Prop where
  kept : s.Kept latest total all
  figured : s.machine.Figured s.tick
  left : s.machine.outstanding ≠ 0 ∨ s.tick = 0 ∧ all = []

theorem start_counted {c : Config} (hc : c.Valid) {w : Workload}
    (hw : (w.processes.map Process.id).Nodup) : ∃ s, start c w = .ok s ∧
      s.Counted (latestArrival w) (totalRunTime w) w.processes ∧ s.tick = 0 := by
  obtain ⟨s, hstart, hkept, htick⟩ := start_kept hc hw
  obtain rfl := Except.ok.inj ((start_eq hc w).symm.trans hstart)
  refine ⟨_, hstart, ⟨hkept, ⟨fun _ he => absurd he List.not_mem_nil, rfl, rfl, rfl, rfl⟩, ?_⟩, rfl⟩
  show w.processes.length ≠ 0 ∨ 0 = 0 ∧ w.processes = []
  by_cases hnone : w.processes = []
  · exact Or.inr ⟨rfl, hnone⟩
  · exact Or.inl fun hzero => hnone (List.length_eq_zero_iff.mp hzero)

theorem Counted.step (h : s.Counted latest total all) {next : Simulation}
    (hnext : s.step = .running next) : next.Counted latest total all := by
  have hkept := h.kept.step hnext
  obtain ⟨_, _, hrecorded⟩ := hkept.recorded
  have ht := step_ticked h.kept.ongoing.sound
  rw [hnext] at ht
  obtain ⟨-, hleft, -⟩ := h.kept.ongoing.step ht
  cases ht with
  | running hreported hsound₁ hletIn hsound₂ hdone hturn hsound₃ hrun =>
    obtain ⟨es, ms, hnoted⟩ := hreported.noted
    obtain ⟨es', ms', hnoted'⟩ := hletIn.noted
    exact ⟨hkept, (h.figured.noted (hnoted.trans hnoted')).turn hturn hrun hsound₃ hrecorded.rota
      hrecorded.chronological.process_before, Or.inl hleft⟩

/-- The last tick is one in which somebody was done with. -/
theorem Counted.lastEnding_eq (h : s.Counted latest total all) {m₁ m₂ : Machine}
    {reports : List UnitReport} (hreported : Reported s.machine s.tick reports m₁)
    (hletIn : LetIn s.tick m₁ (due s.pending s.tick) m₂) (hdone : m₂.outstanding = 0)
    {seen : List Process} (hseen : seen ++ notDue s.pending s.tick = all) {g : Tick}
    (hrecorded : m₂.Recorded seen (s.tick + 1) g) :
    m₂.journal.log.lastEnding = s.tick := by
  refine EventLog.lastEnding_eq ?_ ?_
  · intro x hx
    rcases List.mem_append.mp hx with hx | hx
    · obtain ⟨e, he, rfl⟩ := List.mem_map.mp hx
      exact Nat.le_of_lt_succ
        (hrecorded.chronological.process_before e (List.mem_filter.mp he).1)
    · obtain ⟨e, he, rfl⟩ := List.mem_map.mp hx
      exact Nat.le_of_lt_succ
        (hrecorded.chronological.memory_before e (List.mem_filter.mp he).1)
  rcases h.left with hleft | ⟨htick, rfl⟩
  · obtain ⟨es, ms, hnoted⟩ := hreported.noted
    obtain ⟨es', ms', hnoted'⟩ := hletIn.noted
    have hall := hnoted.trans hnoted'
    have hended := hall.outstanding
    left
    rw [hall.log]
    have hone : 0 < (es ++ es').countP ProcessEvent.finishes ∨
        0 < (ms ++ ms').countP MemoryEvent.rejects := by omega
    rcases hone with hone | hone
    · obtain ⟨e, he, hfinish⟩ := List.countP_pos_iff.mp hone
      refine List.mem_append_left _ (List.mem_map.mpr ⟨e, List.mem_filter.mpr ⟨?_, hfinish⟩,
        hall.process_tick e he⟩)
      exact List.mem_append_right _ he
    · obtain ⟨e, he, hreject⟩ := List.countP_pos_iff.mp hone
      refine List.mem_append_right _ (List.mem_map.mpr ⟨e, List.mem_filter.mpr ⟨?_, hreject⟩,
        hall.memory_tick e he⟩)
      exact List.mem_append_right _ he
  · -- there was nobody to wait for
    obtain ⟨rfl, -⟩ := List.append_eq_nil_iff.mp hseen
    have hprocess : m₂.journal.log.process = [] := List.eq_nil_iff_forall_not_mem.mpr fun e he =>
      List.not_mem_nil (hrecorded.chronicle.process_known e he)
    have hmemory : m₂.journal.log.memory = [] := List.eq_nil_iff_forall_not_mem.mpr fun e he =>
      List.not_mem_nil (hrecorded.chronicle.memory_known e he)
    exact Or.inr ⟨htick, by rw [EventLog.endings, hprocess, hmemory]; rfl⟩

/-- **When nobody is left, the figures can be counted once more from the log.** -/
theorem Counted.finish (h : s.Counted latest total all) {t : Tick}
    (hfinish : s.step = .finished m t) : m.metrics.Recounted m.journal.log all := by
  have hcomplete := h.kept.finish hfinish
  obtain ⟨-, hlive, -⟩ := h.kept.ongoing.nobody_left hfinish
  have ht := step_ticked h.kept.ongoing.sound
  rw [hfinish] at ht
  cases ht with
  | finished hreported hsound₁ hletIn hsound₂ hdone =>
    obtain ⟨seen, hseen, hrecorded, -⟩ := h.kept.settled hreported hsound₁ hletIn
    obtain ⟨es, ms, hnoted⟩ := hreported.noted
    obtain ⟨es', ms', hnoted'⟩ := hletIn.noted
    have hfigured := h.figured.noted (hnoted.trans hnoted')
    have hlast := h.lastEnding_eq hreported hletIn hdone hseen hrecorded
    have hidle : m.running = none := by
      refine Option.eq_none_iff_forall_ne_some.mpr fun slot hrun => ?_
      obtain ⟨b, hslot⟩ := hsound₂.scheduler.running_live hrun
      exact List.not_mem_nil (hlive ▸ ProcessTable.mem_toList.mpr ⟨slot, hslot⟩)
    have hreleased : unreleased m.journal.log.process = [] := by
      have hlen := hsound₂.length_unreleased hrecorded.rota
      rw [hidle] at hlen
      exact List.length_eq_zero_iff.mp hlen
    refine hfigured.recounted hreleased hlast ?_
    refine EventLog.held_eq h.kept.distinct hcomplete.gone (fun e he => ?_) _
    obtain ⟨p, hp, hid⟩ := hcomplete.known e he
    exact hid ▸ List.mem_map_of_mem hp

/-- **The figures of a run are those of its log.**  What has been counted, and every figure of the
summary, is what the events say: who has finished, with which figures, how many were rejected, how
long the processor was busy, and when the last process was done with. -/
theorem run_figures {c : Config} (hc : c.Valid) {ps : List Process} {w : Workload}
    (hw : Workload.ofList ps = .ok w) {r : Report} (hr : run c w = .ok r) :
    ∃ m t, Simulation.finish c w = .ok (.finished m t) ∧ r = m.report ∧
      m.metrics.Recounted r.events w.processes ∧ r.summary.Recounted r.events w.processes := by
  obtain ⟨-, -, hdistinct⟩ := Workload.ofList_ok hw
  obtain ⟨s₀, hstart, hcounted, htick⟩ := start_counted hc hdistinct
  obtain ⟨last, -, hlast, hover, -, hfinish, hresult⟩ :=
    exists_end (fun s next hs hnext => Counted.step hs hnext) hcounted hcounted.kept.ongoing hstart
      htick
  rw [hr] at hresult
  cases hout : last.step with
  | running next => exact absurd hout (hover next)
  | failed e m =>
    rw [hout] at hresult
    exact absurd hresult (by simp [TickOutcome.result])
  | finished m t =>
    rw [hout] at hresult hfinish
    obtain rfl := Except.ok.inj hresult
    have hrecounted := hlast.finish hout
    exact ⟨m, t, hfinish, rfl, hrecounted, hrecounted.summary⟩

/-- Two processes take turns, and a third one is rejected after a while without anybody. -/
theorem run_figures_turns :
    ∃ c ps w r, Config.Valid c ∧ Workload.ofList ps = .ok w ∧ run c w = .ok r ∧
      w.processes.map Process.id = [1, 2, 3] ∧ r.events.busyTicks = 4 ∧ r.events.lastEnding = 9 ∧
      (r.summary.totalTicks, r.summary.busyTicks, r.summary.idleTicks) = (9, 4, 5) ∧
      (r.summary.finished, r.summary.rejected) = (2, 1) ∧
      (∃ m t, Simulation.finish c w = .ok (.finished m t) ∧
        m.metrics.Recounted r.events w.processes) ∧
      r.summary.Recounted r.events w.processes := by
  have hc : ({ policy := .roundRobin 1, readyCapacity := 2 } : Config).Valid := by decide
  have hw : Workload.ofList [⟨1, 0, 2, 0, 100⟩, ⟨2, 0, 2, 0, 100⟩, ⟨3, 9, 1, 0, 5000⟩] = .ok ⟨_⟩ :=
    Workload.ofList_of_pairwise rfl (by decide)
  obtain ⟨m, t, hfinish, -, hrecounted, hsummary⟩ := run_figures hc hw rfl
  exact ⟨_, _, _, _, hc, hw, rfl, rfl, rfl, rfl, rfl, rfl, ⟨m, t, hfinish, hrecounted⟩, hsummary⟩

end Simulation
end Uniprocessor
