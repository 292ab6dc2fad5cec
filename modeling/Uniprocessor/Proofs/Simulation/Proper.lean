import Uniprocessor.Proofs.Journal.Finishes
import Uniprocessor.Proofs.Simulation.Figures
import Uniprocessor.Proofs.Simulation.Outcome

/-!
# Runs of workloads

What holds before every tick of a run of a workload: everybody is expected, live or done with, and
the figures are those of the log.

Where a run comes to an end without a rejection, nobody has been rejected in any tick before.  Then
the work that is left is known at every tick, whoever has been served: what a tick burns and what
its arrivals bring.  So runs that reject nobody can be gone through tick by tick, side by side.

* `Simulation.Proper`: what holds before every tick;
* `Simulation.start_proper`, `Proper.exists_finished`: a run from its start to its end;
* `Simulation.Settled`: a machine after the reports and the arrivals of a tick that rejects nobody;
* `Simulation.Onward`: a tick of a run that comes to an end and rejects nobody.
-/

namespace Uniprocessor

namespace Machine

variable {m m' : Machine} {tick : Tick}

theorem rejected_reported {reports : List UnitReport} (hr : Reported m tick reports m') :
    m'.metrics.rejected = m.metrics.rejected := by
  cases hr <;> rfl

theorem rejected_runTick (h : m.runTick tick = .done () m') :
    m'.metrics.rejected = m.metrics.rejected := by
  rw [(runTick_counted h).2.2, Metrics.rejected_countTick]

end Machine

namespace Simulation

open Machine Backlog

variable {m m' : Machine} {ps : List Process} {s s' next : Simulation} {tick t : Tick}
  {c : Config} {w : Workload} {k : Nat}

/-! ## Before every tick -/

/-- What holds before every tick of a run: its figures are those of its log, and everybody is
expected, live or done with. -/
structure Proper (s : Simulation) (c : Config) (w : Workload) : Prop where
  counted : s.Counted (latestArrival w) (totalRunTime w) w.processes
  underway : s.Underway c w

theorem Proper.step (h : s.Proper c w) (hnext : s.step = .running next) : next.Proper c w :=
  ⟨h.counted.step hnext, h.underway.step hnext⟩

theorem start_proper (hc : c.Valid) (hw : Workload.ofList ps = .ok w) :
    ∃ s, start c w = .ok s ∧ s.Proper c w ∧ s.tick = 0 ∧ s.pending = w.processes ∧
      s.machine.table = .empty ∧ s.machine.journal = .empty ∧ s.machine.running = none ∧
      s.machine.ready = .ofPolicy c.policy c.readyCapacity := by
  obtain ⟨-, hpos, hdistinct⟩ := Workload.ofList_ok hw
  obtain ⟨s, hstart, hcounted, htick⟩ := start_counted hc hdistinct
  obtain ⟨s', hstart', hunderway, -⟩ := start_underway hc hpos
  obtain rfl : s = s' := Except.ok.inj (hstart.symm.trans hstart')
  refine ⟨s, hstart, ⟨hcounted, hunderway⟩, htick, ?_⟩
  obtain rfl := Except.ok.inj ((start_eq hc w).symm.trans hstart)
  exact ⟨rfl, rfl, rfl, rfl, rfl⟩

/-- The processes that are still to come are the last ones of the workload. -/
theorem Proper.pending_suffix (h : s.Proper c w) : s.pending <:+ w.processes := by
  obtain ⟨seen, hall, -⟩ := h.counted.kept.recorded
  exact ⟨seen, hall⟩

/-- In the order of arrival, nobody comes before the first one. -/
theorem le_arrival_of_head (hsorted : ps.Pairwise fun p q => p.arrival ≤ q.arrival)
    (hfirst : ∀ p ∈ ps.head?, tick ≤ p.arrival) : ∀ p ∈ ps, tick ≤ p.arrival := by
  cases ps with
  | nil => exact fun _ hp => absurd hp List.not_mem_nil
  | cons q qs =>
    have hq := hfirst q rfl
    exact List.forall_mem_cons.mpr ⟨hq, fun p hp => hq.trans ((List.pairwise_cons.mp hsorted).1 p hp)⟩

/-- In the order of arrival, whoever is due has just arrived. -/
theorem Proper.arrival_eq (h : s.Proper c w)
    (hsorted : w.processes.Pairwise fun p q => p.arrival ≤ q.arrival) :
    ∀ p ∈ due s.pending s.tick, p ∈ w.processes ∧ p.arrival = s.tick := by
  have hcoming := h.pending_suffix
  have hle := le_arrival_of_head (hsorted.sublist hcoming.sublist) h.underway.ongoing.upcoming
  intro p hp
  have hmem : p ∈ s.pending := (List.takeWhile_sublist _).subset hp
  exact ⟨hcoming.subset hmem, Nat.le_antisymm (arrival_le_of_due hp) (hle p hmem)⟩

/-- A run that was not refused has come to an end, with a log of everybody and its figures. -/
theorem Proper.exists_finished {c : Config} {w : Workload} (h : s.Proper c w)
    (hstart : start c w = .ok s) (htick : s.tick = 0) {r : Report} (hr : run c w = .ok r) :
    ∃ k m t, runFor k s = .finished m t ∧ finish c w = .ok (.finished m t) ∧ r = m.report ∧
      m.journal.log.Complete w.processes ∧ m.metrics.Recounted m.journal.log w.processes := by
  obtain ⟨last, m, t, hlast, hout, hend, hfinish, rfl⟩ :=
    exists_finish (fun s next hs hnext => Proper.step hs hnext) h h.underway.ongoing hstart htick hr
  exact ⟨last.tick + 1, m, t, hend, hfinish, rfl, hlast.counted.kept.finish hout,
    hlast.counted.finish hout⟩

/-! ## Nobody is rejected -/

theorem LetIn.rejected_le (h : LetIn tick m ps m') : m.metrics.rejected ≤ m'.metrics.rejected := by
  induction h with
  | nil m => exact Nat.le_refl _
  | cons ha hsound hrest ih =>
    refine Nat.le_trans ?_ ih
    cases ha with
    | rejected hpos hmemory => exact Nat.le_succ _
    | admitted block memory ready hpos hmemory hready hperm => exact Nat.le_refl _

/-- Arrivals of which none is rejected add their run times to the backlog. -/
theorem LetIn.backlog_perm (h : LetIn tick m ps m') (hm : m.Sound [])
    (hnone : m'.metrics.rejected = m.metrics.rejected) :
    m'.backlog.Perm (ps.map Process.runTime ++ m.backlog) := by
  induction h with
  | nil m => exact List.Perm.refl _
  | @cons m m' p ps admission s ha hsound hrest ih =>
    have hle := hrest.rejected_le
    cases ha with
    | rejected hpos hmemory =>
      have hmore : m.metrics.rejected + 1 ≤ m'.metrics.rejected := hle
      omega
    | admitted block memory ready hpos hmemory hready hperm =>
      have hinsert := (ProcessTable.toList_insert hm.scheduler.table (.ofProcess p block)).map
        ControlBlock.remaining
      exact ((ih hsound hnone).trans (hinsert.append_left _)).trans List.perm_middle

/-- In the end there are no fewer rejections than now. -/
theorem Ongoing.rejected_le {latest : Tick} {total : Nat} (h : s.Ongoing latest total)
    (hend : runFor k s = .finished m t) : s.machine.metrics.rejected ≤ m.metrics.rejected := by
  induction k generalizing s with
  | zero => exact absurd hend (by simp [runFor])
  | succ k ih =>
    have ht := step_ticked h.sound
    rcases runFor_succ_eq_finished hend with hlast | ⟨next, hnext, hrest⟩
    · rw [hlast] at ht
      cases ht with
      | finished hreported hsound₁ hletIn hsound₂ hdone =>
        exact (rejected_reported hreported).ge.trans hletIn.rejected_le
    · rw [hnext] at ht
      refine Nat.le_trans ?_ (ih (h.step ht).1 hrest)
      cases ht with
      | running hreported hsound₁ hletIn hsound₂ hdone hturn hsound₃ hrun =>
        exact ((rejected_reported hreported).ge.trans hletIn.rejected_le).trans
          (rejected_runTick hrun).ge

/-- A machine after the reports and the arrivals of a tick in which nobody was rejected. -/
structure Settled (s : Simulation) (w : Workload) (m : Machine) : Prop where
  arrived : ∃ reports m₁, Reported s.machine s.tick reports m₁ ∧
    m.backlog.Perm ((due s.pending s.tick).map Process.runTime ++ m₁.backlog)
  positive : ∀ x ∈ m.backlog, 0 < x
  outstanding : m.outstanding = m.backlog.length + (notDue s.pending s.tick).length
  finished : m.outstanding + m.metrics.finished = w.size
  /-- The tick has told of no finish before it. -/
  finishedBy_of_lt : ∀ t, t < s.tick → m.journal.log.finishedBy t = s.machine.journal.log.finishedBy t
  finishedBy_of_le : ∀ t, s.tick ≤ t → m.journal.log.finishedBy t = m.metrics.finished
  /-- The tick has not been counted yet. -/
  busyTicks : m.metrics.busyTicks = s.machine.metrics.busyTicks
  idleTicks : m.metrics.idleTicks = s.machine.metrics.idleTicks

theorem Proper.settled (h : s.Proper c w) {reports : List UnitReport} {m₁ m₂ : Machine}
    (hreported : Reported s.machine s.tick reports m₁) (hsound₁ : m₁.Sound [])
    (hletIn : LetIn s.tick m₁ (due s.pending s.tick) m₂) (hnone : m₂.metrics.rejected = 0) :
    s.Settled w m₂ := by
  have hongoing := h.underway.ongoing
  obtain ⟨-, hexpected⟩ := h.underway.settled hreported hsound₁ hletIn
  obtain ⟨-, hawaits⟩ := hongoing.awaits_settled hreported hsound₁ hletIn
  obtain ⟨seen, -, hrecorded, htimely⟩ := h.counted.kept.settled hreported hsound₁ hletIn
  obtain ⟨es, ms, hnoted⟩ := hreported.noted
  obtain ⟨es', ms', hnoted'⟩ := hletIn.noted
  have hboth := hnoted.trans hnoted'
  have hfigured := h.counted.figured.noted hboth
  have hsame : m₂.metrics.rejected = m₁.metrics.rejected := by
    have hle := hletIn.rejected_le
    omega
  have houtstanding : m₂.outstanding = m₂.backlog.length + (notDue s.pending s.tick).length := by
    rw [backlog, List.length_map]
    exact hawaits
  refine ⟨⟨reports, m₁, hreported, hletIn.backlog_perm hsound₁ hsame⟩, htimely.backlog_pos,
    houtstanding, ?_, fun t ht => ?_, fun t ht => ?_, hboth.busyTicks, hboth.idleTicks⟩
  · rw [Machine.expected] at hexpected
    omega
  · rw [hboth.log]
    exact EventLog.finishedBy_extend_of_lt hboth.process_tick ht
  · rw [hfigured.finished_eq]
    exact EventLog.finishedBy_of_le hrecorded.chronological.process_before ht

/-- A tick of a run that comes to an end with the machine `m` after at most `k` ticks, and has
rejected nobody by then. -/
inductive Onward (s : Simulation) (w : Workload) (k : Nat) (m : Machine) (t : Tick) : Prop
  | last (hsettled : s.Settled w m) (hdone : m.outstanding = 0) (hover : s.step = .finished m t)
  | more (m₂ : Machine) (next : Simulation) (j : Nat) (hsettled : s.Settled w m₂)
      (hleft : m₂.outstanding ≠ 0) (hturn : Turn m₂ s.tick next.machine)
      (hbacklog : next.machine.backlog.Perm m₂.backlog) (hnext : s.step = .running next)
      (hpending : next.pending = notDue s.pending s.tick) (htick : next.tick = s.tick + 1)
      (hk : k = j + 1) (hend : runFor j next = .finished m t)
      (hmetrics : next.machine.metrics = m₂.metrics.countTick next.machine.running.isSome)

theorem Proper.onward (h : s.Proper c w) (hend : runFor k s = .finished m t)
    (hnone : m.metrics.rejected = 0) : s.Onward w k m t := by
  have hongoing := h.underway.ongoing
  cases k with
  | zero => exact absurd hend (by simp [runFor])
  | succ k =>
    have ht := step_ticked hongoing.sound
    rcases runFor_succ_eq_finished hend with hlast | ⟨next, hnext, hrest⟩
    · rw [hlast] at ht
      cases ht with
      | finished hreported hsound₁ hletIn hsound₂ hdone =>
        exact .last (h.settled hreported hsound₁ hletIn hnone) hdone hlast
    · have hle := (h.step hnext).underway.ongoing.rejected_le hrest
      rw [hnext] at ht
      cases ht with
      | @running reports m₁ m₂ m₃ hreported hsound₁ hletIn hsound₂ hdone hturn hsound₃ hrun =>
        have htimely := hletIn.timely hsound₁ (hongoing.timely.reported hongoing.sound hreported)
        have hnone₂ : m₂.metrics.rejected = 0 := by
          rw [← rejected_runTick hrun]
          exact Nat.le_zero.mp (hle.trans hnone.le)
        exact .more m₂ _ k (h.settled hreported hsound₁ hletIn hnone₂) hdone hturn
          (htimely.backlog_turn hsound₂ hturn) hnext rfl rfl rfl hrest (runTick_counted hrun).2.2

end Simulation
end Uniprocessor
