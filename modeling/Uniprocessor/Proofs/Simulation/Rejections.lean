import Uniprocessor.Proofs.Journal.Timetable
import Uniprocessor.Proofs.Machine.Spared

/-!
# A rejected arrival leaves no trace

A run is run once more without the processes that it rejected.  Who that is the first run alone
knows, and only when it is over; so the two are compared with the log of its end in hand: an arrival
that is rejected in it is one that the second run does not have, and one that is given memory is one
that it has.  Tick by tick the machine of the second run is then the one of the first, spared the
rejections.

The second run may be over first.  For it ends when the last of its processes has finished, and the
first run may have arrivals to wait for that it will reject.  From there on the first run does
nothing else: it is idle, and its log grows by rejections only.

* `Simulation.due_filter`: some of the processes of a list fall due when they did before;
* `LetIn.spared`, `Spared.step`: **a tick of both runs**;
* `Simulation.granted_of_empty`: what is left to do for the first run when the second one is over;
* `Simulation.run_traceless`: **the second run comes to the same.**
-/

namespace Uniprocessor

/-- The workload without the processes that a log tells to have been rejected. -/
def Workload.granted (w : Workload) (log : EventLog) : Workload :=
  ⟨w.processes.filter fun p => !log.hasRejected p⟩

namespace Machine

variable {m m' : Machine} {tick : Tick}

/-- Where no process is live, none gets the processor. -/
theorem Turn.of_empty (h : Turn m tick m') (hm : m.Sound []) (hempty : m.table.toList = []) :
    Alike m m' :=
  (h.of_nil (hm.toList_ready_eq_nil hempty)).1

/-- Where no process is live, nothing is reported. -/
theorem Reported.of_empty {reports : List UnitReport} (hr : Reported m tick reports m')
    (hm : m.Sound []) (hempty : m.table.toList = []) :
    m'.table = m.table ∧ m'.journal.log = m.journal.log := by
  have hidle := (hm.cleared hempty).running
  cases hr with
  | quiet => exact ⟨rfl, rfl⟩
  | progress slot b u c hrun => exact absurd (hidle.symm.trans hrun) (by simp)
  | finished slot b u c memory hrun => exact absurd (hidle.symm.trans hrun) (by simp)

end Machine

namespace Simulation

open Machine

variable {m m' n : Machine} {ps : List Process} {s s' next : Simulation} {c : Config}
  {w w' : Workload} {k : Nat} {tick t : Tick} {log : EventLog}

/-! ## Arrivals that are left out -/

/-- In the order of arrival, those who are due are those whose time has come. -/
theorem due_eq_filter (hsorted : ps.Pairwise fun p q => p.arrival ≤ q.arrival) (tick : Tick) :
    due ps tick = ps.filter (fun p => p.arrival ≤ tick) ∧
      notDue ps tick = ps.filter fun p => !decide (p.arrival ≤ tick) := by
  have hdue : ∀ p ∈ due ps tick, p.arrival ≤ tick := fun p hp => arrival_le_of_due hp
  have hlater : ∀ p ∈ notDue ps tick, ¬ p.arrival ≤ tick := fun p hp =>
    Nat.not_le_of_lt (le_arrival_of_head (hsorted.sublist (List.dropWhile_sublist _))
      (fun q hq => lt_arrival_of_notDue hq) p hp)
  have hsplit := due_append_notDue ps tick
  generalize due ps tick = now at hdue hsplit
  generalize notDue ps tick = later at hlater hsplit
  subst hsplit
  rw [List.filter_append, List.filter_append, List.filter_eq_self.mpr (by simpa using hdue),
    List.filter_eq_nil_iff.mpr (by simpa using hlater), List.filter_eq_nil_iff.mpr (by simpa using hdue),
    List.filter_eq_self.mpr (by simpa using hlater), List.append_nil, List.nil_append]
  exact ⟨rfl, rfl⟩

/-- **Some of the processes of a list fall due when they did before.** -/
theorem due_filter (hsorted : ps.Pairwise fun p q => p.arrival ≤ q.arrival) (keep : Process → Bool)
    (tick : Tick) : due (ps.filter keep) tick = (due ps tick).filter keep ∧
      notDue (ps.filter keep) tick = (notDue ps tick).filter keep := by
  obtain ⟨hdue, hlater⟩ := due_eq_filter hsorted tick
  obtain ⟨hdue', hlater'⟩ := due_eq_filter (hsorted.filter keep) tick
  rw [hdue, hlater, hdue', hlater', List.filter_comm, List.filter_comm _ keep]
  exact ⟨rfl, rfl⟩

/-! ## Logs that grow -/

theorem LetIn.memory_subset (h : LetIn tick m ps m') :
    m.journal.log.memory ⊆ m'.journal.log.memory := by
  obtain ⟨es, ms, hnoted⟩ := h.noted
  rw [hnoted.log]
  exact List.subset_append_left _ _

/-- The arrivals of every tick of a run that comes to an end have been answered, and what the log
tells of them is told at the end. -/
theorem exists_settled (hs : s.machine.Sound []) (hend : runFor k s = .finished m t) :
    ∃ m₂, s.settle = .done () m₂ ∧ m₂.Sound [] ∧ m₂.journal.log.memory ⊆ m.journal.log.memory := by
  induction k generalizing s with
  | zero => exact absurd hend (by simp [runFor])
  | succ k ih =>
    have ht := step_ticked hs
    rcases runFor_succ_eq_finished hend with hlast | ⟨next, hnext, hrest⟩
    · rw [hlast] at ht
      cases ht with
      | finished hreported hsound₁ hletIn hsound₂ hdone hsettle =>
        exact ⟨m, hsettle, hsound₂, List.Subset.refl _⟩
    · rw [hnext] at ht
      cases ht with
      | @running _ m₁ m₂ m₃ hreported hsound₁ hletIn hsound₂ hdone hturn hsound₃ hrun hsettle =>
        obtain ⟨m₄, hsettle₄, -, hsub⟩ := ih hsound₃ hrest
        obtain ⟨m', hreported', -, hletIn'⟩ := letIn_of_settle hsound₃ hsettle₄
        obtain ⟨_, hlog, -⟩ := hturn.log
        obtain ⟨_, _, hnoted⟩ := hreported'.noted
        have hmemory : m₃.journal.log.memory = m₂.journal.log.memory := by
          rw [hlog, EventLog.extend, List.append_nil]
        have hgrown : m₃.journal.log.memory ⊆ m'.journal.log.memory := by
          rw [hnoted.log]
          exact List.subset_append_left _ _
        rw [hmemory] at hgrown
        exact ⟨m₂, hsettle, hsound₂, fun e he => hsub (hletIn'.memory_subset (hgrown he))⟩

/-! ## Nobody is left but those who will be rejected -/

/-- Arrivals that are all rejected show in the log as rejections only. -/
theorem LetIn.granted_of_rejected (h : LetIn tick m ps m') (hgone : ∀ p ∈ ps, log.Gone p)
    (hrejected : ∀ p ∈ ps, log.hasRejected p = true) (hlog : m'.journal.log.memory ⊆ log.memory) :
    m'.table = m.table ∧ m'.journal.log.granted = m.journal.log.granted := by
  induction h with
  | nil m => exact ⟨rfl, rfl⟩
  | @cons m m' p ps admission s ha hsound hrest ih =>
    obtain ⟨hp, hgone⟩ := List.forall_mem_cons.mp hgone
    obtain ⟨hp', hrejected⟩ := List.forall_mem_cons.mp hrejected
    obtain ⟨htable, hgranted⟩ := ih hgone hrejected hlog
    cases ha with
    | rejected hpos hmemory =>
      refine ⟨htable, hgranted.trans ?_⟩
      rw [(noted_rejected m tick p).log]
      exact EventLog.granted_extend_rejected rfl
    | admitted block memory ready hpos hmemory hready hperm hinsert =>
      have hnoted := noted_admitted m tick p block memory (m.table.insert (.ofProcess p block)).2 ready
      have hgrown := hrest.memory_subset
      rw [hnoted.log] at hgrown
      have hmem := hlog (hgrown (List.mem_append_right _ (List.mem_singleton_self _)))
      exact absurd (hp.hasRejected_eq_false hmem rfl rfl) (by simp [hp'])

/-- **When nobody is live, and all who are still to come will be rejected, the log of the run grows
by rejections only.** -/
theorem granted_of_empty (hs : s.machine.Sound []) (hempty : s.machine.table.toList = [])
    (hgone : ∀ p ∈ s.pending, m.journal.log.Gone p)
    (hrejected : ∀ p ∈ s.pending, m.journal.log.hasRejected p = true)
    (hend : runFor k s = .finished m t) : m.journal.log.granted = s.machine.journal.log.granted := by
  induction k generalizing s with
  | zero => exact absurd hend (by simp [runFor])
  | succ k ih =>
    have hdue : due s.pending s.tick ⊆ s.pending := (List.takeWhile_sublist _).subset
    have hlater : notDue s.pending s.tick ⊆ s.pending := (List.dropWhile_sublist _).subset
    obtain ⟨m₂, hsettle, hm₂, hsub⟩ := exists_settled hs hend
    obtain ⟨m₁, hreported, hm₁, hletIn⟩ := letIn_of_settle hs hsettle
    obtain ⟨htable₁, hlog₁⟩ := hreported.of_empty hs hempty
    obtain ⟨htable₂, hgranted₂⟩ := hletIn.granted_of_rejected (fun p hp => hgone p (hdue hp))
      (fun p hp => hrejected p (hdue hp)) hsub
    have hempty₂ : m₂.table.toList = [] := by rw [htable₂, htable₁, hempty]
    rw [runFor] at hend
    rcases step_of_settle hsettle hm₂ with ⟨-, hstep⟩ | ⟨m₃, -, hstep, -, hturn, hm₃⟩
    · rw [hstep] at hend
      obtain ⟨rfl, -⟩ := TickOutcome.finished.inj hend
      rw [hgranted₂, hlog₁]
    · rw [hstep] at hend
      have ha := hturn.of_empty hm₂ hempty₂
      have hempty₃ : m₃.table.toList = [] := by rw [ha.table, hempty₂]
      have hrest := ih hm₃ hempty₃ (fun p hp => hgone p (hlater hp))
        (fun p hp => hrejected p (hlater hp)) hend
      rw [hrest, ha.log, hgranted₂, hlog₁]

/-! ## Both runs -/

/-- Before a tick of both runs, where `log` is the log at the end of the first: the second one is
spared the processes that are rejected. -/
structure Spared (s s' : Simulation) (log : EventLog) : Prop where
  machine : s.machine.Spared s'.machine
  tick : s'.tick = s.tick
  pending : s'.pending = s.pending.filter fun p => !log.hasRejected p

/-- What a tick of the two runs comes to: both go on, or both are over, or the second one is over
and the first one has nothing more to do than to reject. -/
inductive Aside (log : EventLog) : TickOutcome → TickOutcome → Prop
  | running (next next' : Simulation) (h : next.Spared next' log) :
      Aside log (.running next) (.running next')
  | finished (m n : Machine) (t : Tick) (hlog : n.journal.log = m.journal.log.granted) :
      Aside log (.finished m t) (.finished n t)
  | earlier (next : Simulation) (n : Machine) (t : Tick) (hempty : next.machine.table.toList = [])
      (hrejected : ∀ p ∈ next.pending, log.hasRejected p = true)
      (hlog : n.journal.log = next.machine.journal.log.granted) :
      Aside log (.running next) (.finished n t)

/-- **The arrivals of a tick are let in by both**, as far as they come to both. -/
theorem LetIn.spared (h : LetIn tick m ps m') (hspared : m.Spared n) (hn : n.Sound [])
    (hgone : ∀ p ∈ ps, log.Gone p) (hlog : m'.journal.log.memory ⊆ log.memory) :
    ∃ n', admitAll n tick (ps.filter fun p => !log.hasRejected p) = .done () n' ∧ n'.Sound [] ∧
      m'.Spared n' := by
  induction h generalizing n with
  | nil m => exact ⟨n, rfl, hn, hspared⟩
  | @cons m m' p ps admission s ha hsound hrest ih =>
    obtain ⟨hp, hgone⟩ := List.forall_mem_cons.mp hgone
    have htold : ∀ {e}, e ∈ (m.withScheduler s).journal.log.memory → e ∈ log.memory :=
      fun he => hlog (hrest.memory_subset he)
    rcases hspared.arrival ha with
      ⟨hspared', e, he, hid, hkind⟩ | ⟨s', harrive, hspared', e, he, hid, hkind⟩
    · have hout := EventLog.hasRejected_of_mem (htold he) hid hkind
      rw [List.filter_cons_of_neg (by simp [hout])]
      exact ih hspared' hn hgone hlog
    · have hin := hp.hasRejected_eq_false (htold he) hid hkind
      have hn' := hn.arrive tick p
      rw [Machine.arrive, schedule, harrive] at hn'
      obtain ⟨n', hrest', hsound', hspared''⟩ := ih hspared' hn' hgone hlog
      refine ⟨n', ?_, hsound', hspared''⟩
      rw [List.filter_cons_of_pos (by simp [hin]), admitAll_cons, Machine.arrive, schedule, harrive]
      exact hrest'

/-- The beginning of a tick is the same for both. -/
theorem Spared.settle (h : s.Spared s' log) (hs : s.machine.Sound []) (hs' : s'.machine.Sound [])
    (hsorted : s.pending.Pairwise fun p q => p.arrival ≤ q.arrival)
    (hgone : ∀ p ∈ s.pending, log.Gone p) (hsettle : s.settle = .done () m)
    (hlog : m.journal.log.memory ⊆ log.memory) :
    ∃ n, s'.settle = .done () n ∧ n.Sound [] ∧ m.Spared n := by
  obtain ⟨m₁, hreported, hm₁, hletIn⟩ := letIn_of_settle hs hsettle
  obtain ⟨n₁, hdeliver', hreported', hn₁⟩ := hs'.report s'.tick
  rw [h.tick] at hdeliver' hreported'
  have hspared := h.machine.reported (h.machine.twins.reports s.tick) hreported hreported'
  obtain ⟨n, hadmitted, hn, hspared'⟩ := hletIn.spared hspared hn₁
    (fun p hp => hgone p ((List.takeWhile_sublist _).subset hp)) hlog
  refine ⟨n, ?_, hn, hspared'⟩
  rw [settle_eq, h.tick, h.pending, (due_filter hsorted _ s.tick).1, hdeliver', Attempt.andThen_done]
  exact hadmitted

/-- **A tick of both runs**, if the first one comes to its end. -/
theorem Spared.step (h : s.Spared s' log) (hs : s.Proper c w) (hs' : s'.Proper c w')
    (hsorted : s.pending.Pairwise fun p q => p.arrival ≤ q.arrival)
    (hgone : ∀ p ∈ s.pending, log.Gone p) (hsettle : s.settle = .done () m) (hm : m.Sound [])
    (hlog : m.journal.log.memory ⊆ log.memory) : Aside log s.step s'.step := by
  have hsound := hs.underway.ongoing.sound
  have hsound' := hs'.underway.ongoing.sound
  obtain ⟨n, hsettle', hn, hspared⟩ := h.settle hsound hsound' hsorted hgone hsettle hlog
  have hlater := (due_filter hsorted (fun p => !log.hasRejected p) s.tick).2
  -- the second run expects those that the first one does, but for those it will reject
  have hleft : m.outstanding = m.table.toList.length + (notDue s.pending s.tick).length :=
    hs.underway.awaits_of_settle hsettle
  have hleft' : n.outstanding = m.table.toList.length +
      ((notDue s.pending s.tick).filter fun p => !log.hasRejected p).length := by
    have hawaits := hs'.underway.awaits_of_settle hsettle'
    rw [Awaits, h.tick, h.pending, hlater, hspared.twins.table] at hawaits
    exact hawaits
  rcases step_of_settle hsettle hm with ⟨hdone, hstep⟩ | ⟨m', hmore, hstep, hrun, hturn, hm'⟩
  · rcases step_of_settle hsettle' hn with ⟨hdone', hstep'⟩ | ⟨n', hmore', -⟩
    · rw [hstep, hstep', h.tick]
      exact .finished m n s.tick hspared.log
    · have hle := List.length_filter_le (fun p => !log.hasRejected p) (notDue s.pending s.tick)
      omega
  · rw [hstep]
    rcases step_of_settle hsettle' hn with ⟨hdone', hstep'⟩ | ⟨n', hmore', hstep', hrun', hturn', hn'⟩
    · rw [hdone'] at hleft'
      obtain ⟨hlive, hcoming⟩ := Nat.add_eq_zero_iff.mp hleft'.symm
      have hempty := List.length_eq_zero_iff.mp hlive
      have hnone := List.filter_eq_nil_iff.mp (List.length_eq_zero_iff.mp hcoming)
      have ha := hturn.of_empty hm hempty
      rw [hstep']
      refine .earlier _ n s'.tick (by rw [ha.table, hempty]) (fun p hp => ?_) (by rw [ha.log, hspared.log])
      simpa using hnone p hp
    · rw [h.tick] at hrun' hturn'
      rw [hstep']
      exact .running _ _ ⟨hspared.turn hturn hrun hturn' hrun', congrArg (· + 1) h.tick, by
        rw [h.tick, h.pending, hlater]⟩

/-- **If the first run comes to an end, the second one does**, with the same log but for the
rejections. -/
theorem Spared.runFor (h : s.Spared s' m.journal.log) (hs : s.Proper c w) (hs' : s'.Proper c w')
    (hsorted : w.processes.Pairwise fun p q => p.arrival ≤ q.arrival)
    (hgone : ∀ p ∈ w.processes, m.journal.log.Gone p) (hend : runFor k s = .finished m t) :
    ∃ n t', Simulation.runFor k s' = .finished n t' ∧ n.journal.log = m.journal.log.granted := by
  induction k generalizing s s' with
  | zero => exact absurd hend (by simp [Simulation.runFor])
  | succ k ih =>
    have hsound := hs.underway.ongoing.sound
    have hcoming := hs.pending_suffix
    obtain ⟨m₂, hsettle, hm₂, hsub⟩ := exists_settled hsound hend
    have hstep := h.step hs hs' (hsorted.sublist hcoming.sublist)
      (fun p hp => hgone p (hcoming.subset hp)) hsettle hm₂ hsub
    rw [Simulation.runFor]
    generalize hout : s'.step = outcome at hstep
    rcases runFor_succ_eq_finished hend with hlast | ⟨next, hnext, hrest⟩
    · rw [hlast] at hstep
      cases hstep with
      | finished _ n _ hlog => exact ⟨n, _, rfl, hlog⟩
    · rw [hnext] at hstep
      have hgoing := hs.step hnext
      cases hstep with
      | running _ next' hspared => exact ih hspared hgoing (hs'.step hout) hrest
      | earlier _ n t' hempty hrejected hlog =>
        have hsame := granted_of_empty hgoing.underway.ongoing.sound hempty
          (fun p hp => hgone p (hgoing.pending_suffix.subset hp)) hrejected hrest
        exact ⟨n, t', rfl, hlog.trans hsame.symm⟩

/-! ## Whole runs -/

/-- The two runs when they start. -/
theorem start_spared (hc : c.Valid) (hw : Workload.ofList ps = .ok w) (log : EventLog) :
    ∃ s s', start c w = .ok s ∧ start c (w.granted log) = .ok s' ∧ s.tick = 0 ∧ s'.tick = 0 ∧
      s.Proper c w ∧ s'.Proper c (w.granted log) ∧ s.Spared s' log := by
  obtain ⟨s, hstart, hs, htick, -⟩ := start_proper hc hw
  obtain ⟨s', hstart', hs', htick', -⟩ :=
    start_proper hc (Workload.ofList_filter hw fun p => !log.hasRejected p)
  obtain rfl := Except.ok.inj ((start_eq hc w).symm.trans hstart)
  obtain rfl := Except.ok.inj ((start_eq hc (w.granted log)).symm.trans hstart')
  exact ⟨_, _, hstart, hstart', rfl, rfl, hs, hs', ⟨⟨rfl, rfl, rfl, rfl⟩, rfl, rfl, fun _ _ => rfl, rfl⟩,
    rfl, rfl⟩

/-- A run without the processes that were rejected succeeds, and has the same log but for them. -/
theorem exists_run_granted (hc : c.Valid) (hw : Workload.ofList ps = .ok w) {r : Report}
    (hr : run c w = .ok r) : ∃ r', run c (w.granted r.events) = .ok r' ∧
      r'.events = r.events.granted := by
  obtain ⟨s, s', hstart, hstart', htick, htick', hs, hs', hspared⟩ := start_spared hc hw r.events
  obtain ⟨k, m, t, hend, -, rfl, hcomplete, -⟩ := hs.exists_finished hstart htick hr
  obtain ⟨n, t', hend', hlog⟩ := hspared.runFor hs hs' (Workload.pairwise_ofList hw) hcomplete.gone hend
  have hsame := runFor_unique (runFor_horizon_ne hs'.underway.ongoing htick')
    (fun next => by rw [hend']; simp)
  refine ⟨n.report, ?_, hlog⟩
  rw [run, finish, hstart']
  show TickOutcome.result (runFor (horizon (w.granted m.report.events) + 1) s') = _
  rw [← hsame, hend']
  rfl

/-- **A rejected arrival leaves no trace on the schedule.**  Without the processes that it rejected,
a workload is run once more; nobody is rejected then, the processes get the processor and memory as
they did before, and the figures are the same, but for the count of rejections and for the idle
ticks after the last finish, in which the first run waited for somebody to reject. -/
theorem run_traceless {c : Config} (hc : c.Valid) {ps : List Process} {w : Workload}
    (hw : Workload.ofList ps = .ok w) {r : Report} (hr : run c w = .ok r) :
    Workload.ofList (w.granted r.events).processes = .ok (w.granted r.events) ∧
    ∃ r' m t n t', run c (w.granted r.events) = .ok r' ∧
      finish c w = .ok (.finished m t) ∧ r = m.report ∧
      finish c (w.granted r.events) = .ok (.finished n t') ∧ r' = n.report ∧
      r'.events.process = r.events.process ∧
      r'.events.memory = r.events.memory.filter (fun e => e.kind ≠ .rejected) ∧
      m.metrics.Spared n.metrics r.events ∧
      r'.summary = { r.summary with
        totalTicks := r.events.lastFinish
        idleTicks := n.metrics.idleTicks
        rejected := 0
        cpuUtilization := n.metrics.utilization } := by
  have hw' := Workload.ofList_filter hw fun p => !r.events.hasRejected p
  obtain ⟨r', hr', hevents⟩ := exists_run_granted hc hw hr
  obtain ⟨m, t, hfinish, hreport, hrecounted, -⟩ := run_figures hc hw hr
  obtain ⟨n, t', hfinish', hreport', hrecounted', -⟩ := run_figures hc hw' hr'
  rw [hevents] at hrecounted'
  have hspared := hrecounted.spared hrecounted'
  refine ⟨hw', r', m, t, n, t', hr', hfinish, hreport, hfinish', hreport', ?_, ?_, hspared, ?_⟩
  · rw [hevents]
    rfl
  · rw [hevents]
    exact List.filter_congr fun e _ => (decide_not ..).symm
  · rw [hreport, hreport']
    rw [hreport] at hspared
    exact hspared.summary

/-- A process comes that there is no memory for, and then one that displaces the first; when both
have finished, the run waits for another one to reject. -/
theorem run_traceless_four :
    ∃ (c : Config) (ps : List Process) (w : Workload) (r r' : Report), c.Valid ∧
      Workload.ofList ps = .ok w ∧ run c w = .ok r ∧ w.processes.map Process.id = [1, 2, 3, 4] ∧
      (w.granted r.events).processes.map Process.id = [1, 3] ∧
      r.events.outline = [(.started, 1, 0), (.stopped, 1, 2), (.started, 3, 2), (.finished, 3, 3),
        (.resumed, 1, 3), (.finished, 1, 5)] ∧
      r.events.lastFinish = 5 ∧ r.events.lastEnding = 9 ∧ run c (w.granted r.events) = .ok r' ∧
      r'.events.outline = r.events.outline ∧ r'.summary.totalTicks = 5 ∧ r'.summary.rejected = 0 := by
  let c : Config := { policy := .shortestRemainingTimeNext, readyCapacity := 2 }
  let ps : List Process := [⟨1, 0, 4, 0, 100⟩, ⟨2, 1, 2, 0, 5000⟩, ⟨3, 2, 1, 0, 300⟩, ⟨4, 9, 3, 0, 2000⟩]
  have hc : c.Valid := by decide
  have hw : Workload.ofList ps = .ok ⟨ps⟩ := Workload.ofList_of_pairwise rfl (by decide)
  have hrun : ((run c ⟨ps⟩).toOption.map fun r =>
      ((Workload.mk ps).granted r.events, r.events.outline, r.events.lastFinish, r.events.lastEnding)) =
      some (⟨[⟨1, 0, 4, 0, 100⟩, ⟨3, 2, 1, 0, 300⟩]⟩, [(.started, 1, 0), (.stopped, 1, 2),
        (.started, 3, 2), (.finished, 3, 3), (.resumed, 1, 3), (.finished, 1, 5)], 5, 9) := by
    decide +kernel
  obtain ⟨r, hr, htold⟩ := exists_of_toOption_map hrun
  obtain ⟨hgranted, htold⟩ := Prod.mk.inj htold
  obtain ⟨houtline, htold⟩ := Prod.mk.inj htold
  obtain ⟨hfinish, hending⟩ := Prod.mk.inj htold
  obtain ⟨-, r', m, t, n, t', hr', -, -, -, -, hprocess, -, -, hsummary⟩ := run_traceless hc hw hr
  refine ⟨c, ps, ⟨ps⟩, r, r', hc, hw, hr, rfl, ?_, houtline, hfinish, hending, hr', ?_, ?_, ?_⟩
  · rw [hgranted]
    rfl
  · rw [EventLog.outline, hprocess]
    rfl
  · rw [hsummary]
    exact hfinish
  · rw [hsummary]

end Simulation
end Uniprocessor
