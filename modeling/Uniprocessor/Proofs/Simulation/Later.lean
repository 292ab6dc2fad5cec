import Uniprocessor.Proofs.Machine.Guise
import Uniprocessor.Proofs.Simulation.Outcome

/-!
# Runs that begin later

If every process arrives later by the same delay, the processor is idle for as long, and from then on
everything happens as it did, later.  Until the delay is over no arrival is due: every such tick is
counted as idle, and leaves the rest of the machine as it was made.  When it is over, the machine is the
new machine under a guise --- it has been idle for longer, and its next tick has a higher number ---
and runs of machines under a guise are the same runs under that guise.

* `Simulation.Guised.step`, `Simulation.Guised.runFor`: runs under a guise;
* `Workload.later`, `Workload.ofList_later`: workloads that come later;
* `Simulation.runFor_idled`: nothing happens before the delay is over;
* `Simulation.run_later`: **the run of a workload that comes later is its run, later.**
-/

namespace Uniprocessor

variable {g : Guise}

/-! ## Runs under a guise -/

namespace Simulation

/-- The run `s'` is `s` under a guise. -/
structure Guised (g : Guise) (s s' : Simulation) : Prop where
  machine : s.machine.Guised g s'.machine
  pending : s'.pending = s.pending.map (Process.later g.delay)
  tick : s'.tick = s.tick + g.delay

variable {m m' : Machine} {s s' : Simulation}

theorem deliver_guised (h : m.Guised g m') (reports : List UnitReport) :
    Machine.Concurs g id (deliver m reports)
      (deliver m' (reports.map (UnitReport.later g.delay))) := by
  induction reports generalizing m m' with
  | nil => exact .done h ()
  | cons report reports ih => exact (h.onReport report).andThen fun _ m m' h => ih h

theorem admitAll_guised (h : m.Guised g m') (tick : Tick) (ps : List Process) :
    Machine.Concurs g id (admitAll m tick ps)
      (admitAll m' (tick + g.delay) (ps.map (Process.later g.delay))) := by
  induction ps generalizing m m' with
  | nil => exact .done h ()
  | cons p ps ih => exact (h.arrive tick p).andThen fun _ m m' h => ih h

/-- A process that arrives later is due later. -/
theorem arrived_later (d : Nat) (tick : Tick) :
    (fun p : Process => decide (p.arrival ≤ tick + d)) ∘ Process.later d =
      fun p => decide (p.arrival ≤ tick) := by
  funext p
  exact decide_eq_decide.mpr Nat.add_le_add_iff_right

theorem due_later (d : Nat) (ps : List Process) (tick : Tick) :
    due (ps.map (Process.later d)) (tick + d) = (due ps tick).map (Process.later d) := by
  rw [due, List.takeWhile_map, arrived_later, due]

theorem notDue_later (d : Nat) (ps : List Process) (tick : Tick) :
    notDue (ps.map (Process.later d)) (tick + d) = (notDue ps tick).map (Process.later d) := by
  rw [notDue, List.dropWhile_map, arrived_later, notDue]

theorem Guised.settle (h : s.Guised g s') : Machine.Concurs g id s.settle s'.settle := by
  obtain ⟨hreports, hadvanced⟩ := h.machine.advance s.tick
  unfold Simulation.settle
  rw [h.pending, h.tick, due_later]
  simp only []
  rw [hreports]
  exact (deliver_guised hadvanced _).andThen fun _ m m' h => admitAll_guised h _ _

end Simulation

/-- What has come of two runs, of which one is the other under a guise. -/
inductive TickOutcome.Guised (g : Guise) : TickOutcome → TickOutcome → Prop
  | running {s s' : Simulation} (h : s.Guised g s') : Guised g (.running s) (.running s')
  | finished {m m' : Machine} (h : m.Guised g m') (tick : Tick) :
      Guised g (.finished m tick) (.finished m' (tick + g.delay))
  | failed {m m' : Machine} (h : m.Guised g m') (e : Failure) :
      Guised g (.failed e m) (.failed (e.later g.delay) m')

namespace Simulation

variable {s s' : Simulation}

/-- **A tick of a run under a guise.** -/
theorem Guised.step (h : s.Guised g s') : TickOutcome.Guised g s.step s'.step := by
  have hsettle := h.settle
  unfold Simulation.step
  generalize s.settle = x at hsettle ⊢
  generalize s'.settle = x' at hsettle ⊢
  obtain ⟨result, m⟩ := x
  obtain ⟨result', m'⟩ := x'
  obtain ⟨rfl, hm⟩ := hsettle
  cases result with
  | error e => exact .failed hm e
  | ok _ =>
    simp only [delayed_ok, id]
    have hdone : m'.isDone = m.isDone := hm.scheduler.isDone
    rw [hdone, h.tick]
    cases m.isDone with
    | true => exact .finished hm s.tick
    | false =>
      have hrun := hm.runTick s.tick
      simp only [Bool.false_eq_true, if_false]
      generalize m.runTick s.tick = y at hrun ⊢
      generalize m'.runTick (s.tick + g.delay) = y' at hrun ⊢
      obtain ⟨result, n⟩ := y
      obtain ⟨result', n'⟩ := y'
      obtain ⟨rfl, hn⟩ := hrun
      cases result with
      | error e => exact .failed hn e
      | ok _ =>
        refine .running ⟨hn, ?_, Nat.add_right_comm _ _ _⟩
        show notDue s'.pending (s.tick + g.delay) = _
        rw [h.pending, notDue_later]

/-- **Any number of ticks of a run under a guise.** -/
theorem Guised.runFor (h : s.Guised g s') (n : Nat) :
    TickOutcome.Guised g (Simulation.runFor n s) (Simulation.runFor n s') := by
  induction n generalizing s s' with
  | zero => exact .running h
  | succ n ih =>
    have hstep := h.step
    rw [Simulation.runFor, Simulation.runFor]
    generalize s.step = x at hstep ⊢
    generalize s'.step = x' at hstep ⊢
    cases hstep with
    | running hnext => exact ih hnext
    | finished hm tick => exact .finished hm tick
    | failed hm e => exact .failed hm e

end Simulation

/-! ## Workloads that come later -/

namespace Workload

/-- The workload with every process arriving later. -/
def later (d : Nat) (w : Workload) : Workload :=
  ⟨w.processes.map (Process.later d)⟩

variable (d : Nat) {w : Workload}

theorem fault?_later (seen : List Nat) (ps : List Process) :
    fault? seen (ps.map (Process.later d)) = fault? seen ps := by
  induction ps generalizing seen with
  | nil => rfl
  | cons p ps ih =>
    rw [List.map_cons, fault?, fault?, ih]
    rfl

/-- **A list of processes makes a workload exactly if it does so when they arrive later**, and the
workloads differ by the delay. -/
theorem ofList_later (ps : List Process) :
    ofList (ps.map (Process.later d)) = (ofList ps).map (later d) := by
  rw [ofList, ofList, fault?_later]
  cases fault? [] ps with
  | some fault => rfl
  | none =>
    refine congrArg (fun qs => Except.ok (Workload.mk qs)) (List.map_mergeSort ?_).symm
    exact fun p _ q _ => decide_eq_decide.mpr Nat.add_le_add_iff_right.symm

theorem size_later : (w.later d).size = w.size :=
  List.length_map _

end Workload

namespace Simulation

variable {w : Workload} (d : Nat)

theorem foldl_max_add (ns : List Nat) (n : Nat) :
    (ns.map (· + d)).foldl max (n + d) = ns.foldl max n + d := by
  induction ns generalizing n with
  | nil => rfl
  | cons k ns ih => rw [List.map_cons, List.foldl_cons, List.foldl_cons, Nat.add_max_add_right, ih]

/-- The horizon of a workload that comes later is later. -/
theorem horizon_later (hne : w.processes ≠ []) : horizon (w.later d) = horizon w + d := by
  have harrivals : (w.later d).processes.map Process.arrival =
      (w.processes.map Process.arrival).map (· + d) := by
    rw [Workload.later, List.map_map, List.map_map]
    rfl
  have hruns : (w.later d).processes.map Process.runTime = w.processes.map Process.runTime := by
    rw [Workload.later, List.map_map]
    rfl
  rw [horizon, horizon, harrivals, hruns]
  obtain ⟨p, ps, hp⟩ := List.exists_cons_of_ne_nil hne
  rw [hp, List.map_cons, List.map_cons, List.foldl_cons, List.foldl_cons, Nat.zero_max, Nat.zero_max,
    foldl_max_add, Nat.add_right_comm]

/-! ## Before the delay is over -/

/-- A run of a workload that comes later by `d`, before tick `t`, while nothing has happened yet. -/
def idled (c : Config) (w : Workload) (d t : Nat) : Simulation where
  machine := { Machine.fresh c w.size with metrics := Metrics.empty.later t }
  pending := w.processes.map (Process.later d)
  tick := t

variable {d} {c : Config} {t : Nat}

/-- Nobody arrives before the delay is over. -/
theorem not_due (ps : List Process) (ht : t < d) :
    due (ps.map (Process.later d)) t = [] ∧
      notDue (ps.map (Process.later d)) t = ps.map (Process.later d) := by
  cases ps with
  | nil => exact ⟨rfl, rfl⟩
  | cons p ps =>
    have hlate : ¬(p.later d).arrival ≤ t := Nat.not_le.mpr (Nat.lt_add_left _ ht)
    rw [List.map_cons, due, notDue]
    exact ⟨List.takeWhile_cons_of_neg (by simpa using hlate),
      List.dropWhile_cons_of_neg (by simpa using hlate)⟩

/-- A tick before the delay is over is idle. -/
theorem step_idled (hne : w.processes ≠ []) (ht : t < d) :
    (idled c w d t).step = .running (idled c w d (t + 1)) := by
  obtain ⟨hdue, hnotDue⟩ := not_due w.processes ht
  have hsettle : (idled c w d t).settle = .done () (idled c w d t).machine := by
    rw [settle_eq]
    show Attempt.andThen (.done () (idled c w d t).machine) _ = _
    rw [Attempt.andThen_done]
    show admitAll _ t (due (w.processes.map (Process.later d)) t) = _
    rw [hdue, admitAll]
  have hleft : (idled c w d t).machine.isDone = false := by
    show (w.size == 0) = false
    rw [beq_eq_false_iff_ne]
    exact fun hzero => hne (List.length_eq_zero_iff.mp hzero)
  have hempty : (idled c w d t).machine.ready.isEmpty = true := by
    show (ReadyQueue.ofPolicy c.policy c.readyCapacity).isEmpty = true
    unfold ReadyQueue.ofPolicy
    split <;> rfl
  have hrun : (idled c w d t).machine.runTick (idled c w d t).tick =
      .done () (idled c w d (t + 1)).machine := by
    rw [Machine.runTick, if_pos hempty]
    rfl
  unfold Simulation.step
  rw [hsettle]
  simp only [Attempt.done, hleft, hrun, Bool.false_eq_true, if_false]
  show TickOutcome.running ⟨_, notDue (w.processes.map (Process.later d)) t, t + 1⟩ = _
  rw [hnotDue]
  rfl

/-- **Nothing happens before the delay is over.** -/
theorem runFor_idled (hne : w.processes ≠ []) (ht : t ≤ d) :
    runFor t (idled c w d 0) = .running (idled c w d t) := by
  induction t with
  | zero => rfl
  | succ t ih => rw [runFor_succ_of_running (ih (Nat.le_of_succ_le ht)), step_idled hne ht]

/-- When the delay is over, everything is as it would be without it, later. -/
theorem guised_idled (c : Config) (w : Workload) (d : Nat) :
    Guised ⟨d, 0, 0⟩ ⟨.fresh c w.size, w.processes, 0⟩ (idled c w d d) where
  machine :=
    { scheduler :=
        { policy := rfl
          memory := ⟨rfl, rfl, Nat.le_refl 0, rfl, 0, rfl, rfl⟩
          ready := rfl
          table := ⟨ProcessTable.sound_empty, ProcessTable.sound_empty, fun _ => rfl, 0, rfl, rfl⟩
          running := rfl
          sliceLeft := rfl
          outstanding := rfl
          metrics := rfl
          journal := rfl }
      units := rfl }
  pending := rfl
  tick := (Nat.zero_add d).symm

/-- A delayed run comes to what the run comes to, under a guise. -/
theorem finish_guised (hc : c.Valid) (hne : w.processes ≠ []) (d : Nat) :
    ∃ x x', finish c w = .ok x ∧ finish c (w.later d) = .ok x' ∧
      TickOutcome.Guised ⟨d, 0, 0⟩ x x' := by
  have hstart : start c (w.later d) = .ok (idled c w d 0) := by
    rw [start_eq hc, Workload.size_later]
    rfl
  refine ⟨runFor (horizon w + 1) ⟨.fresh c w.size, w.processes, 0⟩,
    runFor (horizon w + 1) (idled c w d d), ?_, ?_, (guised_idled c w d).runFor _⟩
  · rw [finish, start_eq hc]
    rfl
  · have hticks : horizon (w.later d) + 1 = d + (horizon w + 1) := by
      rw [horizon_later d hne, Nat.add_right_comm, Nat.add_comm]
    rw [finish, hstart, hticks, ← runFor_add_of_running (runFor_idled hne (Nat.le_refl d))]
    rfl

/-! ## Runs of workloads that come later -/

/-- The figures of a delayed run are those of the run, except for what the idle ticks make of them. -/
theorem summary_later (d : Nat) (m : Metrics) :
    (m.later d).summary = { m.summary with
      totalTicks := m.summary.totalTicks + d
      idleTicks := m.summary.idleTicks + d
      cpuUtilization := (m.later d).utilization } := by
  have htotal : (m.later d).busyTicks + (m.later d).idleTicks = m.busyTicks + m.idleTicks + d :=
    (Nat.add_assoc m.busyTicks m.idleTicks d).symm
  rw [Metrics.summary, htotal]
  rfl

/-- **The run of a workload that comes later is its run, later.**  It is refused exactly if the run
itself is, for the same reason.  If it is not, it ends later by the delay; its events are those of the
run, with every tick and every arrival later by the delay and all else the same; it has been idle for as
many ticks more, and everything else that it has counted is the same. -/
theorem run_later (hc : c.Valid) {ps : List Process} (hw : Workload.ofList ps = .ok w)
    (hne : w.processes ≠ []) (d : Nat) :
    Workload.ofList (ps.map (Process.later d)) = .ok (w.later d) ∧
      ((∃ e, run c w = .error e ∧ run c (w.later d) = .error e) ∨
        ∃ m m' last, finish c w = .ok (.finished m last) ∧
          finish c (w.later d) = .ok (.finished m' (last + d)) ∧
          run c w = .ok m.report ∧ run c (w.later d) = .ok m'.report ∧
          m'.report.policy = m.report.policy ∧
          m'.report.events = m.report.events.later d ∧
          m'.metrics = { m.metrics with idleTicks := m.metrics.idleTicks + d } ∧
          m'.report.summary = { m.report.summary with
            totalTicks := m.report.summary.totalTicks + d
            idleTicks := m.report.summary.idleTicks + d
            cpuUtilization := m'.metrics.utilization }) := by
  refine ⟨by rw [Workload.ofList_later, hw]; rfl, ?_⟩
  obtain ⟨x, x', hfinish, hfinish', hguised⟩ := finish_guised hc hne d
  obtain ⟨s₀, last, hstart, -, -, -, hend⟩ := run_ends hc hw
  have hrun : run c w = x.result := by rw [run, hfinish]
  have hrun' : run c (w.later d) = x'.result := by rw [run, hfinish']
  cases hguised with
  | @running s s' hs =>
    obtain ⟨s₁, hstart₁, hongoing, -, htick, -⟩ := start_ongoing hc w
    have hover := runFor_horizon_ne hongoing htick s
    rw [finish, hstart₁] at hfinish
    exact absurd (Except.ok.inj hfinish) hover
  | @failed m m' hm e =>
    have hsame : e.later d = e := by
      rcases hend with ⟨m₁, -, hreport, -⟩ | ⟨m₁, -, hrefused, -⟩
      · exact absurd (hrun.symm.trans hreport) (by simp [TickOutcome.result])
      · obtain rfl := Except.error.inj (hrun.symm.trans hrefused)
        rfl
    refine Or.inl ⟨e, hrun, hrun'.trans ?_⟩
    exact congrArg Except.error hsame
  | @finished m m' hm tick =>
    have hmetrics : m'.metrics = m.metrics.later d := hm.scheduler.metrics
    refine Or.inr ⟨m, m', tick, hfinish, hfinish', hrun, hrun', hm.scheduler.policy, ?_, hmetrics, ?_⟩
    · show m'.journal.log = _
      rw [hm.scheduler.journal, Journal.log_later]
      rfl
    · show m'.metrics.summary = _
      rw [hmetrics, summary_later]
      rfl

/-- Two processes that take turns, a hundred ticks later. -/
theorem run_later_turns :
    ∃ c ps w, Config.Valid c ∧ Workload.ofList ps = .ok w ∧ w.processes ≠ [] ∧
      w.later 100 = ⟨[⟨1, 100, 2, 0, 16⟩, ⟨2, 101, 2, 0, 16⟩]⟩ ∧
      ∃ m m' last, finish c w = .ok (.finished m last) ∧
        finish c (w.later 100) = .ok (.finished m' (last + 100)) ∧
        m'.report.events = m.report.events.later 100 ∧
        m'.report.summary.idleTicks = m.report.summary.idleTicks + 100 := by
  have hc : ({ policy := .roundRobin 1 } : Config).Valid := by decide
  have hw : Workload.ofList [⟨1, 0, 2, 0, 16⟩, ⟨2, 1, 2, 0, 16⟩] = .ok ⟨_⟩ :=
    Workload.ofList_of_pairwise rfl (by decide)
  refine ⟨_, _, _, hc, hw, List.cons_ne_nil _ _, rfl, ?_⟩
  obtain ⟨-, ⟨e, hrun, -⟩ | ⟨m, m', last, hfinish, hfinish', -, -, -, hevents, -, hsummary⟩⟩ :=
    run_later hc hw (List.cons_ne_nil _ _) 100
  · have hok : (run { policy := .roundRobin 1 }
        ⟨[⟨1, 0, 2, 0, 16⟩, ⟨2, 1, 2, 0, 16⟩]⟩).toBool = true := by
      decide +kernel
    rw [hrun] at hok
    exact absurd hok (by simp [Except.toBool])
  · exact ⟨m, m', last, hfinish, hfinish', hevents, by rw [hsummary]⟩

end Simulation

end Uniprocessor
