import Uniprocessor.Proofs.Machine.Backlog
import Uniprocessor.Proofs.Machine.Histories
import Uniprocessor.Proofs.Simulation.Ticks

/-!
# Runs come to an end

A tick that finds the processor taken burns a tick of run time; a tick that finds it free finds
nobody live, since otherwise the last dispatch would have given it away, and so waits for an arrival.
Arrivals come by the latest arrival time, and no more run time can be burnt than there is.  So a run
is over by its horizon.

The load of a machine is the run time that its live processes have to go.

* `Simulation.Ongoing`: what holds before every tick of a run;
* `Simulation.Ongoing.step`: every tick keeps it;
* `Simulation.Ongoing.nobody_left`: a run that is over leaves nobody behind;
* `Simulation.Ongoing.tick_le`: a run that is not over has not passed its horizon;
* `Simulation.runFor_horizon_ne`: **a run is over by its horizon**;
* `Simulation.exists_end`, `exists_finish`: so it has a last tick.
-/

namespace Uniprocessor
namespace Machine

/-- The ticks of run time that the live processes have to go. -/
def load (m : Machine) : Nat :=
  (m.table.toList.map ControlBlock.remaining).sum

variable {m m' : Machine} {held : List Slot} {slot : Slot} {b : ControlBlock} {u : UnitId}
  {tick f : Tick}

/-- The load is the sum of the backlog. -/
theorem load_eq (m : Machine) : m.load = m.backlog.sum := rfl

theorem remaining_le_load (hslot : m.table.get? slot = some b) : b.remaining ≤ m.load := by
  obtain ⟨others, hlist, -⟩ := exists_others hslot
  rw [load_eq, hlist.sum_nat, List.sum_cons]
  exact Nat.le_add_right _ _

/-! ## Reports -/

/-- As many arrivals are outstanding as processes are live and `coming` others to come. -/
def Awaits (m : Machine) (coming : Nat) : Prop :=
  m.outstanding = m.table.toList.length + coming

theorem Awaits.reported {reports : List UnitReport} {coming : Nat} (h : m.Awaits coming)
    (hr : Reported m tick reports m') : m'.Awaits coming := by
  cases hr with
  | quiet hquiet => exact h
  | progress slot b u c hrun hslot hunit hc hcounts hleft =>
    exact h.trans (congrArg (· + coming) (ProcessTable.length_set hslot _).symm)
  | finished slot b u c memory hrun hslot hunit hc hcounts hleft =>
    have hlen := ProcessTable.length_vacate hslot
    show m.outstanding - 1 = (m.table.vacate slot).toList.length + coming
    rw [Awaits] at h
    omega

/-- When no arrival is outstanding, nobody is live or to come. -/
theorem Awaits.nobody_left {coming : Nat} (h : m.Awaits coming) (hdone : m.outstanding = 0) :
    m.table.toList = [] ∧ coming = 0 := by
  rw [Awaits, hdone] at h
  exact ⟨List.length_eq_zero_iff.mp (by omega), by omega⟩

theorem outstanding_reported {reports : List UnitReport} (hr : Reported m tick reports m') :
    m'.outstanding ≤ m.outstanding := by
  cases hr with
  | quiet hquiet => exact Nat.le_refl _
  | progress slot b u c hrun hslot hunit hc hcounts hleft => exact Nat.le_refl _
  | finished slot b u c memory hrun hslot hunit hc hcounts hleft => exact Nat.sub_le _ _

/-- A tick that finds the processor taken burns a tick of run time. -/
theorem Timely.load_reported (h : m.Timely tick) (hm : m.Sound []) {reports : List UnitReport}
    (hr : Reported m tick reports m') (hrun : m.running = some slot) : m'.load + 1 = m.load := by
  obtain ⟨b, hslot⟩ := hm.scheduler.running_live hrun
  obtain ⟨others, hbefore, hafter⟩ := h.backlog_reported hm hr hrun hslot
  have hpos := (h slot b hslot).left_pos
  rw [load_eq, load_eq, hbefore.sum_nat, hafter.sum_nat, Backlog.sum_burn, List.sum_cons]
  omega

/-! ## Dispatch -/

/-- The processor is free only if nobody is live. -/
def Busy (m : Machine) : Prop :=
  m.running = none → m.table.toList = []

theorem Busy.turn (hm : m.Sound []) (ht : Turn m tick m') : m'.Busy := by
  intro hidle
  cases ht with
  | idle hnone ha =>
    refine List.eq_nil_iff_forall_not_mem.mpr ?_
    intro b hb
    rw [ha.table] at hb
    obtain ⟨slot, hslot⟩ := ProcessTable.mem_toList.mp hb
    have hplace := (hm.scheduler.live slot).mpr ⟨b, hslot⟩
    rw [Scheduler.places, hnone, ← ha.running, hidle] at hplace
    exact absurd hplace (by simp)
  | kept slot b u c hrun hslot hunit hc ha =>
    exact absurd ((ha.running.trans hrun).symm.trans hidle) (by simp)
  | launched next ready m₁ hrun hperm hheld hbound ha =>
    exact absurd ((ha.running.trans hbound.running_eq).symm.trans hidle) (by simp)
  | swapped slot b u c next ready ready' m₁ hrun hslot hunit hc hperm hperm' hheld hbound ha =>
    exact absurd ((ha.running.trans hbound.running_eq).symm.trans hidle) (by simp)

/-- The end of a tick burns no run time. -/
theorem Timely.load_turn (h : m.Timely f) (hm : m.Sound []) (ht : Turn m tick m') :
    m'.load = m.load :=
  (h.backlog_turn hm ht).sum_nat

end Machine

namespace Simulation

open Machine

variable {m m' : Machine} {ps : List Process} {s : Simulation} {tick : Tick}

/-! ## Arrivals -/

/-- Arrivals that are answered are no longer to come. -/
theorem LetIn.awaits (h : LetIn tick m ps m') (hm : m.Sound []) {coming : Nat}
    (hawaits : m.Awaits (ps.length + coming)) : m'.Awaits coming := by
  induction h with
  | nil m => simpa using hawaits
  | @cons m m' p ps admission s ha hsound hrest ih =>
    refine ih hsound ?_
    rw [Awaits, List.length_cons] at hawaits
    cases ha with
    | rejected hpos hmemory =>
      show m.outstanding - 1 = m.table.toList.length + (ps.length + coming)
      omega
    | admitted block memory ready hpos hmemory hready hperm =>
      have hlen := (ProcessTable.toList_insert hm.scheduler.table (.ofProcess p block)).length_eq
      rw [List.length_cons] at hlen
      show m.outstanding = (m.table.insert (.ofProcess p block)).2.toList.length +
        (ps.length + coming)
      omega

theorem LetIn.outstanding_le (h : LetIn tick m ps m') : m'.outstanding ≤ m.outstanding := by
  induction h with
  | nil m => exact Nat.le_refl _
  | cons ha hsound hrest ih =>
    refine ih.trans ?_
    cases ha with
    | rejected hpos hmemory => exact Nat.sub_le _ _
    | admitted block memory ready hpos hmemory hready hperm => exact Nat.le_refl _

/-- Arrivals bring their run times with them, or nothing. -/
theorem LetIn.load_le (h : LetIn tick m ps m') (hm : m.Sound []) :
    m'.load ≤ m.load + (ps.map Process.runTime).sum := by
  induction h with
  | nil m => simp
  | @cons m m' p ps admission s ha hsound hrest ih =>
    have hrest := ih hsound
    rw [List.map_cons, List.sum_cons]
    cases ha with
    | rejected hpos hmemory =>
      have hsame : (m.withScheduler (m.reject tick p)).load = m.load := rfl
      omega
    | admitted block memory ready hpos hmemory hready hperm =>
      have hperm := ProcessTable.toList_insert hm.scheduler.table (.ofProcess p block)
      have hsum := (hperm.map ControlBlock.remaining).sum_nat
      rw [List.map_cons, List.sum_cons] at hsum
      refine hrest.trans ?_
      show ((m.table.insert (.ofProcess p block)).2.toList.map _).sum + _ ≤ m.load + _
      rw [hsum, load]
      show p.runTime + _ + _ ≤ _
      omega

theorem LetIn.timely (h : LetIn tick m ps m') (hm : m.Sound []) {f : Tick} (ht : m.Timely f) :
    m'.Timely f := by
  induction h with
  | nil m => exact ht
  | cons ha hsound hrest ih => exact ih hsound (ht.arrival hm ha)

/-! ## Before a tick -/

/-- The run time that is left to burn, and that may still come. -/
def load (s : Simulation) : Nat :=
  s.machine.load + (s.pending.map Process.runTime).sum

/-- What holds before every tick of a run of arrivals up to the tick `latest` that bring a run time
of `total`. -/
structure Ongoing (s : Simulation) (latest : Tick) (total : Nat) : Prop where
  sound : s.machine.Sound []
  timely : s.machine.Timely s.tick
  awaits : s.machine.Awaits s.pending.length
  busy : s.machine.Busy
  upcoming : ∀ p ∈ s.pending.head?, s.tick ≤ p.arrival
  arrivals : ∀ p ∈ s.pending, p.arrival ≤ latest
  budget : s.load ≤ total
  spent : s.tick + s.load ≤ latest + total + 1

variable {latest : Tick} {total : Nat}

theorem due_append_notDue (ps : List Process) (tick : Tick) :
    due ps tick ++ notDue ps tick = ps :=
  List.takeWhile_append_dropWhile

/-- After the reports of a tick those who are due or not due are still to come, and after the arrivals
those who are not due. -/
theorem Ongoing.awaits_settled (h : s.Ongoing latest total) {reports : List UnitReport}
    {m₁ m₂ : Machine} (hreported : Reported s.machine s.tick reports m₁) (hsound : m₁.Sound [])
    (hletIn : LetIn s.tick m₁ (due s.pending s.tick) m₂) :
    m₁.Awaits ((due s.pending s.tick).length + (notDue s.pending s.tick).length) ∧
      m₂.Awaits (notDue s.pending s.tick).length := by
  have hawaits : m₁.Awaits ((due s.pending s.tick).length + (notDue s.pending s.tick).length) := by
    rw [← List.length_append, due_append_notDue]
    exact h.awaits.reported hreported
  exact ⟨hawaits, hletIn.awaits hsound hawaits⟩

/-- When a run is over, nobody is live or to come. -/
theorem Ongoing.nobody_left (h : s.Ongoing latest total) {t : Tick} (hfinish : s.step = .finished m t) :
    m.Sound [] ∧ m.table.toList = [] ∧ notDue s.pending s.tick = [] := by
  have ht := step_ticked h.sound
  rw [hfinish] at ht
  cases ht with
  | finished hreported hsound₁ hletIn hsound₂ hdone =>
    obtain ⟨hlive, hcoming⟩ :=
      (h.awaits_settled hreported hsound₁ hletIn).2.nobody_left hdone
    exact ⟨hsound₂, hlive, List.length_eq_zero_iff.mp hcoming⟩

/-- The first process that has to wait is not due. -/
theorem lt_arrival_of_notDue {p : Process} (hp : p ∈ (notDue ps tick).head?) :
    tick < p.arrival := by
  have hnot := List.head?_dropWhile_not (fun p : Process => decide (p.arrival ≤ tick)) ps
  rw [← notDue, Option.mem_def.mp hp] at hnot
  exact Nat.lt_of_not_le (of_decide_eq_false hnot)

/-- The tick that finds the processor free is waiting for an arrival. -/
theorem Ongoing.tick_le_latest (h : s.Ongoing latest total) (hleft : s.machine.outstanding ≠ 0)
    (hidle : s.machine.running = none) : s.tick ≤ latest := by
  have hawaits := h.awaits
  rw [Awaits, h.busy hidle, List.length_nil, Nat.zero_add] at hawaits
  cases hpending : s.pending with
  | nil =>
    rw [hpending] at hawaits
    exact absurd hawaits hleft
  | cons p rest =>
    exact (h.upcoming p (hpending ▸ rfl)).trans (h.arrivals p (hpending ▸ List.mem_cons_self))

/-- **A run that has anybody left has not passed its horizon.** -/
theorem Ongoing.tick_le (h : s.Ongoing latest total) (hleft : s.machine.outstanding ≠ 0) :
    s.tick ≤ latest + total := by
  cases hrun : s.machine.running with
  | some slot =>
    obtain ⟨b, hslot⟩ := h.sound.scheduler.running_live hrun
    have hspent := h.spent
    have hpos := (h.timely slot b hslot).left_pos
    have hle := remaining_le_load hslot
    have hload : s.machine.load ≤ s.load := Nat.le_add_right _ _
    dsimp only [Tick] at *
    omega
  | none => exact (h.tick_le_latest hleft hrun).trans (Nat.le_add_right _ _)

/-- **What holds before a tick holds before the next one**, and somebody is left then. -/
theorem Ongoing.step (h : s.Ongoing latest total) {next : Simulation}
    (ht : Ticked s (.running next)) :
    next.Ongoing latest total ∧ next.machine.outstanding ≠ 0 ∧ next.tick = s.tick + 1 := by
  cases ht with
  | @running reports m₁ m₂ m₃ hreported hsound₁ hletIn hsound₂ hdone hturn hsound₃ =>
    have htimely₁ := h.timely.reported h.sound hreported
    have htimely₂ := hletIn.timely hsound₁ htimely₁
    obtain ⟨-, hawaits₂⟩ := h.awaits_settled hreported hsound₁ hletIn
    have hturn' := hturn.accounts
    have hcome : ((due s.pending s.tick).map Process.runTime).sum +
        ((notDue s.pending s.tick).map Process.runTime).sum =
        (s.pending.map Process.runTime).sum := by
      rw [← List.sum_append, ← List.map_append, due_append_notDue]
    have hload₂ := hletIn.load_le hsound₁
    have hload₃ : m₃.load = m₂.load := htimely₂.load_turn hsound₂ hturn
    have hbudget := h.budget
    have hspent := h.spent
    rw [load] at hbudget hspent
    -- whether the tick burnt run time or waited
    have hload₁ : m₁.load ≤ s.machine.load ∧
        (s.machine.load ≤ m₁.load → s.tick ≤ latest) := by
      cases hrun : s.machine.running with
      | some slot =>
        have hburnt := h.timely.load_reported h.sound hreported hrun
        exact ⟨by omega, fun hle => by omega⟩
      | none =>
        have htable := table_reported hreported hrun
        have hsame : m₁.load = s.machine.load := by rw [Machine.load, htable, Machine.load]
        refine ⟨hsame.le, fun _ => h.tick_le_latest ?_ hrun⟩
        intro hzero
        have hle := hletIn.outstanding_le.trans (outstanding_reported hreported)
        exact hdone (Nat.le_zero.mp (hzero ▸ hle))
    refine ⟨⟨hsound₃, htimely₂.turn hsound₂ hturn, ?_, Busy.turn hsound₂ hturn, ?_, ?_, ?_, ?_⟩,
      ?_, rfl⟩
    · show m₃.outstanding = m₃.table.toList.length + (notDue s.pending s.tick).length
      rw [hturn'.1, hturn'.2]
      exact hawaits₂
    · exact fun p hp => lt_arrival_of_notDue hp
    · exact fun p hp => h.arrivals p (List.dropWhile_subset _ hp)
    · show m₃.load + ((notDue s.pending s.tick).map Process.runTime).sum ≤ total
      omega
    · show s.tick + 1 + (m₃.load + ((notDue s.pending s.tick).map Process.runTime).sum) ≤ _
      dsimp only [Tick] at *
      omega
    · exact hturn'.1 ▸ hdone

/-! ## Whole runs -/

/-- A run goes on only while somebody is left, and so not beyond its horizon. -/
theorem Ongoing.runFor_ne (h : s.Ongoing latest total) (hleft : s.machine.outstanding ≠ 0) {n : Nat}
    (hn : latest + total < s.tick + n) (next : Simulation) : runFor n s ≠ .running next := by
  induction n generalizing s with
  | zero => exact absurd (h.tick_le hleft) (Nat.not_le_of_lt hn)
  | succ n ih =>
    rw [runFor]
    cases hs : s.step with
    | running s' =>
      obtain ⟨hafter, hleft', htick⟩ := h.step (hs ▸ step_ticked h.sound)
      refine ih hafter hleft' ?_
      rw [htick, Nat.succ_add]
      exact hn
    | finished m tick => exact TickOutcome.noConfusion
    | failed e m => exact TickOutcome.noConfusion

/-- The latest arrival of a workload. -/
def latestArrival (w : Workload) : Tick :=
  (w.processes.map Process.arrival).foldl max 0

/-- All run times of a workload. -/
def totalRunTime (w : Workload) : Nat :=
  (w.processes.map Process.runTime).sum

theorem arrival_le_latest {w : Workload} {p : Process} (hp : p ∈ w.processes) :
    p.arrival ≤ latestArrival w := by
  have hmem : p.arrival ∈ w.processes.map Process.arrival := List.mem_map_of_mem hp
  rw [latestArrival, List.foldl_max_eq_max (List.ne_nil_of_mem hmem)]
  exact (List.le_max_of_mem hmem).trans (Nat.le_max_right _ _)

theorem start_eq {c : Config} (hc : c.Valid) (w : Workload) :
    start c w = .ok ⟨.fresh c w.size, w.processes, 0⟩ := by
  rw [start, Machine.ofConfig_eq hc]
  rfl

/-- Nothing is started with settings that have a fault. -/
theorem valid_of_start {c : Config} {w : Workload} {s : Simulation} (h : start c w = .ok s) :
    c.Valid := by
  obtain ⟨m, hm, -⟩ := ok_of_map h
  obtain ⟨scheduler, hscheduler, -⟩ := ok_of_map hm
  cases hfault : c.fault? with
  | none => exact hfault
  | some fault =>
    have hcheck : c.check = .error (.config fault) := by rw [Config.check, hfault]
    rw [Scheduler.ofConfig, hcheck] at hscheduler
    exact absurd hscheduler (by simp)

/-- A run is ongoing when it starts. -/
theorem start_ongoing {c : Config} (hc : c.Valid) (w : Workload) :
    ∃ s, start c w = .ok s ∧ s.Ongoing (latestArrival w) (totalRunTime w) ∧
      s.pending = w.processes ∧ s.tick = 0 ∧ s.machine.table = .empty ∧
      s.machine.journal = .empty ∧ s.machine.running = none := by
  obtain ⟨m, hm, hsound, htable, hidle, hout, hjournal, -⟩ := Machine.sound_ofConfig hc w.size
  have hload : m.load = 0 := by
    rw [Machine.load, htable]
    rfl
  refine ⟨⟨m, w.processes, 0⟩, by rw [start, hm]; rfl, ⟨hsound, ?_, ?_,
    fun _ => htable ▸ rfl, fun _ _ => Nat.zero_le _, fun p hp => arrival_le_latest hp, ?_, ?_⟩, rfl,
    rfl, htable, hjournal, hidle⟩
  · intro slot b hslot
    have hslot' : m.table.get? slot = some b := hslot
    rw [htable] at hslot'
    exact absurd hslot' (by simp)
  · show m.outstanding = m.table.toList.length + w.processes.length
    rw [hout, htable]
    exact (Nat.zero_add _).symm
  · show m.load + totalRunTime w ≤ totalRunTime w
    omega
  · show 0 + (m.load + totalRunTime w) ≤ latestArrival w + totalRunTime w + 1
    omega

/-- **A run is over by its horizon**: the last tick asked for has either finished it or refused
it. -/
theorem runFor_horizon_ne {w : Workload} (h : s.Ongoing (latestArrival w) (totalRunTime w))
    (hstart : s.tick = 0) (next : Simulation) : runFor (horizon w + 1) s ≠ .running next := by
  rw [runFor]
  cases hs : s.step with
  | running s' =>
    obtain ⟨hafter, hleft, htick⟩ := h.step (hs ▸ step_ticked h.sound)
    refine hafter.runFor_ne hleft ?_ next
    rw [htick, hstart, Nat.zero_add]
    exact Nat.lt_add_of_pos_left Nat.one_pos
  | finished m tick => exact TickOutcome.noConfusion
  | failed e m => exact TickOutcome.noConfusion

/-- **A run of a workload has a last tick**, before which everything holds that every tick keeps, and
what that tick comes to is what the run comes to. -/
theorem exists_end {c : Config} {w : Workload} {P : Simulation → Prop}
    (hstep : ∀ s next, P s → s.step = .running next → P next) (hs : P s)
    (h : s.Ongoing (latestArrival w) (totalRunTime w)) (hstart : start c w = .ok s)
    (htick : s.tick = 0) :
    ∃ last, runFor last.tick s = .running last ∧ P last ∧ (∀ next, last.step ≠ .running next) ∧
      (∀ n, last.tick < n → runFor n s = last.step) ∧ finish c w = .ok last.step ∧
      run c w = last.step.result := by
  have hended := runFor_horizon_ne h htick
  obtain ⟨k, last, hreached, hlast, hover, hafter⟩ := exists_last hstep hs hended
  obtain rfl : last.tick = k := by rw [tick_of_runFor hreached, htick, Nat.zero_add]
  have hnext := hafter _ (Nat.lt_succ_self last.tick)
  have hsame : runFor (horizon w + 1) s = last.step :=
    (runFor_unique (fun next => hnext ▸ hover next) hended).trans hnext
  have hfinish : finish c w = .ok last.step := by
    rw [finish, hstart, ← hsame]
    rfl
  exact ⟨last, hreached, hlast, hover, hafter, hfinish, by rw [run, hfinish]⟩

/-- A run that was not refused has come to an end with its last tick. -/
theorem exists_finish {c : Config} {w : Workload} {P : Simulation → Prop}
    (hstep : ∀ s next, P s → s.step = .running next → P next) (hs : P s)
    (h : s.Ongoing (latestArrival w) (totalRunTime w)) (hstart : start c w = .ok s)
    (htick : s.tick = 0) {r : Report} (hr : run c w = .ok r) :
    ∃ last m t, P last ∧ last.step = .finished m t ∧ runFor (last.tick + 1) s = .finished m t ∧
      finish c w = .ok (.finished m t) ∧ r = m.report := by
  obtain ⟨last, -, hlast, hover, hafter, hfinish, hresult⟩ := exists_end hstep hs h hstart htick
  have hend := hafter _ (Nat.lt_succ_self last.tick)
  rw [hr] at hresult
  cases hout : last.step with
  | running next => exact absurd hout (hover next)
  | failed e m =>
    rw [hout] at hresult
    exact absurd hresult (by simp [TickOutcome.result])
  | finished m t =>
    rw [hout] at hresult hfinish hend
    exact ⟨last, m, t, hlast, hout, hend, hfinish, Except.ok.inj hresult⟩

end Simulation
end Uniprocessor
