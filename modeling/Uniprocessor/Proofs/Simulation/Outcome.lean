import Uniprocessor.Proofs.Machine.Settings
import Uniprocessor.Proofs.Memory.Vacancy
import Uniprocessor.Proofs.Simulation.Horizon
import Uniprocessor.Proofs.Workload.Basic

/-!
# How a run ends

A run has a last tick, no later than the last arrival and all run times together.  It ends with every
process finished or rejected, and then nothing is left of them: no process, no unit, and no node of
the arena.  Or it is refused, and then an arrival that there was memory for met as many waiting
processes as there is room for.  Nothing else can come of it.

* `Machine.Cleared`: nothing is left, which is so if no process is live;
* `Machine.Obeys`, `Machine.expected`: what a tick keeps of the configuration, and of the number of
  processes;
* `Simulation.Arrives`, `Simulation.Crowded`: an arrival, and one that finds no room;
* `Simulation.Underway`: what holds before every tick of a run;
* `Simulation.run_ends`: **a run ends, and how.**
-/

namespace Uniprocessor
namespace Machine

variable {m m' : Machine} {tick : Tick} {slot : Slot} {p : Process} {c : Config}

/-! ## Nothing left -/

/-- A machine that nothing is left in. -/
structure Cleared (m : Machine) : Prop where
  running : m.running = none
  ready : m.ready.size = 0
  table : m.table.toList = []
  units : m.units.size = 0
  /-- No node of the arena is in use. -/
  memory : m.memory.root = .absent ∧ m.memory.nodeCount = 0

/-- Where no process is live, nothing is left. -/
theorem Sound.cleared (h : m.Sound []) (hlive : m.table.toList = []) : m.Cleared := by
  have hnone : ∀ slot, slot ∉ m.places [] := by
    intro slot hmem
    obtain ⟨b, hslot⟩ := (h.scheduler.live slot).mp hmem
    have hb : b ∈ m.table.toList := ProcessTable.mem_toList.mpr ⟨slot, hslot⟩
    rw [hlive] at hb
    exact List.not_mem_nil hb
  have hplaces := List.eq_nil_iff_forall_not_mem.mpr hnone
  rw [Scheduler.places, List.append_eq_nil_iff, List.nil_append] at hplaces
  have hblocks := h.scheduler.blocks
  rw [hlive] at hblocks
  refine ⟨Option.toList_eq_nil_iff.mp hplaces.1, ?_, hlive, ?_,
    h.scheduler.memory.eq_absent hblocks.eq_nil⟩
  · rw [← ReadyQueue.length_toList h.scheduler.ready, hplaces.2]
    rfl
  · have hnumbers := h.numbers
    rw [hlive] at hnumbers
    have hlen := hnumbers.length_eq
    rwa [UnitPool.numbers, List.length_map] at hlen

/-- And nobody waits. -/
theorem Sound.toList_ready_eq_nil (h : m.Sound []) (hlive : m.table.toList = []) :
    m.ready.toList = [] := by
  rw [← List.length_eq_zero_iff, ReadyQueue.length_toList h.scheduler.ready, (h.cleared hlive).ready]

/-! ## What a tick keeps -/

/-- A machine that keeps to a configuration. -/
structure Obeys (m : Machine) (c : Config) : Prop where
  policy : m.policy = c.policy
  capacity : m.ready.capacity = c.readyCapacity

theorem Obeys.reported (h : m.Obeys c) {reports : List UnitReport}
    (hr : Reported m tick reports m') : m'.Obeys c := by
  cases hr <;> exact ⟨h.policy, h.capacity⟩

theorem Obeys.arrival (h : m.Obeys c) {admission : Admission} {s : Scheduler}
    (ha : m.toScheduler.Arrival tick p (.done admission s)) : (m.withScheduler s).Obeys c := by
  cases ha with
  | rejected hpos hmemory => exact ⟨h.policy, h.capacity⟩
  | admitted block memory ready hpos hmemory hready hperm hinsert =>
    exact ⟨h.policy, (ReadyQueue.capacity_insert hinsert).trans h.capacity⟩

theorem Obeys.runTick (h : m.Obeys c) (hrun : m.runTick tick = .done () m') : m'.Obeys c := by
  obtain ⟨hpolicy, hcapacity, -⟩ := runTick_counted hrun
  exact ⟨hpolicy.trans h.policy, hcapacity.trans h.capacity⟩

/-- The arrivals that a machine was told to expect: those that it still waits for or that are live,
and those that have finished or were rejected. -/
def expected (m : Machine) : Nat :=
  m.outstanding + m.metrics.finished + m.metrics.rejected

theorem expected_reported {reports : List UnitReport} {coming : Nat} (h : m.Awaits coming)
    (hr : Reported m tick reports m') : m'.expected = m.expected := by
  cases hr with
  | quiet hquiet => rfl
  | progress slot b u c hrun hslot hunit hc hcounts hleft => rfl
  | finished slot b u c memory hrun hslot hunit hc hcounts hleft =>
    -- the process that finishes was outstanding
    have hlen := ProcessTable.length_vacate hslot
    have hone : 0 < m.outstanding := by
      rw [Awaits] at h
      omega
    show m.outstanding - 1 + (m.metrics.finishes.push _).size + m.metrics.rejected =
      m.outstanding + m.metrics.finishes.size + m.metrics.rejected
    rw [Array.size_push]
    omega

theorem expected_runTick (hturn : Turn m tick m') (hrun : m.runTick tick = .done () m') :
    m'.expected = m.expected := by
  obtain ⟨-, -, hmetrics⟩ := runTick_counted hrun
  rw [expected, expected, hturn.accounts.1, hmetrics, Metrics.finished, Metrics.finishes_countTick,
    Metrics.rejected_countTick, Metrics.finished]

/-! ## An arrival that finds no room -/

theorem result_arrive (m : Machine) (tick : Tick) (p : Process) :
    (m.arrive tick p).result = (m.toScheduler.arrive tick p).result := rfl

/-- An arrival that there is memory for, but no room, is refused. -/
theorem Sound.arrive_full (h : m.Sound []) (hpos : p.runTime ≠ 0)
    (hfits : (m.memory.allocate? p.memory).isSome = true) (hfull : m.ready.size = m.ready.capacity)
    (tick : Tick) : (m.arrive tick p).result = .error (.full m.ready.capacity) := by
  rw [result_arrive]
  have ha := h.scheduler.arrival tick p
  generalize m.toScheduler.arrive tick p = outcome at ha ⊢
  cases ha with
  | zeroRunTime hzero => exact absurd hzero hpos
  | rejected _ hmemory =>
    rw [hmemory] at hfits
    exact absurd hfits (by simp)
  | admitted block memory ready _ hmemory hready hperm hinsert =>
    rw [ReadyQueue.insert_full h.scheduler.ready hfull.ge] at hinsert
    exact absurd hinsert (by simp)
  | full table memory _ hfull hsound hlist hsame => rfl

/-- An arrival is refused only if it has no run time, or there is memory for it but no room. -/
theorem Sound.arrive_error (h : m.Sound []) (hpos : p.runTime ≠ 0) {e : Failure}
    (herror : (m.arrive tick p).result = .error e) :
    e = .full m.ready.capacity ∧ (m.memory.allocate? p.memory).isSome = true ∧
      m.ready.size = m.ready.capacity := by
  rw [result_arrive] at herror
  have ha := h.scheduler.arrival tick p
  generalize m.toScheduler.arrive tick p = outcome at ha herror
  cases ha with
  | zeroRunTime hzero => exact absurd hzero hpos
  | rejected _ hmemory => exact absurd herror (by simp [Attempt.done])
  | admitted block memory ready _ hmemory hready hperm => exact absurd herror (by simp [Attempt.done])
  | full table memory _ hfull hsound hlist hsame hfits =>
    exact ⟨(Except.error.inj herror).symm, hfits, hfull⟩

end Machine

namespace Simulation

open Machine

variable {m m' : Machine} {ps before after : List Process} {p : Process} {s s₀ : Simulation}
  {tick : Tick} {c : Config} {w : Workload}

theorem LetIn.obeys (h : LetIn tick m ps m') (hm : m.Obeys c) : m'.Obeys c := by
  induction h with
  | nil m => exact hm
  | cons ha hsound hrest ih => exact ih (hm.arrival ha)

theorem LetIn.expected_eq (h : LetIn tick m ps m') (hm : m.Sound []) {coming : Nat}
    (hawaits : m.Awaits (ps.length + coming)) : m'.expected = m.expected := by
  induction h with
  | nil m => rfl
  | @cons m m' p ps admission s ha hsound hrest ih =>
    have hone : LetIn tick m [p] (m.withScheduler s) := .cons ha hsound (.nil _)
    rw [List.length_cons, Nat.add_right_comm, Nat.add_comm _ 1] at hawaits
    refine (ih hsound (hone.awaits hm hawaits)).trans ?_
    cases ha with
    | rejected hpos hmemory =>
      rw [Awaits] at hawaits
      show m.outstanding - 1 + m.metrics.finished + (m.metrics.rejected + 1) =
        m.outstanding + m.metrics.finished + m.metrics.rejected
      omega
    | admitted block memory ready hpos hmemory hready hperm => rfl

/-! ## Arrivals of a run -/

/-- In the run that starts with `s₀`, the process `p` arrives at the machine `m`. -/
def Arrives (s₀ : Simulation) (p : Process) (m : Machine) : Prop :=
  ∃ n s m₁ before after, runFor n s₀ = .running s ∧
    deliver (s.machine.advance s.tick).2 (s.machine.advance s.tick).1 = .done () m₁ ∧
    due s.pending s.tick = before ++ p :: after ∧ admitAll m₁ s.tick before = .done () m

/-- In a run some process arrives that there is memory for, and finds `capacity` processes waiting. -/
def Crowded (s₀ : Simulation) (capacity : Nat) : Prop :=
  ∃ p m, s₀.Arrives p m ∧ (m.memory.allocate? p.memory).isSome = true ∧ m.ready.size = capacity

theorem admitAll_append (m : Machine) (tick : Tick) (before after : List Process) :
    admitAll m tick (before ++ after) =
      (admitAll m tick before).andThen fun () m => admitAll m tick after := by
  induction before generalizing m with
  | nil => rfl
  | cons p before ih =>
    rw [List.cons_append, admitAll_cons, admitAll_cons, Attempt.andThen_assoc]
    exact congrArg (m.arrive tick p).andThen (funext fun _ => funext fun m => ih m)

/-- Where a list of arrivals is refused, those before one of them are answered, and that one is
refused. -/
theorem admitAll_refused {e : Failure} (h : m.Sound [])
    (hrefused : admitAll m tick ps = .refused e m') :
    ∃ before p after m₁, ps = before ++ p :: after ∧ admitAll m tick before = .done () m₁ ∧
      LetIn tick m before m₁ ∧ m₁.Sound [] ∧ (m₁.arrive tick p).result = .error e := by
  induction ps generalizing m with
  | nil => exact absurd hrefused.symm (Attempt.refused_ne_done e m' m ())
  | cons p ps ih =>
    have harrival := h.scheduler.arrival tick p
    have hafter := h.arrive tick p
    rw [admitAll_cons] at hrefused
    rw [Machine.arrive, Machine.schedule] at hafter hrefused
    cases hout : m.toScheduler.arrive tick p with
    | mk result s =>
      rw [hout] at harrival hafter hrefused
      cases result with
      | error e' =>
        obtain rfl := Except.error.inj (congrArg Attempt.result hrefused)
        refine ⟨[], p, ps, m, rfl, rfl, .nil m, h, ?_⟩
        rw [result_arrive, hout]
      | ok admission =>
        obtain ⟨before, q, after, m₁, rfl, hanswered, hletIn, hsound, hq⟩ := ih hafter hrefused
        refine ⟨p :: before, q, after, m₁, rfl, ?_, .cons harrival hafter hletIn, hsound, hq⟩
        rw [admitAll_cons, Machine.arrive, Machine.schedule, hout]
        exact hanswered

/-- What holds before every tick of a run of a workload. -/
structure Underway (s : Simulation) (c : Config) (w : Workload) : Prop where
  ongoing : s.Ongoing (latestArrival w) (totalRunTime w)
  obeys : s.machine.Obeys c
  expected : s.machine.expected = w.size
  positive : ∀ p ∈ s.pending, p.runTime ≠ 0
  early : s.tick ≤ latestArrival w + totalRunTime w

/-- What holds after the reports and the arrivals of a tick. -/
theorem Underway.settled (h : s.Underway c w) {reports : List UnitReport} {m₁ m₂ : Machine}
    (hreported : Reported s.machine s.tick reports m₁) (hsound : m₁.Sound [])
    (hletIn : LetIn s.tick m₁ (due s.pending s.tick) m₂) :
    m₂.Obeys c ∧ m₂.expected = w.size := by
  obtain ⟨hawaits, -⟩ := h.ongoing.awaits_settled hreported hsound hletIn
  exact ⟨hletIn.obeys (h.obeys.reported hreported), (hletIn.expected_eq hsound hawaits).trans
    ((expected_reported h.ongoing.awaits hreported).trans h.expected)⟩

/-- After them, those are awaited who are live or still to come. -/
theorem Underway.awaits_of_settle (h : s.Underway c w) (hsettle : s.settle = .done () m) :
    m.Awaits (notDue s.pending s.tick).length := by
  obtain ⟨m₁, hreported, hsound, hletIn⟩ := letIn_of_settle h.ongoing.sound hsettle
  exact (h.ongoing.awaits_settled hreported hsound hletIn).2

theorem Underway.step (h : s.Underway c w) {next : Simulation} (hnext : s.step = .running next) :
    next.Underway c w := by
  have ht := step_ticked h.ongoing.sound
  rw [hnext] at ht
  obtain ⟨hongoing, hleft, -⟩ := h.ongoing.step ht
  cases ht with
  | running hreported hsound₁ hletIn hsound₂ hdone hturn hsound₃ hrun =>
    obtain ⟨hobeys, hexpected⟩ := h.settled hreported hsound₁ hletIn
    exact ⟨hongoing, hobeys.runTick hrun, (expected_runTick hturn hrun).trans hexpected,
      fun p hp => h.positive p (List.dropWhile_subset _ hp), hongoing.tick_le hleft⟩

/-- When nobody is left, everybody has finished or was rejected, and nothing is left of them. -/
theorem Underway.finish (h : s.Underway c w) {t : Tick} (hfinish : s.step = .finished m t) :
    t = s.tick ∧ m.Cleared ∧ m.metrics.finished + m.metrics.rejected = w.size := by
  obtain ⟨hsound, hlive, -⟩ := h.ongoing.nobody_left hfinish
  have ht := step_ticked h.ongoing.sound
  rw [hfinish] at ht
  cases ht with
  | finished hreported hsound₁ hletIn hsound₂ hdone =>
    obtain ⟨-, hexpected⟩ := h.settled hreported hsound₁ hletIn
    rw [Machine.expected, hdone, Nat.zero_add] at hexpected
    exact ⟨rfl, hsound.cleared hlive, hexpected⟩

/-- A run is refused only for an arrival that finds no room. -/
theorem Underway.fail (h : s.Underway c w) {e : Failure} (hfail : s.step = .failed e m) {n : Nat}
    (hreached : runFor n s₀ = .running s) :
    e = .full c.readyCapacity ∧ s₀.Crowded c.readyCapacity := by
  have ht := step_ticked h.ongoing.sound
  rw [hfail] at ht
  cases ht with
  | failed e m hreported hsound₁ hdeliver hrefused =>
    obtain ⟨before, p, after, m₁, hdue, hanswered, hletIn, hsound, hp⟩ :=
      admitAll_refused hsound₁ hrefused
    have hmem : p ∈ s.pending := by
      rw [← due_append_notDue s.pending s.tick, hdue]
      simp
    have hcapacity := (hletIn.obeys (h.obeys.reported hreported)).capacity
    obtain ⟨he, hfits, hfull⟩ := hsound.arrive_error (h.positive p hmem) hp
    rw [hcapacity] at he hfull
    exact ⟨he, p, m₁, ⟨n, s, _, before, after, hreached, hdeliver, hdue, hanswered⟩, hfits, hfull⟩

/-- A run in which an arrival finds no room is refused. -/
theorem Crowded.refused (h : s₀.Crowded c.readyCapacity)
    (hunderway : ∀ n s, runFor n s₀ = .running s → s.Underway c w) :
    ∃ n m, runFor n s₀ = .failed (.full c.readyCapacity) m := by
  obtain ⟨p, m, ⟨n, s, m₁, before, after, hreached, hdeliver, hdue, hanswered⟩, hfits, hfull⟩ := h
  have hs := hunderway n s hreached
  obtain ⟨m₁', hdeliver', hreported, hsound₁⟩ := hs.ongoing.sound.report s.tick
  obtain rfl : m₁' = m₁ := congrArg Attempt.state (hdeliver'.symm.trans hdeliver)
  rcases admitAll_letIn hsound₁ s.tick before with ⟨m', hm', hletIn, hsound⟩ | ⟨e, m', hm'⟩
  · obtain rfl : m' = m := congrArg Attempt.state (hm'.symm.trans hanswered)
    have hcapacity := (hletIn.obeys (hs.obeys.reported hreported)).capacity
    have hmem : p ∈ s.pending := by
      rw [← due_append_notDue s.pending s.tick, hdue]
      simp
    have hp := hsound.arrive_full (hs.positive p hmem) hfits (hfull.trans hcapacity.symm) s.tick
    have hsettle : s.settle.result = .error (.full c.readyCapacity) := by
      rw [settle_eq, hdeliver, Attempt.andThen_done, hdue, admitAll_append, hanswered,
        Attempt.andThen_done, admitAll_cons, Attempt.andThen, hp, hcapacity]
      rfl
    refine ⟨n + 1, s.settle.state, ?_⟩
    rw [runFor_succ_of_running hreached, step]
    generalize s.settle = outcome at hsettle
    obtain ⟨result, m'⟩ := outcome
    obtain rfl : result = .error (.full c.readyCapacity) := hsettle
    rfl
  · exact absurd (hm'.symm.trans hanswered) (Attempt.refused_ne_done e m' m ())

/-! ## Whole runs -/

/-- In the order of arrival, the last process is one that arrives latest. -/
theorem latestArrival_eq (hsorted : w.processes.Pairwise fun p q => p.arrival ≤ q.arrival) :
    latestArrival w = w.lastArrival?.getD 0 := by
  rw [latestArrival, Workload.lastArrival?]
  rcases List.eq_nil_or_concat w.processes with hnil | ⟨init, last, hlast⟩
  · rw [hnil]
    rfl
  · rw [List.concat_eq_append] at hlast
    rw [hlast] at hsorted
    have hle : ∀ p ∈ w.processes, p.arrival ≤ last.arrival := by
      intro p hp
      rw [hlast] at hp
      rcases List.mem_append.mp hp with hp | hp
      · exact (List.pairwise_append.mp hsorted).2.2 p hp last List.mem_cons_self
      · exact List.mem_singleton.mp hp ▸ Nat.le_refl _
    have hne : w.processes.map Process.arrival ≠ [] := by simp [hlast]
    have hmem : last ∈ w.processes := hlast ▸ List.mem_append_right _ (List.mem_singleton_self _)
    have hlast? : w.processes.getLast? = some last := hlast ▸ List.getLast?_concat ..
    rw [hlast?, List.foldl_max_eq_max hne, Nat.zero_max]
    refine Nat.le_antisymm ((List.max_le_iff hne).mpr ?_) (List.le_max_of_mem ?_)
    · exact List.forall_mem_map.mpr hle
    · exact List.mem_map_of_mem hmem

/-- A run is underway when it starts. -/
theorem start_underway (hc : c.Valid) (hpos : ∀ p ∈ w.processes, p.runTime ≠ 0) :
    ∃ s, start c w = .ok s ∧ s.Underway c w ∧ s.tick = 0 := by
  obtain ⟨s, hstart, hongoing, hpending, htick, htable, hjournal, hidle⟩ := start_ongoing hc w
  obtain rfl := Except.ok.inj ((start_eq hc w).symm.trans hstart)
  refine ⟨_, hstart, ⟨hongoing, ⟨rfl, ReadyQueue.capacity_ofPolicy _ _⟩, rfl, hpos, Nat.zero_le _⟩, rfl⟩

/-- A run that is underway stays so. -/
theorem Underway.reached (h : s₀.Underway c w) {n : Nat} (hrun : runFor n s₀ = .running s) :
    s.Underway c w := by
  rcases runFor_induction (fun s next hs hnext => Underway.step hs hnext) h n with
    ⟨last, -, -, hover⟩ | ⟨s', hs', hrun'⟩
  · exact absurd hrun (hover s)
  · exact TickOutcome.running.inj (hrun.symm.trans hrun') ▸ hs'

/-- **A run ends by the last arrival and all run times together.**  Either everybody has finished or
was rejected by then, and nothing is left; or it is refused, and this is so exactly if an arrival
that there is memory for finds as many processes waiting as may wait. -/
theorem run_ends {c : Config} (hc : c.Valid) {ps : List Process} {w : Workload}
    (hw : Workload.ofList ps = .ok w) :
    ∃ s₀ last, start c w = .ok s₀ ∧ runFor last.tick s₀ = .running last ∧
      (∀ n, last.tick < n → runFor n s₀ = last.step) ∧
      last.tick ≤ w.lastArrival?.getD 0 + (w.processes.map Process.runTime).sum ∧
      ((∃ m, last.step = .finished m last.tick ∧ run c w = .ok m.report ∧
          ¬ s₀.Crowded c.readyCapacity ∧ m.Cleared ∧
          m.report.summary.finished + m.report.summary.rejected = w.size) ∨
        ∃ m, last.step = .failed (.full c.readyCapacity) m ∧
          run c w = .error (.full c.readyCapacity) ∧ s₀.Crowded c.readyCapacity) := by
  obtain ⟨-, hpos, -⟩ := Workload.ofList_ok hw
  obtain ⟨s₀, hstart, hunderway, htick⟩ := start_underway hc hpos
  obtain ⟨last, hreached, hlast, hover, hafter, -, hresult⟩ :=
    exists_end (fun s next hs hnext => Underway.step hs hnext) hunderway hunderway.ongoing hstart htick
  have hearly := hlast.early
  rw [latestArrival_eq (Workload.pairwise_ofList hw), totalRunTime] at hearly
  refine ⟨s₀, last, hstart, hreached, hafter, hearly, ?_⟩
  cases hout : last.step with
  | running next => exact absurd hout (hover next)
  | finished m t =>
    obtain ⟨rfl, hcleared, hall⟩ := hlast.finish hout
    refine Or.inl ⟨m, rfl, by rw [hresult, hout]; rfl, ?_, hcleared, hall⟩
    intro hcrowded
    obtain ⟨n, m', hrefused⟩ := hcrowded.refused fun n s => hunderway.reached
    have hnext := hafter _ (Nat.lt_succ_self last.tick)
    have hsame := runFor_unique (n := n) (by simp [hrefused]) fun next => hnext ▸ hover next
    rw [hrefused, hnext, hout] at hsame
    exact absurd hsame (by simp)
  | failed e m =>
    obtain ⟨rfl, hcrowded⟩ := hlast.fail hout hreached
    exact Or.inr ⟨m, rfl, by rw [hresult, hout]; rfl, hcrowded⟩

/-- Two processes arrive together where only one may wait. -/
theorem run_ends_crowded :
    ∃ c ps w s₀, Config.Valid c ∧ Workload.ofList ps = .ok w ∧
      w.processes.map Process.id = [1, 2] ∧ start c w = .ok s₀ ∧
      run c w = .error (.full 1) ∧ s₀.Crowded 1 := by
  have hc : ({ policy := .roundRobin 1, readyCapacity := 1 } : Config).Valid := by decide
  have hw : Workload.ofList [⟨1, 0, 2, 0, 100⟩, ⟨2, 0, 2, 0, 100⟩] = .ok ⟨_⟩ :=
    Workload.ofList_of_pairwise rfl (by decide)
  obtain ⟨s₀, last, hstart, -, -, -, hfinished | ⟨m, -, hrun, hcrowded⟩⟩ := run_ends hc hw
  · obtain ⟨m, -, hrun, -⟩ := hfinished
    have hrefused : run { policy := .roundRobin 1, readyCapacity := 1 }
      ⟨[⟨1, 0, 2, 0, 100⟩, ⟨2, 0, 2, 0, 100⟩]⟩ = .error (.full 1) := rfl
    exact absurd (hrefused.symm.trans hrun) (by simp)
  · exact ⟨_, _, _, s₀, hc, hw, rfl, hstart, hrun, hcrowded⟩

end Simulation
end Uniprocessor
