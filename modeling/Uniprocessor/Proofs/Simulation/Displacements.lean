import Uniprocessor.Proofs.Machine.Displacements
import Uniprocessor.Proofs.Simulation.Entrants
import Uniprocessor.Proofs.Simulation.Proper

/-!
# Displacements of a run

Under shortest remaining time next nobody is stopped but for somebody who has just been admitted: when
the reports of a tick have been taken, nobody who waits has less to go than the running process, and
whoever comes then waits where the heap puts them.  The entrants of the tick are gathered as they come,
and the end of the tick chooses among them.

Every stop goes with the first start of an entrant, so there are fewer stops than admissions.

* `Simulation.Reaches`: the machines that a run comes to, before its ticks and amid them;
* `Simulation.Served`: what holds before every tick;
* `Served.amid`: what holds when some of the arrivals have been answered;
* `Simulation.run_displaces`: **whoever displaces a process has just been admitted**, and there are fewer
  stops than admissions.
-/

namespace Uniprocessor
namespace Simulation

open Machine

variable {m m' : Machine} {ps news : List Process} {s s₀ : Simulation} {tick f latest : Tick}
  {total n : Nat} {c : Config} {w : Workload}

/-- The machine `m` is one that a run comes to: before a tick, or amid it, when the reports have been
taken and some of the arrivals that are due have been answered. -/
inductive Reaches (s₀ : Simulation) : Machine → Prop
  | before {n : Nat} {s : Simulation} (hreached : runFor n s₀ = .running s) : Reaches s₀ s.machine
  | amid {n : Nat} {s : Simulation} {ps : List Process} (hreached : runFor n s₀ = .running s)
      (hps : ps <+: due s.pending s.tick) :
      Reaches s₀ ((deliver (s.machine.advance s.tick).2 (s.machine.advance s.tick).1).andThen
        fun () m => admitAll m s.tick ps).state

/-- What a run under shortest remaining time next keeps: those who wait do so in the order of what they
have to go, everybody who was stopped has been displaced by an entrant, and there were fewer stops than
admissions. -/
structure Serves (s₀ : Simulation) (m : Machine) : Prop where
  sound : m.Sound []
  policy : m.policy = .shortestRemainingTimeNext
  queued : m.Queued
  displacing : Displacing s₀.entrants m.journal.log.process
  sparing : m.Sparing

theorem Serves.reported (h : Serves s₀ m) {reports : List UnitReport}
    (hreported : Reported m tick reports m') (hsound : m'.Sound []) : Serves s₀ m' := by
  refine ⟨hsound, hreported.policy_eq.trans h.policy, h.queued.reported h.sound hreported, ?_,
    h.sparing.reported hreported⟩
  cases hreported with
  | quiet hquiet => exact h.displacing
  | progress slot b u c hrun hslot hunit hc hcounts hleft => exact h.displacing
  | finished slot b u c memory hrun hslot hunit hc hcounts hleft =>
    rw [log_retired]
    exact h.displacing.append
      (displacing_of_none (List.forall_mem_singleton.mpr ProcessEventKind.noConfusion))

theorem Serves.arrival (h : Serves s₀ m) {p : Process} {admission : Admission} {x : Scheduler}
    (ha : m.toScheduler.Arrival tick p (.done admission x)) (hsound : (m.withScheduler x).Sound []) :
    Serves s₀ (m.withScheduler x) := by
  refine ⟨hsound, ?_, h.queued.arrival h.sound h.policy ha, ?_, h.sparing.arrival h.sound ha⟩
  · cases ha <;> exact h.policy
  · show Displacing s₀.entrants x.journal.log.process
    rw [process_arrival ha]
    exact h.displacing

/-- An arrival that is refused changes nothing about those who wait, and is not logged. -/
theorem Serves.refused (h : Serves s₀ m) {p : Process} {e : Failure}
    (ha : m.arrive tick p = .refused e m') : Serves s₀ m' := by
  have harrival := h.sound.scheduler.arrival tick p
  have hsound := h.sound.arrive tick p
  rw [ha] at hsound
  rw [arrive, schedule] at ha
  generalize m.toScheduler.arrive tick p = outcome at harrival ha
  cases harrival with
  | zeroRunTime hzero =>
    obtain rfl : m = m' := congrArg Attempt.state ha
    exact h
  | rejected hpos hmemory => exact absurd ha.symm (Attempt.refused_ne_done _ _ _ _)
  | admitted block memory ready hpos hmemory hready hperm hinsert =>
    exact absurd ha.symm (Attempt.refused_ne_done _ _ _ _)
  | full table memory hpos hfull hsound' hlist hsame hfits =>
    obtain rfl : m.withScheduler { m.toScheduler with table := table, memory := memory } = m' :=
      congrArg Attempt.state ha
    refine ⟨hsound, h.policy, h.queued.congr fun slot _ => need_congr (hsame slot), h.displacing, ?_, ?_⟩
    · rw [untried_congr (hlist.map ControlBlock.unit)]
      exact h.sparing.starts
    · exact h.sparing.stops.imp_right fun hnew =>
        ⟨hnew.1, fun slot b hslot => hnew.2 slot b ((hsame slot).symm.trans hslot)⟩

theorem LetIn.serves (h : LetIn tick m ps m') (hserves : Serves s₀ m) : Serves s₀ m' := by
  induction h with
  | nil m => exact hserves
  | cons ha hsound hrest ih => exact ih (hserves.arrival ha hsound)

/-- However far a list of arrivals gets. -/
theorem Serves.admitAll (h : Serves s₀ m) (tick : Tick) (ps : List Process) :
    Serves s₀ (admitAll m tick ps).state := by
  rcases admitAll_letIn h.sound tick ps with ⟨m', hanswered, hletIn, -⟩ | ⟨e, m', hrefused⟩
  · rw [hanswered]
    exact hletIn.serves h
  · obtain ⟨before, p, after, m₁, rfl, hanswered, hletIn, -, he⟩ := admitAll_refused h.sound hrefused
    have hstop : Simulation.admitAll m tick (before ++ p :: after) =
        .refused e (m₁.arrive tick p).state := by
      rw [admitAll_append, hanswered, Attempt.andThen_done, admitAll_cons, Attempt.eq_refused he]
      rfl
    rw [hstop]
    exact (hletIn.serves h).refused (Attempt.eq_refused he)

/-- Whoever is admitted of a list of arrivals has entered. -/
theorem LetIn.entered (h : LetIn tick m ps m') (hserves : Serves s₀ m) (hentered : m.Entered news) :
    m'.Entered (news ++ m.entrants tick ps) := by
  induction h generalizing news with
  | nil m => exact (List.append_nil news).symm ▸ hentered
  | cons ha hsound hrest ih =>
    rw [entrants_cons ha, ← List.append_assoc]
    exact ih (hserves.arrival ha hsound) (hentered.arrival hserves.sound hserves.policy ha)

/-! ## Ticks -/

/-- What holds before every tick of a run under shortest remaining time next. -/
structure Served (s₀ s : Simulation) (latest : Tick) (total : Nat) : Prop where
  ongoing : s.Ongoing latest total
  reached : runFor s.tick s₀ = .running s
  serves : Serves s₀ s.machine
  foremost : s.machine.Foremost

/-- **What holds when some of the arrivals of a tick have been answered**, or one of them refused. -/
theorem Served.amid (h : Served s₀ s latest total) (ps : List Process) :
    Serves s₀ ((deliver (s.machine.advance s.tick).2 (s.machine.advance s.tick).1).andThen
      fun () m => Simulation.admitAll m s.tick ps).state := by
  obtain ⟨m₁, hdeliver, hreported, hsound₁⟩ := h.ongoing.sound.report s.tick
  rw [hdeliver]
  exact (h.serves.reported hreported hsound₁).admitAll s.tick ps

theorem Served.step (h : Served s₀ s latest total) {next : Simulation}
    (hnext : s.step = .running next) : Served s₀ next latest total := by
  have hsound := h.ongoing.sound
  have ht := step_ticked hsound
  rw [hnext] at ht
  obtain ⟨hongoing, -, -⟩ := h.ongoing.step ht
  have hreached := reached_step h.reached hnext
  cases ht with
  | running _ _ _ hsound₂ hdone hturn hsound₃ hrun hsettle =>
    obtain ⟨m₁, hdeliver, hreported, hsound₁, hletIn⟩ := delivered_of_settle hsound hsettle
    have hserves₁ := h.serves.reported hreported hsound₁
    have hserves₂ := hletIn.serves hserves₁
    have htimely := hletIn.timely hsound₁ (h.ongoing.timely.reported hsound hreported)
    have hforemost := h.foremost.reported hsound h.ongoing.timely hreported
    have hentered := hletIn.entered hserves₁ (hforemost.entered hserves₁.queued)
    rw [List.nil_append, ← entrants_of_deliver h.reached hdeliver] at hentered
    obtain ⟨hqueued, hforemost'⟩ := hserves₂.queued.turn hsound₂ htimely hserves₂.policy hturn
    obtain ⟨es, hlog, hes⟩ := hentered.turn hsound₂ htimely hserves₂.policy rfl hturn
    refine ⟨hongoing, hreached, ⟨hsound₃, (runTick_counted hrun).1.trans hserves₂.policy, hqueued, ?_,
      hserves₂.sparing.turn hentered hsound₂ htimely hserves₂.policy hturn⟩, hforemost'⟩
    show Displacing s₀.entrants _
    rw [hlog]
    exact hserves₂.displacing.append hes

/-- **Who has the processor after a tick has least to go**, and it is free only if nobody waits. -/
theorem Served.least (h : Served s₀ s latest total) :
    (∀ slot, s.machine.running = some slot → ∃ b, s.machine.table.get? slot = some b ∧
      ∀ x ∈ s.machine.ready.toList, ∃ d, s.machine.table.get? x = some d ∧
        b.remaining ≤ d.remaining) ∧
      (s.machine.running = none → s.machine.ready.toList = []) := by
  have hwaiting : ∀ x ∈ s.machine.ready.toList, ∃ d, s.machine.table.get? x = some d := fun x hx =>
    (h.serves.sound.scheduler.live x).mp (List.mem_append_right _ hx)
  refine ⟨fun slot hrun => ?_, fun hidle => List.eq_nil_iff_forall_not_mem.mpr fun x hx => ?_⟩
  · obtain ⟨b, hslot⟩ := h.serves.sound.scheduler.running_live hrun
    refine ⟨b, hslot, fun x hx => ?_⟩
    obtain ⟨d, hd⟩ := hwaiting x hx
    refine ⟨d, hd, ?_⟩
    rw [← need_eq hslot, ← need_eq hd]
    exact h.foremost slot hrun x hx
  · obtain ⟨d, hd⟩ := hwaiting x hx
    have hmem : d ∈ s.machine.table.toList := ProcessTable.mem_toList.mpr ⟨x, hd⟩
    rw [h.ongoing.busy hidle] at hmem
    exact absurd hmem List.not_mem_nil

/-- **The key of everybody who waits is what they have to go.** -/
theorem Serves.keys (h : Serves s₀ m) : ∃ heap, m.ready = .heap heap ∧ ∀ x ∈ heap.entries,
    ∃ b, m.table.get? x.item = some b ∧ x.key = b.remaining := by
  obtain ⟨heap, hready, -, hkeys⟩ := h.queued
  refine ⟨heap, hready, fun x hx => ?_⟩
  have hmem : x.item ∈ m.ready.toList := by
    rw [hready]
    exact List.mem_map_of_mem (Array.mem_toList_iff.mpr hx)
  obtain ⟨b, hb⟩ := (h.sound.scheduler.live x.item).mp (List.mem_append_right _ hmem)
  exact ⟨b, hb, (hkeys x hx).trans (need_eq hb)⟩

/-! ## Whole runs -/

theorem start_served (hpolicy : c.policy = .shortestRemainingTimeNext) (hstart : start c w = .ok s₀) :
    Served s₀ s₀ (latestArrival w) (totalRunTime w) ∧ s₀.tick = 0 := by
  have hc := valid_of_start hstart
  obtain ⟨s, hstart', hongoing, -, htick, -⟩ := start_ongoing hc w
  obtain rfl : s = s₀ := Except.ok.inj (hstart'.symm.trans hstart)
  obtain rfl := Except.ok.inj ((start_eq hc w).symm.trans hstart)
  have hempty : Displacing (Simulation.entrants ⟨.fresh c w.size, w.processes, 0⟩) [] :=
    displacing_of_none fun _ he => absurd he List.not_mem_nil
  refine ⟨⟨hongoing, rfl, ⟨hongoing.sound, hpolicy, ?_, hempty, ⟨rfl, Or.inr ⟨rfl, ?_⟩⟩⟩, ?_⟩, rfl⟩
  · exact ReadyQueue.keyed_ofPolicy (by rw [hpolicy]; rfl) c.readyCapacity _
  · exact fun slot b hslot => absurd hslot (by simp [Machine.fresh])
  · exact fun slot hrun => absurd hrun (by simp [Machine.fresh])

/-- **Whoever displaces a process has just been admitted.**  Wherever a run under shortest remaining time
next has come to, those who wait do so under keys that are what they have to go, and the event of every
stop is followed by one of an entrant of the same tick, which starts, has less to go than the process that
was stopped, and is the first of the shortest of the entrants; and there are fewer stops than admissions,
if there are any.  After every tick the running process has no more to go than any that waits, and the
processor is free only if nobody waits. -/
theorem run_displaces (hpolicy : c.policy = .shortestRemainingTimeNext) (hstart : start c w = .ok s₀) :
    (∀ m, s₀.Reaches m →
      (∃ heap, m.ready = .heap heap ∧ ∀ x ∈ heap.entries,
        ∃ b, m.table.get? x.item = some b ∧ x.key = b.remaining) ∧
      Displacing s₀.entrants m.journal.log.process ∧
      (m.journal.log.frequency .stopped < m.journal.log.admitted.length ∨
        m.journal.log.frequency .stopped = 0 ∧ m.journal.log.admitted.length = 0)) ∧
    (∀ n s, runFor (n + 1) s₀ = .running s →
      (∀ slot, s.machine.running = some slot → ∃ b, s.machine.table.get? slot = some b ∧
        ∀ x ∈ s.machine.ready.toList, ∃ d, s.machine.table.get? x = some d ∧
          b.remaining ≤ d.remaining) ∧
      (s.machine.running = none → s.machine.ready.toList = [])) ∧
    ∀ r, run c w = .ok r →
      Displacing s₀.entrants r.events.process ∧
      (∀ tick, r.events.admittedAt tick = (s₀.entrants tick).map Process.id) ∧
      (r.events.frequency .stopped < r.events.admitted.length ∨
        r.events.frequency .stopped = 0 ∧ r.events.admitted.length = 0) := by
  obtain ⟨hserved, htick⟩ := start_served hpolicy hstart
  have hstep : ∀ s next, Served s₀ s (latestArrival w) (totalRunTime w) → s.step = .running next →
      Served s₀ next (latestArrival w) (totalRunTime w) := fun _ _ hs hnext => hs.step hnext
  have hreached : ∀ n s, runFor n s₀ = .running s →
      Served s₀ s (latestArrival w) (totalRunTime w) := fun _ _ => of_reached hstep hserved
  refine ⟨fun m hm => ?_, fun n s hs => (hreached _ s hs).least, fun r hr => ?_⟩
  · have hserves : Serves s₀ m := by
      cases hm with
      | before hs => exact (hreached _ _ hs).serves
      | amid hs hps => exact (hreached _ _ hs).amid _
    exact ⟨hserves.keys, hserves.displacing, hserves.sparing.stopped_lt⟩
  · obtain ⟨last, m, t, hlast, hout, -, -, rfl⟩ :=
      exists_finish hstep hserved hserved.ongoing hstart htick hr
    have hserves := hlast.amid (due last.pending last.tick)
    have ht := step_ticked hlast.ongoing.sound
    rw [hout] at ht
    cases ht with
    | finished hreported hsound₁ hletIn hsound₂ hdone hsettle =>
      rw [← settle_eq, hsettle] at hserves
      exact ⟨hserves.displacing, run_entrants hstart hr, hserves.sparing.stopped_lt⟩

/-- A process with five ticks to go gives way to the shorter one of two that come at the next tick, and
has the processor again when both have finished. -/
theorem run_displaces_three :
    ∃ (c : Config) (w : Workload) (s₀ : Simulation) (r : Report),
      c.policy = .shortestRemainingTimeNext ∧ start c w = .ok s₀ ∧ run c w = .ok r ∧
      (r.events.process.map fun e => (e.tick, e.process, e.kind)) =
        [(0, 1, .started), (1, 1, .stopped), (1, 3, .started), (3, 3, .finished), (3, 2, .started),
          (6, 2, .finished), (6, 1, .resumed), (10, 1, .finished)] ∧
      (s₀.entrants 1).map Process.id = [2, 3] ∧
      Displacing s₀.entrants r.events.process ∧
      r.events.frequency .stopped < r.events.admitted.length := by
  let c : Config := { policy := .shortestRemainingTimeNext }
  let w : Workload := ⟨[⟨1, 0, 5, 0, 10⟩, ⟨2, 1, 3, 0, 10⟩, ⟨3, 1, 2, 0, 10⟩]⟩
  have hrun : ((run c w).toOption.map fun r =>
      r.events.process.map fun e => (e.tick, e.process, e.kind)) =
        some [(0, 1, .started), (1, 1, .stopped), (1, 3, .started), (3, 3, .finished),
          (3, 2, .started), (6, 2, .finished), (6, 1, .resumed), (10, 1, .finished)] := by
    decide +kernel
  obtain ⟨r, hr, hevents⟩ := exists_of_toOption_map hrun
  have hstart := start_eq (by decide : c.Valid) w
  obtain ⟨-, -, hdisplaces⟩ := run_displaces (c := c) rfl hstart
  obtain ⟨hdisplacing, hentrants, hfewer⟩ := hdisplaces r hr
  have hadmitted : Simulation.entrants ⟨.fresh c w.size, w.processes, 0⟩ 1 =
      [⟨2, 1, 3, 0, 10⟩, ⟨3, 1, 2, 0, 10⟩] := by decide +kernel
  refine ⟨c, w, _, r, rfl, hstart, hr, hevents, hadmitted ▸ rfl, hdisplacing, hfewer.resolve_right ?_⟩
  rintro ⟨hnone, -⟩
  -- the log tells of one stop
  have hstopped : (r.events.process.map ProcessEvent.kind).count .stopped = 1 := by
    have hkinds : r.events.process.map ProcessEvent.kind =
        (r.events.process.map fun e => (e.tick, e.process, e.kind)).map fun x => x.2.2 := by
      rw [List.map_map]
      rfl
    rw [hkinds, hevents]
    rfl
  rw [List.count, List.countP_map] at hstopped
  rw [EventLog.frequency] at hnone
  exact absurd (hnone.symm.trans hstopped) (by decide)

end Simulation
end Uniprocessor
