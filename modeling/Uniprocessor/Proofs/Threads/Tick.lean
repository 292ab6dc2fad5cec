import Uniprocessor.Proofs.Threads.Midway

/-!
# A tick on threads

Every step of the scheduler in the middle of a tick leaves it in the middle of the same tick, with
less of it left.  There is one theorem for each place where the scheduler stands; together they are
`System.Within.schedulerStep`.
-/

namespace Uniprocessor

namespace Machine

variable {m : Machine} {tick : Tick} {p : Process} {ps : List Process}

/-- A process that is due is let in first. -/
theorem letInAndRun_of_due (m : Machine) (hp : p.arrival ≤ tick) (ps : List Process) :
    m.letInAndRun tick (p :: ps) =
      (m.arrive tick p).andThen fun _ m => m.letInAndRun tick ps := by
  have hdue : Simulation.due (p :: ps) tick = p :: Simulation.due ps tick :=
    List.takeWhile_cons_of_pos (decide_eq_true hp)
  rw [letInAndRun, hdue]
  exact Attempt.andThen_assoc _ _ _

/-- When nobody is due, the arrivals are over. -/
theorem letInAndRun_of_due_nil (m : Machine) (h : Simulation.due ps tick = []) :
    m.letInAndRun tick ps = if m.isDone then .done true m else m.runOn tick := by
  rw [letInAndRun, h]
  rfl

/-- A tick that nobody waits in is only counted. -/
theorem runOn_of_isEmpty (h : m.ready.isEmpty = true) : m.runOn tick = m.count := by
  rw [runOn, runTick, if_pos h]
  rfl

/-- The end of a tick that somebody waits in. -/
theorem runOn_of_waiting (h : m.ready.isEmpty = false) :
    m.runOn tick = m.refresh.andThen fun left m =>
      (m.follow tick left).andThen fun () m => m.count := by
  rw [runOn, runTick, if_neg (by simp [h]), dispatch_eq, Attempt.andThen_assoc,
    Attempt.andThen_assoc]
  rfl

end Machine

namespace System

open Simulation (due notDue)

variable {σ : Simulation} {s s' : System} {ps : List Process} {message : ArrivalMessage}
  {b : ControlBlock} {unit : UnitId} {slot next : Slot}

/-! ## Arrivals -/

theorem notDue_of_due {p : Process} {tick : Tick} (hp : p.arrival ≤ tick) (ps : List Process) :
    notDue (p :: ps) tick = notDue ps tick :=
  List.dropWhile_cons_of_pos (decide_eq_true hp)

/-- The scheduler goes on when the batch is closed. -/
theorem Calm.afterArrivals (h : Calm σ s)
    (hdrained : s.generator.Drained s.crew.clock s.arrivals s.arrivalsOpen (notDue ps s.tick))
    (hleft : notDue ps s.tick = notDue σ.pending s.tick) (hdue : due ps s.tick = [])
    (hrest : s.machine.letInAndRun s.tick ps = σ.outlook) : Midway σ s.afterArrivals := by
  rw [Machine.letInAndRun_of_due_nil _ hdue] at hrest
  rw [System.afterArrivals]
  cases hdone : s.scheduler.isDone with
  | true =>
    have hdone' : s.machine.isDone = true := hdone
    rw [if_pos hdone'] at hrest
    exact h.returned hrest
  | false =>
    have hdone' : ¬ s.machine.isDone = true := by rw [show s.machine.isDone = _ from hdone]; simp
    rw [if_neg hdone'] at hrest
    exact (h.schedule s.scheduler .deciding).midway rfl (by simp) hdrained hleft hrest

/-- The scheduler takes a message of the generator. -/
theorem Calm.takeArrival (h : Calm σ s) (hopen : s.arrivalsOpen = true)
    (htold : s.generator.Told s.crew.clock s.arrivals s.tick message ps)
    (hleft : notDue ps s.tick = notDue σ.pending s.tick)
    (hrest : s.machine.letInAndRun s.tick ps = σ.outlook) : Midway σ (s.takeArrival message) := by
  cases htold with
  | arrival p rest hdue hsupplies =>
    rw [Machine.letInAndRun_of_due _ hdue] at hrest
    rw [notDue_of_due hdue] at hleft
    show Midway σ (s.carryOut (s.scheduler.arrive s.tick p) fun _ s => s.enter .awaitArrivals)
    exact h.carryOut hrest fun admission hrest' =>
      (h.schedule _ .awaitArrivals).midway rfl (by simp) (hopen ▸ hsupplies) hleft hrest'
  | batchComplete p rest hdue hdrained =>
    have hkept : notDue (p :: rest) s.tick = p :: rest :=
      List.dropWhile_cons_of_neg (by simpa using hdue)
    have hnone : due (p :: rest) s.tick = [] := List.takeWhile_cons_of_neg (by simpa using hdue)
    show Midway σ (if s.tick = s.tick then s.afterArrivals else _)
    rw [if_pos rfl]
    exact h.afterArrivals (by rw [hkept, hopen]; exact hdrained) hleft hnone hrest
  | exhausted hdrained =>
    have h' : Calm σ { s with arrivalsOpen := false } := ⟨h.tick, h.kept, h.held, h.coming⟩
    exact h'.afterArrivals (show Generator.Drained _ _ _ false (notDue [] s.tick) from hdrained) hleft
      rfl hrest

/-- The scheduler goes on with the arrivals of a tick. -/
theorem Calm.awaitArrivals (h : Calm σ s)
    (hsupplies : s.generator.Supplies s.crew.clock s.arrivals s.arrivalsOpen s.tick ps)
    (hleft : notDue ps s.tick = notDue σ.pending s.tick)
    (hrest : s.machine.letInAndRun s.tick ps = σ.outlook) : Midway σ (s.enter .awaitArrivals) :=
  (h.schedule s.scheduler .awaitArrivals).midway rfl (by simp) hsupplies hleft hrest

/-! ## Reports -/

/-- The scheduler takes the report of the running process's unit. -/
theorem Calm.takeReport (h : Calm σ s) {report : UnitReport} (htick : report.tick = s.tick)
    (hsupplies : s.generator.Supplies s.crew.clock s.arrivals s.arrivalsOpen s.tick ps)
    (hleft : notDue ps s.tick = notDue σ.pending s.tick)
    (hrest : ((s.machine.onReport report).andThen fun () m => m.letInAndRun s.tick ps) = σ.outlook) :
    Midway σ (s.takeReport report) := by
  rw [System.takeReport, if_neg (by simp [htick])]
  rw [Machine.onReport, show s.machine.addressee report = s.scheduler.addressee report from rfl]
    at hrest
  cases haddressee : s.scheduler.addressee report with
  | error e =>
    rw [haddressee] at hrest
    exact h.fail hrest
  | ok block =>
    obtain ⟨slot, b⟩ := block
    rw [haddressee] at hrest
    cases report with
    | progress unit tick left => exact (h.schedule _ s.phase).awaitArrivals hsupplies hleft hrest
    | finished unit tick =>
      obtain rfl : tick = s.tick := htick
      change (s.machine.retire s.tick).andThen _ = _ at hrest
      rw [Machine.retire_eq, Attempt.andThen_assoc] at hrest
      show Midway σ (s.carryOut s.scheduler.evict fun evicted s =>
        s.enter (.checkFinish evicted.1 evicted.2))
      refine h.carryOut hrest ?_
      intro evicted hrest'
      exact (h.schedule _ (.checkFinish evicted.1 evicted.2)).midway rfl (by simp) hsupplies hleft
        hrest'

/-- The scheduler tells a unit that has reported its end to stop. -/
theorem Calm.stopFinished (h : Calm σ s)
    (hsupplies : s.generator.Supplies s.crew.clock s.arrivals s.arrivalsOpen s.tick ps)
    (hleft : notDue ps s.tick = notDue σ.pending s.tick)
    (hrest : ((s.machine.retireEvicted s.tick b unit).andThen fun () m =>
      m.letInAndRun s.tick ps) = σ.outlook) : Midway σ (s.stopFinished b unit) := by
  rw [Machine.retireEvicted, Attempt.andThen_assoc] at hrest
  rw [System.stopFinished]
  refine h.readThen hrest ?_
  intro left hrest'
  rw [Machine.checkFinished] at hrest'
  by_cases hzero : left = 0
  · rw [if_pos hzero] at hrest' ⊢
    refine h.sendThen (UnitCommand.quiets_stop s.tick) rfl (by simp) hsupplies hleft ?_ ?_
    · intro e he
      rw [Attempt.andThen_done, Machine.release, show s.machine.units.reap unit = .error e from
        UnitPool.reap_of_command_error he] at hrest'
      exact hrest'
    · intro crew hsent hpool
      have hmachine : Machine.mk s.scheduler crew.pool = s.machine := by
        rw [hpool, UnitPool.tell_stop]
        rfl
      show ((Machine.mk s.scheduler crew.pool).release s.tick { b with remaining := left } unit).andThen
        (fun () m => m.letInAndRun s.tick ps) = σ.outlook
      rw [hmachine]
      exact hrest'
  · rw [if_neg hzero] at hrest' ⊢
    exact h.fail hrest'

/-- The scheduler accounts for a finished process whose unit has been released. -/
theorem Calm.closeFinished (h : Calm σ s)
    (hsupplies : s.generator.Supplies s.crew.clock s.arrivals s.arrivalsOpen s.tick ps)
    (hleft : notDue ps s.tick = notDue σ.pending s.tick)
    (hrest : ((s.machine.bury s.tick b unit).andThen fun () m => m.letInAndRun s.tick ps) =
      σ.outlook) : Midway σ (s.closeFinished b unit) := by
  let noted := s.scheduler.note (.reaped unit b.id)
  show Midway σ (s.carryOut (noted.close s.tick { b with state := .finished })
    fun () s => s.enter .awaitArrivals)
  exact h.carryOut hrest fun _ hrest' =>
    (h.schedule _ s.phase).awaitArrivals hsupplies hleft hrest'

/-! ## Dispatch -/

/-- The dispatch is over. -/
theorem Calm.endDispatch (h : Calm σ s)
    (hdrained : s.generator.Drained s.crew.clock s.arrivals s.arrivalsOpen (notDue ps s.tick))
    (hleft : notDue ps s.tick = notDue σ.pending s.tick) (hrest : s.machine.count = σ.outlook) :
    Midway σ s.endDispatch :=
  (h.schedule s.scheduler.countTick .settling).midway rfl (by simp) hdrained hleft hrest

/-- The scheduler takes the running process off the processor. -/
theorem Calm.displace (h : Calm σ s)
    (hdrained : s.generator.Drained s.crew.clock s.arrivals s.arrivalsOpen (notDue ps s.tick))
    (hleft : notDue ps s.tick = notDue σ.pending s.tick)
    (hrest : ((s.machine.act s.tick .swap).andThen fun () m => m.count) = σ.outlook) :
    Midway σ s.displace := by
  rw [Machine.act_swap, Attempt.andThen_assoc] at hrest
  refine h.carryOut hrest ?_
  intro next hrest'
  have h₁ := h.schedule s.scheduler.takeNext.state s.phase
  rw [Attempt.andThen_assoc] at hrest'
  refine h₁.carryOut hrest' ?_
  intro detached hrest''
  obtain ⟨slot, b, unit⟩ := detached
  have h₂ := h₁.schedule s.scheduler.takeNext.state.detach.state s.phase
  rw [Attempt.andThen_assoc] at hrest''
  refine h₂.sendThen (UnitCommand.quiets_pause s.tick) rfl (by simp) hdrained hleft
    ?_ ?_
  · intro e he
    change (Machine.command _ (s.crew.pool.command unit .pause)).andThen _ = _ at hrest''
    rw [show s.crew.pool.command unit .pause = .error e from he] at hrest''
    exact hrest''
  · intro crew hsent hpool
    change (Machine.command _ (s.crew.pool.command unit .pause)).andThen _ = _ at hrest''
    rw [show s.crew.pool.command unit .pause = .ok crew.pool from hsent] at hrest''
    exact hrest''

/-- The scheduler acts on a decision. -/
theorem Calm.follow (h : Calm σ s)
    (hdrained : s.generator.Drained s.crew.clock s.arrivals s.arrivalsOpen (notDue ps s.tick))
    (hleft : notDue ps s.tick = notDue σ.pending s.tick) {left : Option Nat}
    (hrest : ((s.machine.follow s.tick left).andThen fun () m => m.count) = σ.outlook) :
    Midway σ (s.follow left) := by
  rw [Machine.follow, show s.machine.decide s.tick left = s.scheduler.decide s.tick left from rfl]
    at hrest
  rw [System.follow]
  generalize s.scheduler.decide s.tick left = outcome at hrest ⊢
  obtain ⟨decision, scheduler⟩ := outcome
  have h' := h.schedule scheduler s.phase
  cases decision with
  | keep => exact h'.endDispatch hdrained hleft hrest
  | launch =>
    rw [Machine.act, Attempt.andThen_assoc] at hrest
    show Midway σ (System.carryOut _ scheduler.takeNext fun next s =>
      { s with scheduler := s.scheduler.freshSlice, phase := .binding next })
    exact h'.carryOut hrest fun next hrest' =>
      (h'.schedule _ (.binding next)).midway rfl (by simp) hdrained hleft hrest'
  | swap => exact h'.displace hdrained hleft hrest

/-- The scheduler begins a dispatch. -/
theorem Calm.beginDispatch (h : Calm σ s)
    (hdrained : s.generator.Drained s.crew.clock s.arrivals s.arrivalsOpen (notDue ps s.tick))
    (hleft : notDue ps s.tick = notDue σ.pending s.tick)
    (hrest : s.machine.runOn s.tick = σ.outlook) : Midway σ s.beginDispatch := by
  rw [System.beginDispatch]
  cases hempty : s.scheduler.ready.isEmpty with
  | true =>
    rw [Machine.runOn_of_isEmpty hempty] at hrest
    exact h.endDispatch hdrained hleft hrest
  | false =>
    rw [Machine.runOn_of_waiting hempty, Machine.refresh,
      show s.machine.occupant = s.scheduler.occupant from rfl] at hrest
    rw [if_neg (by simp)]
    cases hoccupant : s.scheduler.occupant with
    | error e =>
      rw [hoccupant] at hrest
      exact h.fail hrest
    | ok occupant =>
      rw [hoccupant] at hrest
      cases occupant with
      | none => exact h.follow hdrained hleft hrest
      | some occupant =>
        obtain ⟨slot, b, unit⟩ := occupant
        refine (h.schedule s.scheduler (.readRunning slot b unit)).midway rfl (by simp) hdrained hleft
          (Eq.trans ?_ hrest)
        show (s.machine.followRunning s.tick slot b unit).andThen (fun () m => m.count) = _
        simp only [Machine.followRunning, Attempt.andThen_assoc, Attempt.andThen_done]

/-- The scheduler decides, knowing what the running process has left. -/
theorem Calm.decideRunning (h : Calm σ s)
    (hdrained : s.generator.Drained s.crew.clock s.arrivals s.arrivalsOpen (notDue ps s.tick))
    (hleft : notDue ps s.tick = notDue σ.pending s.tick)
    (hrest : ((s.machine.followRunning s.tick slot b unit).andThen fun () m => m.count) =
      σ.outlook) : Midway σ (s.decideRunning slot b unit) := by
  rw [Machine.followRunning, Attempt.andThen_assoc] at hrest
  exact h.readThen hrest fun left hrest' =>
    (h.schedule (s.scheduler.heard slot b left) s.phase).follow hdrained hleft hrest'

/-- The scheduler lets the displaced process wait again. -/
theorem Calm.requeueDisplaced (h : Calm σ s)
    (hdrained : s.generator.Drained s.crew.clock s.arrivals s.arrivalsOpen (notDue ps s.tick))
    (hleft : notDue ps s.tick = notDue σ.pending s.tick)
    (hrest : ((s.machine.replace s.tick next slot b unit).andThen fun () m => m.count) =
      σ.outlook) : Midway σ (s.requeueDisplaced next slot b unit) := by
  rw [Machine.replace, Attempt.andThen_assoc] at hrest
  refine h.readThen hrest ?_
  intro left hrest'
  rw [Attempt.andThen_assoc] at hrest'
  exact h.carryOut hrest' fun _ hrest'' =>
    (h.schedule _ (.binding next)).midway rfl (by simp) hdrained hleft hrest''

/-- The scheduler gives the processor to a process. -/
theorem Calm.bind (h : Calm σ s)
    (hdrained : s.generator.Drained s.crew.clock s.arrivals s.arrivalsOpen (notDue ps s.tick))
    (hleft : notDue ps s.tick = notDue σ.pending s.tick)
    (hrest : ((s.machine.occupy s.tick slot).andThen fun () m => m.count) = σ.outlook) :
    Midway σ (s.bind slot) := by
  rw [Machine.occupy, show s.machine.candidate slot = s.scheduler.candidate slot from rfl] at hrest
  rw [System.bind]
  cases hcandidate : s.scheduler.candidate slot with
  | error e =>
    rw [hcandidate] at hrest
    exact h.fail hrest
  | ok b =>
    rw [hcandidate] at hrest
    dsimp only at hrest ⊢
    cases hunit : b.unit with
    | some unit =>
      rw [hunit] at hrest
      dsimp only at hrest ⊢
      rw [Attempt.andThen_assoc] at hrest
      refine h.sendThen (UnitCommand.quiets_resume (Nat.le_refl s.tick)) rfl (by simp) hdrained hleft
        ?_ ?_
      · intro e he
        change (Machine.command _ (s.crew.pool.command unit (.resume s.tick))).andThen _ = _ at hrest
        rw [he] at hrest
        exact hrest
      · intro crew hsent hpool
        change (Machine.command _ (s.crew.pool.command unit (.resume s.tick))).andThen _ = _ at hrest
        rw [hsent] at hrest
        exact hrest
    | none =>
      rw [hunit] at hrest
      obtain ⟨hnumber, hpool, hcalm, hqueue⟩ := h.startUnit b.remaining
      refine (hcalm.schedule (s.scheduler.occupy s.tick slot (b.started s.tick
        (s.crew.start b.remaining s.tick).1) .started) s.phase).endDispatch (hdrained.congr hqueue)
        hleft ?_
      show Machine.count ⟨s.scheduler.occupy s.tick slot (b.started s.tick
        (s.crew.start b.remaining s.tick).1) .started, (s.crew.start b.remaining s.tick).2.pool⟩ = _
      rw [hpool, hnumber]
      exact hrest

/-! ## Waiting -/

/-- The scheduler has waited for a report. -/
theorem Within.awaitReport (h : Within σ s ps) (hphase : s.phase = .awaitReport)
    (hstep : s.schedulerStep? = some s') : Midway σ s' := by
  obtain ⟨report, hcoming, htick⟩ := h.expects.awaited hphase
  have hkept := h.kept
  have hstreams := h.streams
  have hrest := h.outlook
  rw [hphase] at hkept hstreams
  rw [System.outlook, hphase, hcoming] at hrest
  rw [schedulerStep?, hphase] at hstep
  cases hreports : s.crew.reports with
  | nil =>
    rw [hreports] at hstep
    exact absurd hstep (by simp)
  | cons r reports =>
    rw [hreports] at hstep
    obtain rfl := Option.some.inj hstep
    rw [Crew.coming, hreports] at hcoming
    obtain ⟨rfl, hnone⟩ := List.cons.inj hcoming
    have hcalm : Calm σ { s with crew := { s.crew with reports := reports } } :=
      ⟨h.tick, ⟨hkept.orderly.withReports reports, hkept.foreign, hkept.listens,
        hkept.sane⟩, h.held, hnone⟩
    have hcalm' := hcalm.schedule s.scheduler s.phase
    rw [← hphase]
    refine hcalm'.takeReport htick hstreams h.left ?_
    rw [← hrest, Simulation.deliver, Attempt.andThen_assoc]
    rfl

/-- The scheduler has waited for the end of a unit. -/
theorem Within.joining (h : Within σ s ps) (hphase : s.phase = .joining b unit)
    (hstep : s.schedulerStep? = some s') : Midway σ s' := by
  have herrand : s.phase.errand s.tick = some (unit, .stop) := by rw [hphase]; rfl
  have hrest := h.outlook
  rw [System.outlook, hphase] at hrest
  rw [schedulerStep?, hphase] at hstep
  obtain ⟨crew, hjoin, rfl⟩ := Option.map_eq_some_iff.mp hstep
  obtain ⟨hcalm, hpool, ⟨c, hc⟩, hstreams⟩ := h.join herrand (by simp [hphase]) hjoin
  rw [hphase] at hstreams
  refine (hcalm.schedule s.scheduler _).closeFinished hstreams h.left ?_
  change (s.machine.release s.tick b unit).andThen _ = _ at hrest
  rw [Machine.release, show s.machine.units.reap unit = .ok (s.crew.pool.drop unit) from
    UnitPool.reap_eq hc] at hrest
  show (Machine.bury ⟨s.scheduler, crew.pool⟩ s.tick b unit).andThen _ = _
  rw [hpool]
  exact hrest

/-- The scheduler has waited for a message of the generator. -/
theorem Within.awaitArrivals (h : Within σ s ps) (hphase : s.phase = .awaitArrivals)
    (hstep : s.schedulerStep? = some s') : Midway σ s' := by
  have hcalm := h.calm (by rw [hphase]; rfl) (by simp [hphase])
  have hstreams := h.streams
  have hrest := h.outlook
  rw [hphase] at hstreams
  rw [System.outlook, hphase] at hrest
  rw [schedulerStep?, hphase] at hstep
  change s.generator.Supplies _ _ _ _ _ at hstreams
  cases hopen : s.arrivalsOpen with
  | false =>
    rw [hopen] at hstep hstreams
    obtain rfl := Option.some.inj hstep
    obtain ⟨rfl, hdrained⟩ := hstreams.drained
    exact hcalm.afterArrivals (hopen ▸ hdrained) h.left rfl hrest
  | true =>
    rw [hopen] at hstep hstreams
    cases harrivals : s.arrivals with
    | nil =>
      rw [harrivals] at hstep hstreams
      have hgoes := (hstreams.step?_isSome hcalm.kept.listens).2
      change s.generator.result?.map _ = _ at hstep
      rw [hgoes] at hstep
      exact absurd hstep (by simp)
    | cons message arrivals =>
      rw [harrivals] at hstep hstreams
      obtain rfl := Option.some.inj hstep
      have hcalm' : Calm σ { s with
          arrivals := arrivals, arrivalsOpen := true, phase := .awaitArrivals } :=
        ⟨hcalm.tick, hcalm.kept, hcalm.held, hcalm.coming⟩
      exact hcalm'.takeArrival rfl hstreams.told h.left hrest

/-- The scheduler has waited for the answer to a pause. -/
theorem Within.pausing (h : Within σ s ps) (hphase : s.phase = .pausing next slot b unit)
    (hstep : s.schedulerStep? = some s') : Midway σ s' := by
  have herrand : s.phase.errand s.tick = some (unit, .pause) := by rw [hphase]; rfl
  have hrest := h.outlook
  rw [System.outlook, hphase] at hrest
  rw [schedulerStep?, hphase] at hstep
  dsimp only at hstep
  cases hack : s.crew.takeAck? unit with
  | none =>
    rw [hack] at hstep
    exact absurd hstep (by simp)
  | some answer =>
    obtain ⟨ack, crew⟩ := answer
    obtain ⟨⟨d, hanswer⟩, hcalm, hpool, hstreams⟩ := h.takeAck herrand (by simp [hphase]) hack
    obtain rfl := Option.some.inj hanswer
    rw [hack] at hstep
    obtain rfl := Option.some.inj hstep
    rw [hphase] at hstreams
    refine (hcalm.schedule s.scheduler (.readPaused next slot b unit)).midway rfl (by simp) hstreams
      h.left ?_
    show ((Machine.mk s.scheduler crew.pool).replace s.tick next slot b unit).andThen
      (fun () m => m.count) = _
    rw [hpool]
    exact hrest

/-- The scheduler has waited for the answer to a resume. -/
theorem Within.resuming (h : Within σ s ps) (hphase : s.phase = .resuming slot b unit)
    (hstep : s.schedulerStep? = some s') : Midway σ s' := by
  have herrand : s.phase.errand s.tick = some (unit, .resume s.tick) := by rw [hphase]; rfl
  have hrest := h.outlook
  rw [System.outlook, hphase] at hrest
  rw [schedulerStep?, hphase] at hstep
  dsimp only at hstep
  cases hack : s.crew.takeAck? unit with
  | none =>
    rw [hack] at hstep
    exact absurd hstep (by simp)
  | some answer =>
    obtain ⟨ack, crew⟩ := answer
    obtain ⟨⟨d, hanswer⟩, hcalm, hpool, hstreams⟩ := h.takeAck herrand (by simp [hphase]) hack
    obtain rfl := Option.some.inj hanswer
    rw [hack] at hstep
    obtain rfl := Option.some.inj hstep
    rw [hphase] at hstreams
    refine (hcalm.schedule (s.scheduler.occupy s.tick slot (b.resumed s.tick) .resumed)
      (.resuming slot b unit)).endDispatch hstreams h.left ?_
    show Machine.count ⟨s.scheduler.occupy s.tick slot (b.resumed s.tick) .resumed, crew.pool⟩ = _
    rw [hpool]
    exact hrest

/-! ## All places in a tick -/

/-- **In the middle of a tick the scheduler goes on with the tick**, until it has settled it. -/
theorem Within.schedulerStep (h : Within σ s ps) (hsettling : s.phase ≠ .settling)
    (hstep : s.schedulerStep? = some s') : Midway σ s' := by
  have hstreams := h.streams
  have hrest := h.outlook
  have hcalm := h.calm
  have hstep' := hstep
  rw [schedulerStep?] at hstep'
  rw [System.outlook] at hrest
  cases hphase : s.phase with
  | awaitReport => exact h.awaitReport hphase hstep
  | joining b unit => exact h.joining hphase hstep
  | awaitArrivals => exact h.awaitArrivals hphase hstep
  | pausing next slot b unit => exact h.pausing hphase hstep
  | resuming slot b unit => exact h.resuming hphase hstep
  | checkFinish b unit =>
    rw [hphase] at hstep' hstreams hrest hcalm
    obtain rfl := Option.some.inj hstep'
    exact (hcalm rfl (by simp)).stopFinished hstreams h.left hrest
  | deciding =>
    rw [hphase] at hstep' hstreams hrest hcalm
    obtain rfl := Option.some.inj hstep'
    exact (hcalm rfl (by simp)).beginDispatch hstreams h.left hrest
  | readRunning slot b unit =>
    rw [hphase] at hstep' hstreams hrest hcalm
    obtain rfl := Option.some.inj hstep'
    exact (hcalm rfl (by simp)).decideRunning hstreams h.left hrest
  | readPaused next slot b unit =>
    rw [hphase] at hstep' hstreams hrest hcalm
    obtain rfl := Option.some.inj hstep'
    exact (hcalm rfl (by simp)).requeueDisplaced hstreams h.left hrest
  | binding slot =>
    rw [hphase] at hstep' hstreams hrest hcalm
    obtain rfl := Option.some.inj hstep'
    exact (hcalm rfl (by simp)).bind hstreams h.left hrest
  | settling => exact absurd hphase hsettling
  | awaitTick => exact (hphase ▸ hstreams : Phase.awaitTick.Streams _ _ _ _ _ _).elim
  | returned result =>
    rw [hphase] at hstep'
    exact absurd hstep' (by simp)

end System
end Uniprocessor
