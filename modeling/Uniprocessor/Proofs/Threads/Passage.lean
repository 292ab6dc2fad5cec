import Uniprocessor.Proofs.Simulation.Horizon
import Uniprocessor.Proofs.Threads.Tick

/-!
# From tick to tick

The scheduler settles a tick and waits for the next one; the clock moves; the scheduler takes the
new tick, and is at the beginning of the next tick of the lockstep run.  Units and generator make
their steps at any time in between, and the units may have counted the new tick, and the generator
may have sent its batch, before the scheduler hears of it.

* `System.Within`: in the middle of a tick;
* `System.Settled`: the tick has been settled and the clock has not moved;
* `System.Moved`: the clock has moved and the scheduler has not taken the new tick;
* `System.Follows.step`: **every step of every party leads from one of these to one of these**.
-/

namespace Uniprocessor
namespace System

open Simulation (notDue)

variable {σ : Simulation} {s s' : System} {ps : List Process} {unit : UnitId} {source : Source}
  {crew : Crew} {g : Generator} {clock : Clock} {message? : Option ArrivalMessage}

/-! ## Other parties in the middle of a tick -/

/-- What is left of a tick depends on a crew by its pool and its reports only. -/
theorem outlook_withCrew (hpool : crew.pool = s.crew.pool) (hcoming : crew.coming = s.crew.coming)
    (g : Generator) (arrivals : List ArrivalMessage) :
    { s with crew := crew, generator := g, arrivals := arrivals }.outlook ps = s.outlook ps := by
  have hmachine : ({ s with crew := crew, generator := g, arrivals := arrivals } : System).machine =
      s.machine := by
    show Machine.mk s.scheduler crew.pool = ⟨s.scheduler, s.crew.pool⟩
    rw [hpool]
  rw [outlook, outlook, hmachine, hcoming]

theorem Expects.withCrew (h : s.Expects) (hcoming : crew.coming.Perm s.crew.coming)
    (g : Generator) (arrivals : List ArrivalMessage) :
    crew.coming = s.crew.coming ∧
      { s with crew := crew, generator := g, arrivals := arrivals }.Expects := by
  have hsame : crew.coming = s.crew.coming := by
    by_cases hphase : s.phase = .awaitReport
    · obtain ⟨r, hr, -⟩ := h.awaited hphase
      rw [hr] at hcoming ⊢
      exact List.perm_singleton.mp hcoming
    · rw [h.quiet hphase] at hcoming ⊢
      exact hcoming.eq_nil
  refine ⟨hsame, ?_, fun hphase => hsame.trans (h.quiet hphase)⟩
  intro hphase
  obtain ⟨r, hr, htick⟩ := h.awaited hphase
  exact ⟨r, hsame.trans hr, htick⟩

/-- A unit makes a step. -/
theorem Within.unitStep (h : Within σ s ps) (hstep : s.crew.step? unit source = some crew) :
    Within σ { s with crew := crew } ps := by
  have hheeded := h.kept.orderly.step hstep
  obtain ⟨hkept, hqueue⟩ := h.kept.heeded hheeded
  obtain ⟨hcoming, hexpects⟩ := h.expects.withCrew hheeded.coming s.generator s.arrivals
  exact ⟨h.tick, hkept, h.held.congr hheeded.apart.tick hheeded.apart.settled, hexpects,
    h.streams.congr hqueue, h.left,
    (outlook_withCrew hheeded.pool hcoming s.generator s.arrivals).trans h.outlook⟩

/-- The generator makes a step. -/
theorem Within.generatorStep (h : Within σ s ps)
    (hstep : s.generator.step? s.crew.clock true = some (message?, g, clock)) :
    Within σ { s with
      crew := { s.crew with clock := clock }
      generator := g
      arrivals := s.arrivals ++ message?.toList } ps := by
  have hsent := Generator.step?_sent h.kept.listens hstep
  obtain ⟨hkept, hpool, hcoming⟩ := h.kept.generatorStep hstep
  obtain ⟨-, hexpects⟩ := h.expects.withCrew (.of_eq hcoming) g (s.arrivals ++ message?.toList)
  exact ⟨h.tick, hkept, h.held.congr hsent.tick hsent.settled, hexpects,
    h.streams.step h.kept.listens hstep, h.left,
    (outlook_withCrew hpool hcoming g _).trans h.outlook⟩

/-- The clock does not move while it is held. -/
theorem step?_of_held {driver : ClockDriver} {tick : Tick} (h : clock.Held driver tick)
    (hrun : clock.stopped = false) : driver.step? clock = none := by
  have hunsettled : clock.isSettled = false := by
    rw [Clock.isSettled]
    cases hsettled : clock.settled with
    | none => rfl
    | some k => exact decide_eq_false (Nat.not_le_of_lt (h.now ▸ h.unsettled k hsettled))
  rw [h.waiting]
  show clock.waitSettled?.map _ = none
  rw [Clock.waitSettled?, hrun, hunsettled]
  rfl

/-! ## The tick has been settled -/

/-- The scheduler has settled the tick of a lockstep run, and the clock has not moved. -/
structure Settled (σ : Simulation) (s : System) : Prop where
  phase : s.phase = .awaitTick
  tick : s.tick = σ.tick
  kept : s.crew.Kept s.generator none
  now : s.crew.clock.tick = s.tick
  settled : s.crew.clock.settled = some s.tick
  driver : s.driver ≠ .ended
  coming : s.crew.coming = []
  drained : s.generator.Drained s.crew.clock s.arrivals s.arrivalsOpen (notDue σ.pending s.tick)
  outlook : .done false s.machine = σ.outlook

/-- The clock has moved to the tick of a lockstep run, and the scheduler has not heard of it. -/
structure Moved (σ : Simulation) (s : System) : Prop where
  phase : s.phase = .awaitTick
  tick : σ.tick = s.tick + 1
  kept : s.crew.Kept s.generator none
  held : s.crew.clock.Held s.driver σ.tick
  coming : s.crew.coming.Perm (σ.machine.advance σ.tick).1
  supplies : s.generator.Supplies s.crew.clock s.arrivals s.arrivalsOpen σ.tick σ.pending
  machine : s.machine = (σ.machine.advance σ.tick).2

/-- The scheduler settles a tick. -/
theorem Within.settle (h : Within σ s ps) (hphase : s.phase = .settling)
    (hstep : s.schedulerStep? = some s') : Settled σ s' := by
  have hcalm := h.calm (by rw [hphase]; rfl) (by simp [hphase])
  have hstreams := h.streams
  have hrest := h.outlook
  rw [hphase] at hstreams
  rw [System.outlook, hphase] at hrest
  rw [schedulerStep?, hphase] at hstep
  obtain rfl := Option.some.inj hstep
  have hdrained : s.generator.Drained s.crew.clock s.arrivals s.arrivalsOpen (notDue ps s.tick) :=
    hstreams
  rw [h.left] at hdrained
  have hsettled : (s.crew.clock.settle s.tick).settled = some s.tick := by
    rw [Clock.settle]
    cases hold : s.crew.clock.settled with
    | none => rfl
    | some k => exact congrArg some (Nat.max_eq_right (Nat.le_of_lt (h.held.unsettled k hold)))
  have hkept := hcalm.kept
  have horderly := (hkept.orderly.withClock (s.crew.clock.settle s.tick) rfl rfl (Nat.le_refl _)
    fun _ _ => rfl).1
  exact ⟨rfl, h.tick, ⟨horderly, hkept.foreign, hkept.listens, hkept.sane⟩,
    h.held.now, hsettled, by rw [h.held.waiting]; simp, hcalm.coming, hdrained.congr rfl, hrest⟩

/-- A settled tick is the end of a tick of the lockstep run, and there is a next one. -/
theorem Settled.step (h : Settled σ s) :
    σ.step = .running ⟨s.machine, notDue σ.pending σ.tick, σ.tick + 1⟩ := by
  rw [Simulation.step_eq_conclude, ← h.outlook]
  rfl

theorem Settled.unitStep (h : Settled σ s) (hstep : s.crew.step? unit source = some crew) :
    Settled σ { s with crew := crew } := by
  have hheeded := h.kept.orderly.step hstep
  obtain ⟨hkept, hqueue⟩ := h.kept.heeded hheeded
  have hcoming := hheeded.coming
  rw [h.coming] at hcoming
  refine ⟨h.phase, h.tick, hkept, hheeded.apart.tick.trans h.now,
    hheeded.apart.settled.trans h.settled, h.driver, hcoming.eq_nil, h.drained.congr hqueue, ?_⟩
  rw [← h.outlook]
  show Attempt.done false (Machine.mk s.scheduler crew.pool) = _
  rw [hheeded.pool]
  rfl

/-- The clock moves once the tick has been settled. -/
theorem Settled.clockStep (h : Settled σ s) {driver : ClockDriver}
    (hstep : s.driver.step? s.crew.clock = some (driver, clock)) :
    Settled σ { s with driver := driver, crew := { s.crew with clock := clock } } ∨
      Moved ⟨s.machine, notDue σ.pending σ.tick, σ.tick + 1⟩
        { s with driver := driver, crew := { s.crew with clock := clock } } := by
  rcases ClockDriver.step?_cases h.kept.orderly.running hstep with
    ⟨-, -, rfl, rfl⟩ | ⟨-, rfl, rfl⟩
  · exact Or.inl ⟨h.phase, h.tick, h.kept, h.now, h.settled, by simp, h.coming, h.drained, h.outlook⟩
  · have htick : s.crew.clock.tick = σ.tick := h.now.trans h.tick
    obtain ⟨horderly, hpool, hcoming⟩ := h.kept.orderly.advance h.coming
    have hsupplies := h.drained.advance h.kept.listens
    rw [htick, h.tick] at hsupplies
    rw [htick] at hpool hcoming
    refine Or.inr ⟨h.phase, congrArg (· + 1) h.tick.symm, ⟨horderly, ?_, ?_, h.kept.sane⟩,
      ⟨congrArg (· + 1) htick, rfl, ?_⟩, .of_eq hcoming, hsupplies, ?_⟩
    · exact ⟨(List.length_map _).symm ▸ h.kept.foreign.1, h.kept.foreign.2⟩
    · exact (Clock.open_advanced h.kept.listens).1
    · intro k hk
      obtain rfl : s.tick = k := Option.some.inj (h.settled.symm.trans hk)
      exact h.tick ▸ Nat.lt_succ_self _
    · show Machine.mk s.scheduler _ = Machine.mk s.scheduler _
      rw [hpool]
      rfl

/-! ## The clock has moved -/

theorem Moved.unitStep (h : Moved σ s) (hstep : s.crew.step? unit source = some crew) :
    Moved σ { s with crew := crew } := by
  have hheeded := h.kept.orderly.step hstep
  obtain ⟨hkept, hqueue⟩ := h.kept.heeded hheeded
  refine ⟨h.phase, h.tick, hkept, h.held.congr hheeded.apart.tick hheeded.apart.settled,
    hheeded.coming.trans h.coming, h.supplies.congr hqueue, ?_⟩
  rw [← h.machine]
  show Machine.mk s.scheduler crew.pool = Machine.mk s.scheduler s.crew.pool
  rw [hheeded.pool]

theorem Moved.generatorStep (h : Moved σ s)
    (hstep : s.generator.step? s.crew.clock true = some (message?, g, clock)) :
    Moved σ { s with
      crew := { s.crew with clock := clock }
      generator := g
      arrivals := s.arrivals ++ message?.toList } := by
  have hsent := Generator.step?_sent h.kept.listens hstep
  obtain ⟨hkept, hpool, hcoming⟩ := h.kept.generatorStep hstep
  refine ⟨h.phase, h.tick, hkept, h.held.congr hsent.tick hsent.settled, hcoming ▸ h.coming,
    h.supplies.step h.kept.listens hstep, ?_⟩
  rw [← h.machine]
  exact congrArg (Machine.mk s.scheduler) hpool

/-- The scheduler hears of the new tick. -/
theorem Moved.schedulerStep?_eq (h : Moved σ s) :
    s.schedulerStep? = some { s with
      tick := σ.tick
      phase := if s.scheduler.runningBlock?.isSome then .awaitReport else .awaitArrivals } := by
  have hnow : s.crew.clock.tick = s.tick + 1 := h.held.now.trans h.tick
  have hwait : s.crew.clock.waitPast? s.tick = some (some (s.tick + 1)) := by
    rw [Clock.waitPast?, h.kept.orderly.running, if_neg (by simp), hnow, if_pos (Nat.lt_succ_self _)]
  rw [schedulerStep?, h.phase, h.tick]
  dsimp only
  rw [hwait]
  show some (s.takeTick (s.tick + 1)) = _
  rw [takeTick, if_pos rfl]

/-- **The scheduler takes the new tick, and is at the beginning of it.** -/
theorem Moved.takeTick (h : Moved σ s) (hsound : σ.machine.Sound [])
    (htimely : σ.machine.Timely σ.tick) (hstep : s.schedulerStep? = some s') :
    Within σ s' σ.pending := by
  have hscheduler : s.scheduler = σ.machine.toScheduler := congrArg Machine.toScheduler h.machine
  rw [h.schedulerStep?_eq] at hstep
  obtain rfl := Option.some.inj hstep
  have hcoming := h.coming
  have hreported := htimely.reports hsound
  rw [← hscheduler] at hreported
  rcases hreported with ⟨hrun, r, hreports, htick⟩ | ⟨hidle, hreports⟩
  · rw [hreports] at hcoming
    have hone := List.perm_singleton.mp hcoming
    rw [hrun, if_pos rfl]
    refine ⟨rfl, h.kept, h.held, ⟨fun _ => ⟨r, hone, htick⟩, fun hne => absurd rfl hne⟩, h.supplies,
      rfl, ?_⟩
    rw [Simulation.outlook, hreports, ← hone, ← h.machine]
    rfl
  · rw [hreports] at hcoming
    rw [hidle, if_neg (by simp)]
    refine ⟨rfl, h.kept, h.held, ⟨fun hawait => absurd hawait (by simp), fun _ => hcoming.eq_nil⟩,
      h.supplies, rfl, ?_⟩
    rw [Simulation.outlook, hreports, ← h.machine]
    rfl

/-! ## All places in a run -/

/-- A run on threads is at a tick of a lockstep run, or between it and the one before. -/
inductive Follows (σ : Simulation) (s : System) : Prop
  | within (h : Midway σ s)
  | settled (h : Settled σ s)
  | moved (h : Moved σ s)

/-- A unit makes a step. -/
theorem Follows.unitStep (h : Follows σ s) (hstep : s.crew.step? unit source = some crew) :
    Follows σ { s with crew := crew } := by
  cases h with
  | within h =>
    obtain ⟨ps, h⟩ := h
    exact .within ⟨ps, h.unitStep hstep⟩
  | settled h => exact .settled (h.unitStep hstep)
  | moved h => exact .moved (h.unitStep hstep)

/-- The generator makes a step. -/
theorem Follows.generatorStep (h : Follows σ s)
    (hstep : s.generator.step? s.crew.clock true = some (message?, g, clock)) :
    Follows σ { s with
      crew := { s.crew with clock := clock }
      generator := g
      arrivals := s.arrivals ++ message?.toList } := by
  cases h with
  | within h =>
    obtain ⟨ps, h⟩ := h
    exact .within ⟨ps, h.generatorStep hstep⟩
  | settled h => exact absurd (h.drained.resting.step? h.kept.listens) (by simp [hstep])
  | moved h => exact .moved (h.generatorStep hstep)

/-- The clock makes a step. -/
theorem Follows.clockStep (h : Follows σ s) {driver : ClockDriver}
    (hstep : s.driver.step? s.crew.clock = some (driver, clock)) :
    ∃ σ', (σ' = σ ∨ σ.step = .running σ') ∧
      Follows σ' { s with driver := driver, crew := { s.crew with clock := clock } } := by
  cases h with
  | within h =>
    obtain ⟨ps, h⟩ := h
    exact absurd (step?_of_held h.held h.kept.orderly.running) (by simp [hstep])
  | settled h =>
    rcases h.clockStep hstep with h' | h'
    · exact ⟨σ, Or.inl rfl, .settled h'⟩
    · exact ⟨_, Or.inr h.step, .moved h'⟩
  | moved h => exact absurd (step?_of_held h.held h.kept.orderly.running) (by simp [hstep])

/-- While the clock has not moved, the scheduler waits for it. -/
theorem Settled.schedulerStep?_eq (h : Settled σ s) : s.schedulerStep? = none := by
  have hwait : s.crew.clock.waitPast? s.tick = none := by
    rw [Clock.waitPast?, h.kept.orderly.running, if_neg (by simp), h.now,
      if_neg (Nat.lt_irrefl _)]
  rw [schedulerStep?, h.phase]
  dsimp only
  rw [hwait]
  rfl

/-- The scheduler makes a step. -/
theorem Follows.schedulerStep (h : Follows σ s) (hsound : σ.machine.Sound [])
    (htimely : σ.machine.Timely σ.tick) (hstep : s.schedulerStep? = some s') : Follows σ s' := by
  cases h with
  | within h =>
    obtain ⟨ps, h⟩ := h
    by_cases hphase : s.phase = .settling
    · exact .settled (h.settle hphase hstep)
    · exact .within (h.schedulerStep hphase hstep)
  | settled h => exact absurd h.schedulerStep?_eq (by simp [hstep])
  | moved h => exact .within ⟨σ.pending, h.takeTick hsound htimely hstep⟩

/-- **Every step of every party follows the lockstep run**, at the same tick or to the next one. -/
theorem Follows.step (h : Follows σ s) (hsound : σ.machine.Sound [])
    (htimely : σ.machine.Timely σ.tick) {party : Party} (hstep : s.step? party = some s') :
    ∃ σ', (σ' = σ ∨ σ.step = .running σ') ∧ Follows σ' s' := by
  cases party with
  | scheduler => exact ⟨σ, Or.inl rfl, h.schedulerStep hsound htimely hstep⟩
  | clock =>
    obtain ⟨⟨driver, clock⟩, hclock, rfl⟩ := Option.map_eq_some_iff.mp hstep
    exact h.clockStep hclock
  | generator =>
    obtain ⟨⟨message?, g, clock⟩, hgenerator, rfl⟩ := Option.map_eq_some_iff.mp hstep
    exact ⟨σ, Or.inl rfl, h.generatorStep hgenerator⟩
  | unit unit source =>
    obtain ⟨crew, hcrew, rfl⟩ := Option.map_eq_some_iff.mp hstep
    exact ⟨σ, Or.inl rfl, h.unitStep hcrew⟩

/-! ## Nobody waits for ever -/

theorem unitStep?_isSome (h : (s.crew.step? unit source).isSome = true) :
    ∃ party, (s.step? party).isSome = true :=
  ⟨.unit unit source, Option.isSome_map.trans h⟩

/-- While an answer is awaited, it has come or the unit need not wait. -/
theorem Within.answered_or_step (h : Within σ s ps) {x : UnitCommand}
    (hphase : s.phase.errand s.tick = some (unit, x)) :
    (∃ party, (s.step? party).isSome = true) ∨
      (∃ ack crew, s.crew.takeAck? unit = some (ack, crew)) ∨
        x = .stop ∧ (s.crew.join? unit).isSome = true := by
  rcases Crew.Orderly.answered_or_step (hphase ▸ h.kept.orderly) with hcommand | hanswer
  · exact Or.inl (unitStep?_isSome hcommand)
  · exact Or.inr hanswer

/-- A scheduler that waits for the answer to a pause or to a resume gets it. -/
theorem Within.goes_answered (h : Within σ s ps) {x : UnitCommand}
    (hphase : s.phase.errand s.tick = some (unit, x)) (hx : x ≠ .stop)
    (hgoes : ∀ ack crew, s.crew.takeAck? unit = some (ack, crew) → s.schedulerStep?.isSome = true) :
    ∃ party, (s.step? party).isSome = true := by
  rcases h.answered_or_step hphase with hstep | ⟨ack, crew, hack⟩ | ⟨hstop, -⟩
  · exact hstep
  · exact ⟨.scheduler, hgoes ack crew hack⟩
  · exact absurd hstop hx

/-- **In the middle of a tick some party need not wait**, until the scheduler has returned. -/
theorem Within.goes (h : Within σ s ps) (hreturned : s.result? = none) :
    ∃ party, (s.step? party).isSome = true := by
  have hgoes : s.schedulerStep?.isSome = true → ∃ party, (s.step? party).isSome = true :=
    fun hstep => ⟨.scheduler, hstep⟩
  have hstreams := h.streams
  rw [schedulerStep?] at hgoes
  cases hphase : s.phase with
  | awaitReport =>
    rw [hphase] at hgoes
    obtain ⟨r, hcoming, -⟩ := h.expects.awaited hphase
    rcases h.kept.orderly.reports_or_step (by simp [hcoming]) with hreports | ⟨unit, hunit⟩
    · refine hgoes ?_
      cases hsent : s.crew.reports with
      | nil => exact absurd hsent hreports
      | cons report reports => rfl
    · exact unitStep?_isSome hunit
  | joining b unit =>
    rw [hphase] at hgoes
    have herrand : s.phase.errand s.tick = some (unit, .stop) := by rw [hphase]; rfl
    rcases h.answered_or_step herrand with hstep | ⟨ack, crew, hack⟩ | ⟨-, hjoin⟩
    · exact hstep
    · obtain ⟨⟨d, -, hanswer⟩, -⟩ := Crew.Orderly.takeAck (herrand ▸ h.kept.orderly) hack
      exact absurd hanswer (by simp [Countdown.onCommand])
    · exact hgoes (Option.isSome_map.trans hjoin)
  | awaitArrivals =>
    rw [hphase] at hgoes hstreams
    change s.generator.Supplies _ _ _ _ _ at hstreams
    cases hopen : s.arrivalsOpen with
    | false => exact hgoes (by simp [hopen])
    | true =>
      cases harrivals : s.arrivals with
      | nil =>
        rw [hopen, harrivals] at hstreams
        exact ⟨.generator, Option.isSome_map.trans (hstreams.step?_isSome h.kept.listens).1⟩
      | cons message arrivals => exact hgoes (by simp [hopen, harrivals])
  | pausing next slot b unit =>
    refine h.goes_answered (by rw [hphase]; rfl) (by simp) ?_
    intro ack crew hack
    rw [schedulerStep?, hphase]
    dsimp only
    rw [hack]
    cases ack <;> rfl
  | resuming slot b unit =>
    refine h.goes_answered (by rw [hphase]; rfl) (by simp) ?_
    intro ack crew hack
    rw [schedulerStep?, hphase]
    dsimp only
    rw [hack]
    cases ack <;> rfl
  | awaitTick => exact (hphase ▸ hstreams : Phase.awaitTick.Streams _ _ _ _ _ _).elim
  | returned result =>
    rw [result?, hphase] at hreturned
    exact absurd hreturned (by simp)
  | _ =>
    rw [hphase] at hgoes
    exact hgoes rfl

/-- Once the tick is settled the clock need not wait. -/
theorem Settled.goes (h : Settled σ s) : (s.step? .clock).isSome = true := by
  refine Option.isSome_map.trans ?_
  have hsettled : s.crew.clock.isSettled = true := by
    rw [Clock.isSettled, h.settled, h.now]
    exact decide_eq_true (Nat.le_refl _)
  cases hdriver : s.driver with
  | waiting =>
    show (s.crew.clock.waitSettled?.map _).isSome = true
    rw [Clock.waitSettled?, h.kept.orderly.running, hsettled]
    rfl
  | advancing =>
    rw [ClockDriver.step?, Clock.advance?_eq h.kept.orderly.running]
    rfl
  | ended => exact absurd hdriver h.driver

/-- **Until the scheduler has returned, some party need not wait.** -/
theorem Follows.goes (h : Follows σ s) (hreturned : s.result? = none) :
    ∃ party, (s.step? party).isSome = true := by
  cases h with
  | within h =>
    obtain ⟨ps, h⟩ := h
    exact h.goes hreturned
  | settled h => exact ⟨.clock, h.goes⟩
  | moved h => exact ⟨.scheduler, Option.isSome_iff_exists.mpr ⟨_, h.schedulerStep?_eq⟩⟩

/-- What a scheduler that has returned says is what the tick of the lockstep run comes to. -/
theorem Follows.returned (h : Follows σ s) {result : Except Failure Unit}
    (hreturned : s.result? = some result) :
    σ.outlook = ⟨result.map fun () => true, s.machine⟩ := by
  have hphase : s.phase = .returned result := by
    rw [result?] at hreturned
    cases hphase : s.phase with
    | returned result' =>
      rw [hphase] at hreturned
      rw [Option.some.inj hreturned]
    | _ =>
      rw [hphase] at hreturned
      exact absurd hreturned (by simp)
  cases h with
  | within h =>
    obtain ⟨ps, h⟩ := h
    rw [← h.outlook, outlook, hphase]
  | settled h => exact absurd (h.phase.symm.trans hphase) (by simp)
  | moved h => exact absurd (h.phase.symm.trans hphase) (by simp)

end System
end Uniprocessor
