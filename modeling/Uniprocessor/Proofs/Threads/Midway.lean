import Uniprocessor.Proofs.Threads.Outlook

/-!
# In the middle of a tick

While a scheduler on threads is at a tick, the clock does not move; the only unit that may have to
do something for the scheduler is the one that an answer is awaited from; and no report is to come
but the one that the tick begins with.  What is left of the tick is then what a tick of a lockstep
run comes to (`System.Within`).

Here this is stated, and shown for the ways in which the scheduler's steps are put together: an
operation of its own, a question to a unit, a command to a unit, a new unit.
-/

namespace Uniprocessor

/-- A crew in order on a clock that the generator listens to in a mailbox of its own, and a generator
that has not failed. -/
structure Crew.Kept (c : Crew) (g : Generator) (errand : Errand) : Prop where
  orderly : c.Orderly errand
  foreign : c.Foreign g.mailbox
  listens : c.clock.Open g.mailbox
  sane : g.Sane

/-- The clock is at a tick, and is not to move. -/
structure Clock.Held (c : Clock) (driver : ClockDriver) (tick : Tick) : Prop where
  now : c.tick = tick
  waiting : driver = .waiting
  unsettled : ∀ k, c.settled = some k → k < tick

/-- A clock that has not been touched stays as it is. -/
theorem Clock.Held.congr {c c' : Clock} {driver : ClockDriver} {tick : Tick}
    (h : c.Held driver tick) (htick : c'.tick = c.tick) (hsettled : c'.settled = c.settled) :
    c'.Held driver tick :=
  ⟨htick.trans h.now, h.waiting, fun k hk => h.unsettled k (hsettled ▸ hk)⟩

namespace Crew.Kept

variable {c c' : Crew} {g g' : Generator} {clock : Clock} {errand errand' : Errand}
  {message? : Option ArrivalMessage}

/-- What happens to a crew leaves the generator's mailbox as it is. -/
theorem apart (h : c.Kept g errand) (hapart : c.Apart c') (horderly : c'.Orderly errand') :
    c'.Kept g errand' ∧ c'.clock.queue g.mailbox = c.clock.queue g.mailbox := by
  obtain ⟨hforeign, hmailbox⟩ := hapart.foreign g.mailbox h.foreign
  obtain ⟨hqueue, hopen⟩ := Clock.congr_of_mailbox? hmailbox
  exact ⟨⟨horderly, hforeign, hopen h.listens, h.sane⟩, hqueue⟩

/-- What a unit does leaves the generator's mailbox as it is. -/
theorem heeded (h : c.Kept g errand) (hheeded : c.Heeded errand' c') :
    c'.Kept g errand' ∧ c'.clock.queue g.mailbox = c.clock.queue g.mailbox :=
  h.apart hheeded.apart hheeded.orderly

/-- What the generator does does not concern the crew. -/
theorem generatorStep (h : c.Kept g errand)
    (hstep : g.step? c.clock true = some (message?, g', clock)) :
    { c with clock := clock }.Kept g' errand ∧ { c with clock := clock }.pool = c.pool ∧
      { c with clock := clock }.coming = c.coming := by
  have hsent := Generator.step?_sent h.listens hstep
  have hother : ∀ t ∈ c.threads, clock.mailbox? t.mailbox = c.clock.mailbox? t.mailbox :=
    fun t ht => hsent.others _ fun heq => h.foreign.2 (heq ▸ List.mem_map_of_mem ht)
  obtain ⟨horderly, hpool, hcoming⟩ := h.orderly.withClock clock hsent.tick hsent.stopped
    (Nat.le_of_eq hsent.length.symm) hother
  refine ⟨⟨horderly, ?_, ?_, hsent.sane⟩, hpool, hcoming⟩
  · rw [hsent.mailbox]
    exact ⟨hsent.length ▸ h.foreign.1, h.foreign.2⟩
  · rw [hsent.mailbox]
    exact hsent.listens

end Crew.Kept

/-- The unit that an answer is awaited from, and the command. -/
def Phase.errand (tick : Tick) : Phase → Errand
  | .joining _ unit => some (unit, .stop)
  | .pausing _ _ _ unit => some (unit, .pause)
  | .resuming _ _ unit => some (unit, .resume tick)
  | _ => none

/-- What is to be expected of the generator in the middle of a tick, when the processes `ps` have not
been let in.  A scheduler that waits for the next tick is not in the middle of one. -/
def Phase.Streams (phase : Phase) (g : Generator) (clock : Clock) (arrivals : List ArrivalMessage)
    (isOpen : Bool) (tick : Tick) (ps : List Process) : Prop :=
  match phase with
  | .awaitReport | .checkFinish _ _ | .joining _ _ | .awaitArrivals =>
    g.Supplies clock arrivals isOpen tick ps
  | .returned _ => True
  | .awaitTick => False
  | _ => g.Drained clock arrivals isOpen (Simulation.notDue ps tick)

theorem Phase.Streams.congr {phase : Phase} {g : Generator} {clock clock' : Clock}
    {arrivals : List ArrivalMessage} {isOpen : Bool} {tick : Tick} {ps : List Process}
    (h : phase.Streams g clock arrivals isOpen tick ps)
    (hqueue : clock'.queue g.mailbox = clock.queue g.mailbox) :
    phase.Streams g clock' arrivals isOpen tick ps := by
  cases phase with
  | awaitReport => exact Generator.Supplies.congr h hqueue
  | checkFinish block unit => exact Generator.Supplies.congr h hqueue
  | joining block unit => exact Generator.Supplies.congr h hqueue
  | awaitArrivals => exact Generator.Supplies.congr h hqueue
  | returned result => exact trivial
  | awaitTick => exact h
  | _ => exact Generator.Drained.congr h hqueue

/-- What is to be expected of the generator stays the same when it makes a step. -/
theorem Phase.Streams.step {phase : Phase} {g g' : Generator} {clock clock' : Clock}
    {arrivals : List ArrivalMessage} {isOpen : Bool} {tick : Tick} {ps : List Process}
    {message? : Option ArrivalMessage} (h : phase.Streams g clock arrivals isOpen tick ps)
    (hopen : clock.Open g.mailbox) (hstep : g.step? clock true = some (message?, g', clock')) :
    phase.Streams g' clock' (arrivals ++ message?.toList) isOpen tick ps := by
  have hrests : ∀ ps, g.Drained clock arrivals isOpen ps → False := fun ps hdrained =>
    absurd (hdrained.resting.step? hopen) (by simp [hstep])
  cases phase with
  | awaitReport => exact Generator.Supplies.step h hopen hstep
  | checkFinish block unit => exact Generator.Supplies.step h hopen hstep
  | joining block unit => exact Generator.Supplies.step h hopen hstep
  | awaitArrivals => exact Generator.Supplies.step h hopen hstep
  | returned result => exact trivial
  | awaitTick => exact h
  | _ => exact (hrests _ h).elim

namespace System

/-- A report is to come if and only if it is awaited. -/
structure Expects (s : System) : Prop where
  awaited : s.phase = .awaitReport → ∃ r, s.crew.coming = [r] ∧ r.tick = s.tick
  quiet : s.phase ≠ .awaitReport → s.crew.coming = []

/-- A run on threads is in the middle of the tick of a lockstep run, and has still to let in the
processes `ps`. -/
structure Within (σ : Simulation) (s : System) (ps : List Process) : Prop where
  tick : s.tick = σ.tick
  kept : s.crew.Kept s.generator (s.phase.errand s.tick)
  held : s.crew.clock.Held s.driver s.tick
  expects : s.Expects
  streams : s.phase.Streams s.generator s.crew.clock s.arrivals s.arrivalsOpen s.tick ps
  left : Simulation.notDue ps s.tick = Simulation.notDue σ.pending s.tick
  outlook : s.outlook ps = σ.outlook

/-- A run on threads is in the middle of the tick of a lockstep run. -/
def Midway (σ : Simulation) (s : System) : Prop :=
  ∃ ps, Within σ s ps

/-- Nothing is awaited from any unit. -/
structure Calm (σ : Simulation) (s : System) : Prop where
  tick : s.tick = σ.tick
  kept : s.crew.Kept s.generator none
  held : s.crew.clock.Held s.driver s.tick
  coming : s.crew.coming = []

variable {σ : Simulation} {s : System} {phase : Phase} {ps : List Process} {unit : UnitId}
  {crew : Crew} {errand : Errand}

theorem Within.calm (h : Within σ s ps) (hphase : s.phase.errand s.tick = none)
    (hne : s.phase ≠ .awaitReport) : Calm σ s :=
  ⟨h.tick, hphase ▸ h.kept, h.held, h.expects.quiet hne⟩

/-- What the scheduler does on its own concerns nobody else. -/
theorem Calm.schedule (h : Calm σ s) (scheduler : Scheduler) (phase : Phase) :
    Calm σ { s with scheduler := scheduler, phase := phase } :=
  ⟨h.tick, h.kept, h.held, h.coming⟩

theorem Calm.midway (h : Calm σ s) (hphase : s.phase.errand s.tick = none)
    (hne : s.phase ≠ .awaitReport)
    (hstreams : s.phase.Streams s.generator s.crew.clock s.arrivals s.arrivalsOpen s.tick ps)
    (hleft : Simulation.notDue ps s.tick = Simulation.notDue σ.pending s.tick)
    (houtlook : s.outlook ps = σ.outlook) : Midway σ s :=
  ⟨ps, h.tick, hphase ▸ h.kept, h.held, ⟨fun hawait => absurd hawait hne, fun _ => h.coming⟩,
    hstreams, hleft, houtlook⟩

/-- The scheduler has returned. -/
theorem Calm.returned (h : Calm σ s) {result : Except Failure Unit}
    (hrest : ⟨result.map fun () => true, s.machine⟩ = σ.outlook) :
    Midway σ (s.enter (.returned result)) :=
  (h.schedule s.scheduler (.returned result)).midway rfl (by simp) trivial
    (Eq.refl (Simulation.notDue σ.pending s.tick)) hrest

theorem Calm.fail (h : Calm σ s) {e : Failure} (hrest : .refused e s.machine = σ.outlook) :
    Midway σ (s.fail e) :=
  h.returned hrest

/-! ## The parts of the scheduler's steps -/

/-- An operation of the scheduler. -/
theorem Calm.carryOut {α : Type} (h : Calm σ s) {x : Attempt Scheduler α} {next : α → System → System}
    {f : α → Machine → Attempt Machine Bool}
    (hrest : (s.machine.schedule x).andThen f = σ.outlook)
    (hnext : ∀ a, f a ⟨x.state, s.crew.pool⟩ = σ.outlook →
      Midway σ (next a { s with scheduler := x.state })) : Midway σ (s.carryOut x next) := by
  obtain ⟨result, scheduler⟩ := x
  cases result with
  | ok a => exact hnext a hrest
  | error e => exact (h.schedule scheduler s.phase).fail hrest

/-- A question to a unit. -/
theorem Calm.readThen (h : Calm σ s) {next : Nat → System} {f : Nat → Machine → Attempt Machine Bool}
    (hrest : (s.machine.ask (s.crew.pool.remaining unit)).andThen f = σ.outlook)
    (hnext : ∀ left, f left s.machine = σ.outlook → Midway σ (next left)) :
    Midway σ (s.readThen unit next) := by
  rw [System.readThen, Crew.remaining_eq h.coming]
  cases hleft : s.crew.pool.remaining unit with
  | ok left =>
    rw [hleft] at hrest
    exact hnext left hrest
  | error e =>
    rw [hleft] at hrest
    exact h.fail hrest

/-- A command to a unit. -/
theorem Calm.sendThen (h : Calm σ s) {x : UnitCommand}
    (hx : x.Quiets s.tick)
    (hphase : phase.errand s.tick = some (unit, x)) (hne : phase ≠ .awaitReport)
    (hstreams : phase.Streams s.generator s.crew.clock s.arrivals s.arrivalsOpen s.tick ps)
    (hleft : Simulation.notDue ps s.tick = Simulation.notDue σ.pending s.tick)
    (hrefused : ∀ e, s.crew.pool.command unit x = .error e → .refused e s.machine = σ.outlook)
    (hsent : ∀ crew, s.crew.pool.command unit x = .ok crew.pool →
      crew.pool = s.crew.pool.tell unit x →
      { s with crew := crew, phase := phase }.outlook ps = σ.outlook) :
    Midway σ (s.sendThen unit x phase) := by
  rw [System.sendThen]
  cases hfind : s.crew.find? unit with
  | none =>
    obtain ⟨hsend, hcommand⟩ := Crew.send_unknown hfind x
    rw [hsend]
    exact h.fail (hrefused _ hcommand)
  | some t =>
    obtain ⟨crew, hsend, hcommand, hpool, horderly, hcoming, hapart⟩ :=
      h.kept.orderly.send h.coming (h.held.now ▸ hx) hfind
    rw [hsend]
    obtain ⟨hkept, hqueue⟩ := h.kept.apart hapart horderly
    exact ⟨ps, h.tick, hphase ▸ hkept, h.held.congr hapart.tick hapart.settled,
      ⟨fun hawait => absurd hawait hne, fun _ => hcoming⟩, hstreams.congr hqueue, hleft,
      hsent crew hcommand hpool⟩

/-- A new unit is the one that the pool starts. -/
theorem Calm.startUnit (h : Calm σ s) (left : Nat) :
    (s.crew.start left s.tick).1 = (s.crew.pool.start left s.tick).1 ∧
      (s.crew.start left s.tick).2.pool = (s.crew.pool.start left s.tick).2 ∧
      Calm σ { s with crew := (s.crew.start left s.tick).2 } ∧
      (s.crew.start left s.tick).2.clock.queue s.generator.mailbox =
        s.crew.clock.queue s.generator.mailbox := by
  obtain ⟨hnumber, horderly, hpool, hcoming, hapart⟩ := h.kept.orderly.start left s.tick
  obtain ⟨hkept, hqueue⟩ := h.kept.apart hapart horderly
  exact ⟨hnumber, hpool, ⟨h.tick, hkept, h.held.congr hapart.tick hapart.settled,
    hcoming.trans h.coming⟩, hqueue⟩

/-- The answer of a unit is that to the command, and has been taken. -/
theorem Within.takeAck (h : Within σ s ps) {x : UnitCommand} {ack : UnitAck}
    (hphase : s.phase.errand s.tick = some (unit, x)) (hne : s.phase ≠ .awaitReport)
    (hack : s.crew.takeAck? unit = some (ack, crew)) :
    (∃ d : Countdown, (d.onCommand x).1 = some ack) ∧ Calm σ { s with crew := crew } ∧
      crew.pool = s.crew.pool ∧
      s.phase.Streams s.generator crew.clock s.arrivals s.arrivalsOpen s.tick ps := by
  obtain ⟨hanswer, hheeded⟩ := Crew.Orderly.takeAck (hphase ▸ h.kept.orderly) hack
  obtain ⟨hkept, hqueue⟩ := h.kept.heeded hheeded
  obtain ⟨d, -, hd⟩ := hanswer
  refine ⟨⟨d, hd⟩, ⟨h.tick, hkept, h.held.congr hheeded.apart.tick hheeded.apart.settled, ?_⟩,
    hheeded.pool, h.streams.congr hqueue⟩
  have hcoming := hheeded.coming
  rw [h.expects.quiet hne] at hcoming
  exact hcoming.eq_nil

/-- A unit that has ended has been released. -/
theorem Within.join (h : Within σ s ps) (hphase : s.phase.errand s.tick = some (unit, .stop))
    (hne : s.phase ≠ .awaitReport) (hjoin : s.crew.join? unit = some crew) :
    Calm σ { s with crew := crew } ∧ crew.pool = s.crew.pool.drop unit ∧
      (∃ c, s.crew.pool.find? unit = some c) ∧
      s.phase.Streams s.generator crew.clock s.arrivals s.arrivalsOpen s.tick ps := by
  have horderly := hphase ▸ h.kept.orderly
  obtain ⟨hfound, hpool, hcoming, hapart⟩ := Crew.Orderly.join horderly hjoin
  obtain ⟨hkept, hqueue⟩ := h.kept.apart hapart hfound
  refine ⟨⟨h.tick, hkept, h.held.congr hapart.tick hapart.settled,
      hcoming.trans (h.expects.quiet hne)⟩, hpool, ?_, h.streams.congr hqueue⟩
  obtain ⟨t, ht, hunit⟩ := List.mem_map.mp (horderly.awaited unit .stop rfl)
  exact ⟨t.settled s.crew.clock,
    (Crew.find?_pool _ _).trans (hunit ▸ congrArg _ (horderly.find?_unit ht))⟩

end System
end Uniprocessor
