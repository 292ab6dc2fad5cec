import Uniprocessor.Proofs.Machine.Operations

/-!
# Machines under any driver

What holds of a machine after any sequence of operations, in any order and with any ticks.  A driver
that keeps to the order of a run is a special case; nothing here assumes one.

A `Tally` counts from outside what the operations answered: arrivals admitted and rejected, and
reports of a finish.  It is what the accounts of the scheduler are compared with.

## The accounts

A scheduler is told how many arrivals to expect, and counts down for each that finishes or is
rejected.  It is not told how many have arrived; so the count says what it should only as long as no
more arrivals have been answered than were expected, and stays at zero after that.

* `Tally.run`: the machine and the counts after a history;
* `Machine.Orderly`: what holds of the machine; `Tally.Balanced`: what holds of the counts;
* `Tally.Sound.foldl`, `Machine.Sound.orderly`: **both hold after every history, and no dispatch and
  no report fails.**
-/

namespace Uniprocessor

/-- An operation of a driver: an arrival, the end of a tick, or a tick that is offered to the units
and whose reports are handed on. -/
inductive Operation where
  | arrive (tick : Tick) (process : Process)
  | runTick (tick : Tick)
  | offer (tick : Tick)
  deriving Repr, DecidableEq

/-- A machine, and what its operations have answered. -/
structure Tally where
  machine : Machine
  admitted : Nat
  rejected : Nat
  finished : Nat

namespace Tally

/-- Nothing has been answered yet. -/
def ofMachine (m : Machine) : Tally :=
  ⟨m, 0, 0, 0⟩

/-- Counts the answer to an arrival. -/
def arrive (t : Tally) (tick : Tick) (p : Process) : Tally :=
  let t' := { t with machine := (t.machine.arrive tick p).state }
  match (t.machine.arrive tick p).result with
  | .ok (.admitted ..) => { t' with admitted := t.admitted + 1 }
  | .ok (.rejected _) => { t' with rejected := t.rejected + 1 }
  | .error _ => t'

/-- Whether a report is that of a finish. -/
def isFinish : UnitReport → Bool
  | .finished .. => true
  | .progress .. => false

/-- The reports of a tick, taken by the machine. -/
def delivery (m : Machine) (tick : Tick) : Attempt Machine Unit :=
  Simulation.deliver (m.advance tick).2 (m.advance tick).1

/-- Counts the finishes among the reports of a tick. -/
def offer (t : Tally) (tick : Tick) : Tally :=
  { t with
    machine := (delivery t.machine tick).state
    finished := t.finished + (t.machine.advance tick).1.countP isFinish }

/-- One operation. -/
def step (t : Tally) : Operation → Tally
  | .arrive tick p => t.arrive tick p
  | .runTick tick => { t with machine := (t.machine.runTick tick).state }
  | .offer tick => t.offer tick

/-- A history of operations. -/
def run (m : Machine) (history : List Operation) : Tally :=
  history.foldl step (ofMachine m)

end Tally

namespace Machine

/-- What ties the table, the ready structure, the running process, the units and the memory of a
machine together. -/
structure Orderly (m : Machine) : Prop where
  /-- A live process is once in the ready structure or runs, never both; no other slot is in
  either. -/
  placed : ∀ slot, m.ready.toList.count slot + m.running.toList.count slot =
    if (m.table.get? slot).isSome then 1 else 0
  /-- The running process is marked so and has a unit. -/
  running : ∀ slot, m.running = some slot →
    ∃ b u, m.table.get? slot = some b ∧ b.state = .running ∧ b.unit = some u
  /-- A waiting process is ready and has no unit, or blocked and has one. -/
  waiting : ∀ slot ∈ m.ready.toList, ∃ b, m.table.get? slot = some b ∧
    ((b.state = .ready ∧ b.unit = none) ∨ (b.state = .blocked ∧ ∃ u, b.unit = some u))
  /-- Different processes have different units. -/
  distinct : ∀ slot slot' b b' u, m.table.get? slot = some b → m.table.get? slot' = some b' →
    b.unit = some u → b'.unit = some u → slot = slot'
  /-- The live units are those of the live processes, each once. -/
  units : (m.units.units.map Countdown.unit).Perm (m.table.toList.filterMap ControlBlock.unit)
  units_nodup : (m.units.units.map Countdown.unit).Nodup
  /-- A unit is not paused exactly if it is the running process's. -/
  unpaused : ∀ c ∈ m.units.units,
    c.paused = false ↔ m.runningBlock?.bind ControlBlock.unit = some c.unit
  /-- The blocks in use are those of the live processes, each of one process. -/
  blocks : m.memory.blocks.Perm (m.table.toList.map ControlBlock.memory)
  blocks_nodup : m.memory.blocks.Nodup

/-- The running process's control block. -/
theorem runningBlock_eq {m : Machine} {slot : Slot} {b : ControlBlock}
    (hrun : m.running = some slot) (hslot : m.table.get? slot = some b) :
    m.runningBlock? = some b := by
  rw [Scheduler.runningBlock?, hrun, Option.bind_some, hslot]

theorem Sound.orderly {m : Machine} (h : m.Sound []) : m.Orderly := by
  have hnodup := h.scheduler.nodup
  have hlive := h.scheduler.live
  rw [Scheduler.places, List.nil_append] at hnodup
  refine ⟨?_, ?_, ?_,
    fun slot slot' b b' u hslot hslot' hu hu' => (h.slot_eq hslot hslot' hu hu').symm, h.numbers,
    h.units.nodup, ?_, h.scheduler.blocks, h.scheduler.memory.nodup_blocks⟩
  · intro slot
    have hcount := hnodup.count (a := slot)
    rw [List.count_append, Nat.add_comm] at hcount
    rw [hcount]
    refine if_congr ?_ rfl rfl
    rw [Option.isSome_iff_exists]
    exact hlive slot
  · intro slot hrun
    obtain ⟨b, hslot⟩ := h.scheduler.running_live hrun
    obtain ⟨hstate, u, c, hunit, -⟩ := h.running slot b hrun hslot
    exact ⟨b, u, hslot, hstate, hunit⟩
  · intro slot hwait
    obtain ⟨b, hslot⟩ := (hlive slot).mp (List.mem_append_right _ hwait)
    refine ⟨b, hslot, ?_⟩
    rcases h.waiting slot b hwait hslot with hready | ⟨hstate, u, c, hunit, -⟩
    · exact Or.inl hready
    · exact Or.inr ⟨hstate, u, hunit⟩
  · intro c hc
    constructor
    · intro hpaused
      by_contra hother
      refine absurd (h.paused hc fun slot b hrun hslot hunit => hother ?_) (by simp [hpaused])
      rw [runningBlock_eq hrun hslot]
      exact hunit
    · intro hunit
      cases hrun : m.running with
      | none =>
        rw [Scheduler.runningBlock?, hrun] at hunit
        exact absurd hunit (by simp)
      | some slot =>
        obtain ⟨b, hslot⟩ := h.scheduler.running_live hrun
        obtain ⟨-, u, d, hu, hd, hpaused⟩ := h.running slot b hrun hslot
        rw [runningBlock_eq hrun hslot] at hunit
        obtain rfl : u = c.unit := Option.some.inj (hu.symm.trans hunit)
        rw [(UnitPool.find?_eq_some_iff h.units).mpr ⟨hc, rfl⟩] at hd
        exact Option.some.inj hd ▸ hpaused

end Machine

/-! ## The counts -/

namespace Machine

variable {m m' : Machine} {tick : Tick} {slot : Slot}

theorem Bound.accounts (h : Bound m tick slot m') : m'.outstanding = m.outstanding ∧
    m'.table.toList.length = m.table.toList.length := by
  cases h with
  | launched b hslot hunit => exact ⟨rfl, ProcessTable.length_set hslot _⟩
  | resumed b u hslot hunit => exact ⟨rfl, ProcessTable.length_set hslot _⟩

/-- The end of a tick finishes and rejects nobody. -/
theorem Turn.accounts (h : Turn m tick m') : m'.outstanding = m.outstanding ∧
    m'.table.toList.length = m.table.toList.length := by
  cases h with
  | idle hnone ha => exact ⟨ha.outstanding, by rw [ha.table]⟩
  | kept slot b u c hrun hslot hunit hc ha =>
    refine ⟨ha.outstanding, ?_⟩
    rw [ha.table]
    exact ProcessTable.length_set hslot _
  | launched next ready m₁ hrun hperm hheld hbound ha =>
    obtain ⟨hout, hlen⟩ := hbound.accounts
    rw [ha.outstanding, ha.table]
    exact ⟨hout, hlen⟩
  | swapped slot b u c next ready ready' m₁ hrun hslot hunit hc hperm hperm' hheld hbound ha =>
    obtain ⟨hout, hlen⟩ := hbound.accounts
    have hheard := get?_hear hslot c.remaining
    rw [ha.outstanding, ha.table]
    refine ⟨hout, hlen.trans ?_⟩
    exact (ProcessTable.length_set hheard _).trans (ProcessTable.length_set hslot _)

end Machine

namespace Tally

/-- The counts are right: whoever was admitted is live or finished; and as long as no more arrivals
have been answered than were expected, the scheduler waits for exactly those that have neither
finished nor been rejected. -/
structure Balanced (t : Tally) (expected : Nat) : Prop where
  live : t.machine.table.toList.length + t.finished = t.admitted
  outstanding : t.admitted + t.rejected ≤ expected →
    t.machine.outstanding + t.finished + t.rejected = expected

variable {t : Tally} {expected : Nat}

theorem Balanced.runTick (h : t.Balanced expected) (hm : t.machine.Sound []) (tick : Tick) :
    (t.step (.runTick tick)).Balanced expected := by
  obtain ⟨m', hrun, hturn, -⟩ := hm.runTick tick
  obtain ⟨hout, hlen⟩ := hturn.accounts
  have hstate : (t.machine.runTick tick).state = m' := by
    rw [hrun]
    rfl
  rw [step, hstate]
  exact ⟨by rw [hlen]; exact h.live, fun hle => by rw [hout]; exact h.outstanding hle⟩

theorem arrive_machine (t : Tally) (tick : Tick) (p : Process) :
    (t.arrive tick p).machine = (t.machine.arrive tick p).state := by
  unfold Tally.arrive
  cases (t.machine.arrive tick p).result with
  | error e => rfl
  | ok admission => cases admission <;> rfl

theorem Balanced.arrive (h : t.Balanced expected) (hm : t.machine.Sound []) (tick : Tick)
    (p : Process) : (t.arrive tick p).Balanced expected := by
  have hlive := h.live
  have hout := h.outstanding
  have harrival := hm.scheduler.arrival tick p
  unfold Tally.arrive Machine.arrive Machine.schedule
  generalize t.machine.toScheduler.arrive tick p = outcome at harrival ⊢
  cases harrival with
  | zeroRunTime hzero => exact ⟨hlive, hout⟩
  | rejected hpos hmemory =>
    refine ⟨hlive, ?_⟩
    intro hle
    have hle' : t.admitted + (t.rejected + 1) ≤ expected := hle
    have hbefore := hout (by omega)
    show t.machine.outstanding - 1 + t.finished + (t.rejected + 1) = expected
    omega
  | admitted block memory ready hpos hmemory hready hperm =>
    have hlen := (ProcessTable.toList_insert hm.scheduler.table (.ofProcess p block)).length_eq
    rw [List.length_cons] at hlen
    refine ⟨?_, fun hle => hout ?_⟩
    · show (t.machine.table.insert (.ofProcess p block)).2.toList.length + t.finished =
        t.admitted + 1
      omega
    · have hle' : t.admitted + 1 + t.rejected ≤ expected := hle
      omega
  | full table memory hpos hfull hsound hlist hsame =>
    refine ⟨?_, hout⟩
    show table.toList.length + t.finished = t.admitted
    rw [hlist.length_eq]
    exact hlive

theorem Balanced.offer (h : t.Balanced expected) (hm : t.machine.Sound []) (tick : Tick) :
    (t.offer tick).Balanced expected := by
  have hlive := h.live
  have hout := h.outstanding
  obtain ⟨m', hdeliver, hreported, -⟩ := hm.report tick
  have hstate : (delivery t.machine tick).state = m' := by
    rw [delivery, hdeliver]
    rfl
  unfold Tally.offer
  rw [hstate]
  generalize (t.machine.advance tick).1 = reports at hreported ⊢
  cases hreported with
  | quiet hquiet => exact ⟨hlive, hout⟩
  | progress slot b u c hrun hslot hunit hc hcounts hleft =>
    refine ⟨?_, hout⟩
    show (t.machine.table.set slot _).toList.length + t.finished = t.admitted
    rw [ProcessTable.length_set hslot]
    exact hlive
  | finished slot b u c memory hrun hslot hunit hc hcounts hleft =>
    have hlen := ProcessTable.length_vacate hslot
    constructor
    · show (t.machine.table.vacate slot).toList.length + (t.finished + 1) = t.admitted
      omega
    · intro hle
      have hle' : t.admitted + t.rejected ≤ expected := hle
      have hbefore := hout hle'
      show t.machine.outstanding - 1 + (t.finished + 1) + t.rejected = expected
      omega

/-! ## Histories -/

/-- The machine is in order and the counts are right. -/
structure Sound (t : Tally) (expected : Nat) : Prop where
  machine : t.machine.Sound []
  balanced : t.Balanced expected

theorem Sound.step (h : t.Sound expected) (op : Operation) : (t.step op).Sound expected := by
  cases op with
  | arrive tick p =>
    refine ⟨?_, h.balanced.arrive h.machine tick p⟩
    rw [Tally.step, arrive_machine]
    exact h.machine.arrive tick p
  | runTick tick =>
    refine ⟨?_, h.balanced.runTick h.machine tick⟩
    obtain ⟨m', hrun, -, hsound⟩ := h.machine.runTick tick
    rw [Tally.step, hrun]
    exact hsound
  | offer tick =>
    refine ⟨?_, h.balanced.offer h.machine tick⟩
    obtain ⟨m', hdeliver, -, hsound⟩ := h.machine.report tick
    rw [Tally.step, Tally.offer, delivery, hdeliver]
    exact hsound

theorem Sound.foldl (h : t.Sound expected) (history : List Operation) :
    (history.foldl Tally.step t).Sound expected := by
  induction history generalizing t with
  | nil => exact h
  | cons op history ih => exact ih (h.step op)

end Tally

/-- A machine that has just been made is in order, and nothing has been answered yet. -/
theorem Tally.exists_sound {c : Config} (hc : c.Valid) (expected : Nat) :
    ∃ start, Machine.ofConfig c expected = .ok start ∧ (ofMachine start).Sound expected := by
  obtain ⟨start, hstart, hsound, htable, -, hout, -, -⟩ := Machine.sound_ofConfig hc expected
  refine ⟨start, hstart, hsound, ?_, fun _ => hout⟩
  show start.table.toList.length + 0 = 0
  rw [htable]
  rfl

/-- **A machine is orderly after every history of operations.**  As long as no more arrivals have
been answered than expected, it waits for exactly those that have neither finished nor been
rejected: the live processes and the arrivals to come.  No dispatch and no report fails. -/
theorem Tally.run_orderly (c : Config) (hc : c.Valid) (expected : Nat)
    (history : List Operation) :
    ∃ start, Machine.ofConfig c expected = .ok start ∧
      let t := run start history
      t.machine.Orderly ∧
      (t.admitted + t.rejected ≤ expected →
        t.machine.outstanding = expected - t.finished - t.rejected ∧
        t.machine.outstanding =
          t.machine.table.toList.length + (expected - (t.admitted + t.rejected))) ∧
      (∀ tick, (t.machine.runTick tick).result = .ok ()) ∧
      ∀ tick, (delivery t.machine tick).result = .ok () := by
  obtain ⟨start, hstart, hbefore⟩ := exists_sound hc expected
  have hafter := hbefore.foldl history
  refine ⟨start, hstart, hafter.machine.orderly, ?_, ?_, ?_⟩
  · intro hle
    have hlive := hafter.balanced.live
    have hcount := hafter.balanced.outstanding hle
    unfold run at hle ⊢
    omega
  · intro tick
    obtain ⟨m', hrun, -⟩ := hafter.machine.runTick tick
    exact congrArg Attempt.result hrun
  · intro tick
    obtain ⟨m', hdeliver, -⟩ := hafter.machine.report tick
    exact congrArg Attempt.result hdeliver

/-- Two processes that take turns of one tick, the second one displacing the first and then being
offered a tick of its own; a third arrival is refused, since only one process may wait. -/
theorem Tally.run_orderly_two_turns :
    ({ policy := .roundRobin 1, readyCapacity := 1 } : Config).Valid ∧
      ∃ start, Machine.ofConfig { policy := .roundRobin 1, readyCapacity := 1 } 2 = .ok start ∧
        (run start [.arrive 0 ⟨1, 0, 2, 0, 10⟩, .runTick 0, .arrive 0 ⟨2, 0, 3, 0, 10⟩, .runTick 1,
          .arrive 1 ⟨3, 0, 1, 0, 10⟩, .offer 2]).machine.Orderly := by
  have hc : ({ policy := .roundRobin 1, readyCapacity := 1 } : Config).Valid := by decide
  obtain ⟨start, hstart, horderly, -⟩ := run_orderly _ hc 2 [.arrive 0 ⟨1, 0, 2, 0, 10⟩,
    .runTick 0, .arrive 0 ⟨2, 0, 3, 0, 10⟩, .runTick 1, .arrive 1 ⟨3, 0, 1, 0, 10⟩, .offer 2]
  exact ⟨hc, start, hstart, horderly⟩

end Uniprocessor
