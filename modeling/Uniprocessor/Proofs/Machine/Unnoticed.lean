import Uniprocessor.Proofs.Machine.Guise
import Uniprocessor.Proofs.Machine.Histories
import Uniprocessor.Proofs.Memory.Undone
import Uniprocessor.Report.Run

/-!
# Refused arrivals go unnoticed

An arrival without run time is refused before anything is done.  One that finds the ready structure full
is refused after a block has been reserved and a slot taken, and both are given back.  What remains is
what the allocator and the table have used up: the generations of some nodes, and slots that now are
vacant instead of not there yet.  The machine is what it was under a guise, and nobody can tell.

What can be told of a machine is its `Machine.View`: everything that it gives away, with the generations
of nodes blotted out.  A `Machine.Request` is anything that can be asked of it from outside: an operation
of the scheduler, with any arguments, or one of the units.

* `Machine.Sound.restored`: what is as it was after a refusal;
* `Machine.Guised.respond`, `Machine.Guised.view`: machines under a guise are asked and looked at;
* `Tally.run_unnoticed`: **whatever is asked after a refused arrival, the answers are those that would
  have been given without it.**
-/

namespace Uniprocessor

/-! ## What can be seen -/

namespace Buddy

/-- A key with its generation blotted out. -/
def Key.ageless (k : Key) : Key :=
  ⟨k.slot, 0⟩

/-- A block with its generation blotted out. -/
def Block.ageless (b : Block) : Block :=
  { b with key := b.key.ageless }

/-- A tree with its generations blotted out. -/
def Tree.ageless : Tree → Tree
  | absent => absent
  | node key left right => node key.ageless left.ageless right.ageless

theorem Tree.ageless_under (g : Guise) (t : Tree) : (t.under g).ageless = t.ageless := by
  induction t with
  | absent => rfl
  | node key left right ihl ihr => rw [under, ageless, ageless, ihl, ihr]; rfl

end Buddy

/-- A control block with the generation of its block blotted out. -/
def ControlBlock.ageless (b : ControlBlock) : ControlBlock :=
  { b with memory := b.memory.ageless }

namespace Machine

/-- What can be told of a machine: everything but the generations of its nodes. -/
structure View where
  policy : Policy
  /-- The tree of the arena, the blocks in use, and how many slots hold a node. -/
  tree : Buddy.Tree
  ranges : List Range
  nodes : Nat
  /-- Who is in which slot, and the live processes in order. -/
  slot : Slot → Option ControlBlock
  processes : List ControlBlock
  ready : ReadyQueue
  running : Option Slot
  sliceLeft : Nat
  outstanding : Nat
  units : UnitPool
  metrics : Metrics
  journal : Journal
  report : Report

/-- Something that can be asked of a machine, in any order: an operation of the scheduler, or one of the
units. -/
inductive Request where
  | arrive (tick : Tick) (process : Process)
  | runTick (tick : Tick)
  | report (report : UnitReport)
  | retire (tick : Tick)
  | advance (tick : Tick)
  | start (remaining : Nat) (tick : Tick)
  | command (unit : UnitId) (command : UnitCommand)
  | reap (unit : UnitId)
  | shutdown

/-- What a machine answers to a request. -/
inductive Reply where
  | admission (result : Except Failure Admission)
  | outcome (result : Except Failure Unit)
  | reports (reports : List UnitReport)
  | started (unit : UnitId)
  | nothing

/-- What can be told of a machine. -/
def view (m : Machine) : View where
  policy := m.policy
  tree := m.memory.root.ageless
  ranges := m.memory.ranges
  nodes := m.memory.nodeCount
  slot := fun slot => (m.table.get? slot).map ControlBlock.ageless
  processes := m.table.toList.map ControlBlock.ageless
  ready := m.ready
  running := m.running
  sliceLeft := m.sliceLeft
  outstanding := m.outstanding
  units := m.units
  metrics := m.metrics
  journal := m.journal
  report := m.report

/-- The answer to a request, and the machine afterwards. -/
def respond (m : Machine) : Request → Reply × Machine
  | .arrive tick p => (.admission (m.arrive tick p).result, (m.arrive tick p).state)
  | .runTick tick => (.outcome (m.runTick tick).result, (m.runTick tick).state)
  | .report report => (.outcome (m.onReport report).result, (m.onReport report).state)
  | .retire tick => (.outcome (m.retire tick).result, (m.retire tick).state)
  | .advance tick => (.reports (m.advance tick).1, (m.advance tick).2)
  | .start remaining tick =>
    (.started (m.units.start remaining tick).1,
      { m with units := (m.units.start remaining tick).2 })
  | .command unit command =>
    (.outcome (m.command (m.units.command unit command)).result,
      (m.command (m.units.command unit command)).state)
  | .reap unit =>
    (.outcome (m.command (m.units.reap unit)).result, (m.command (m.units.reap unit)).state)
  | .shutdown => (.nothing, { m with units := m.units.shutdown })

/-- The answers to requests, and what can be told of the machine after each. -/
def answers (m : Machine) : List Request → List (Reply × View)
  | [] => []
  | request :: rest =>
    ((m.respond request).1, (m.respond request).2.view) :: (m.respond request).2.answers rest

/-! ## Machines under a guise -/

variable {g : Guise} {m m' : Machine}

/-- If nothing is delayed, nothing of a guise can be seen. -/
theorem Guised.view (h : m.Guised g m') (hdelay : g.delay = 0) : m'.view = m.view := by
  obtain ⟨hs, hunits⟩ := h
  have hblock : ControlBlock.ageless ∘ ControlBlock.under g = ControlBlock.ageless := by
    funext b
    rw [Function.comp_apply, ControlBlock.under, hdelay]
    rfl
  have hslot : (fun slot => (m'.table.get? slot).map ControlBlock.ageless) =
      fun slot => (m.table.get? slot).map ControlBlock.ageless := by
    funext slot
    rw [hs.table.get?, Option.map_map, hblock]
  have hmetrics : m'.metrics = m.metrics := by
    rw [hs.metrics, hdelay, Metrics.later_zero]
  have hjournal : m'.journal = m.journal := by
    rw [hs.journal, hdelay, Journal.later_zero]
  rw [Machine.view, Machine.view, hs.policy, hs.memory.root, Buddy.Tree.ageless_under,
    hs.memory.ranges, hs.memory.nodeCount, hslot, hs.table.toList, List.map_map, hblock, hs.ready,
    hs.running, hs.sliceLeft, hs.outstanding, hunits, hdelay, UnitPool.later_zero, hmetrics, hjournal,
    Scheduler.report, Scheduler.report, hs.policy, hmetrics, hjournal]

/-- If nothing is delayed, an operation succeeds or is refused as it would be. -/
theorem Guised.result_eq {α : Type} {x x' : Attempt Machine α} (h : Concurs g id x x')
    (hdelay : g.delay = 0) : x'.result = x.result := by
  rw [h.result, hdelay, delayed_zero_id]

/-- **A request is answered as it would be.** -/
theorem Guised.respond (h : m.Guised g m') (hdelay : g.delay = 0) (request : Request) :
    (m'.respond request).1 = (m.respond request).1 ∧
      (m.respond request).2.Guised g (m'.respond request).2 := by
  obtain ⟨delay, since, burnt⟩ := g
  obtain rfl : delay = 0 := hdelay
  have hunits : m'.units = m.units := h.units.trans (UnitPool.later_zero m.units)
  have hsame : ∀ units : UnitPool, Guised ⟨0, since, burnt⟩ { m with units := units }
      { m' with units := units } := fun units => ⟨h.scheduler, (UnitPool.later_zero units).symm⟩
  have hcommand : ∀ x : Except Failure UnitPool,
      Concurs ⟨0, since, burnt⟩ id (m.command x) (m'.command x) := fun x => by
    cases x with
    | ok units => exact .done (hsame units) ()
    | error e => exact ⟨congrArg Except.error e.later_zero.symm, h⟩
  cases request with
  | arrive tick p =>
    have harrive := h.arrive tick p
    exact ⟨congrArg Reply.admission (result_eq harrive rfl), harrive.state⟩
  | runTick tick =>
    have hrun := h.runTick tick
    exact ⟨congrArg Reply.outcome (result_eq hrun rfl), hrun.state⟩
  | report report =>
    have hreport := h.onReport report
    rw [UnitReport.later_zero] at hreport
    exact ⟨congrArg Reply.outcome (result_eq hreport rfl), hreport.state⟩
  | retire tick =>
    have hretire := h.retire tick
    exact ⟨congrArg Reply.outcome (result_eq hretire rfl), hretire.state⟩
  | advance tick =>
    rw [Machine.respond, Machine.respond, Machine.advance, Machine.advance, hunits]
    exact ⟨rfl, hsame _⟩
  | start remaining tick =>
    rw [Machine.respond, Machine.respond, hunits]
    exact ⟨rfl, hsame _⟩
  | command unit command =>
    rw [Machine.respond, Machine.respond, hunits]
    have hx := hcommand (m.units.command unit command)
    exact ⟨congrArg Reply.outcome (result_eq hx rfl), hx.state⟩
  | reap unit =>
    rw [Machine.respond, Machine.respond, hunits]
    have hx := hcommand (m.units.reap unit)
    exact ⟨congrArg Reply.outcome (result_eq hx rfl), hx.state⟩
  | shutdown =>
    rw [Machine.respond, Machine.respond, hunits]
    exact ⟨rfl, hsame _⟩

/-- **All requests are answered as they would be.** -/
theorem Guised.answers (h : m.Guised g m') (hdelay : g.delay = 0) (requests : List Request) :
    m'.answers requests = m.answers requests := by
  induction requests generalizing m m' with
  | nil => rfl
  | cons request requests ih =>
    obtain ⟨hreply, hafter⟩ := h.respond hdelay request
    rw [Machine.answers, Machine.answers, hreply, hafter.view hdelay, ih hafter]

/-! ## Refused arrivals -/

/-- Nothing in `m'` is different from `m`, except what is kept for future use. -/
structure Restored (m m' : Machine) : Prop where
  policy : m'.policy = m.policy
  tree : m'.memory.root = m.memory.root
  blocks : m'.memory.blocks = m.memory.blocks
  slots : ∀ slot, m'.table.get? slot = m.table.get? slot
  processes : m'.table.toList = m.table.toList
  ready : m'.ready = m.ready
  running : m'.running = m.running
  sliceLeft : m'.sliceLeft = m.sliceLeft
  outstanding : m'.outstanding = m.outstanding
  units : m'.units = m.units
  metrics : m'.metrics = m.metrics
  journal : m'.journal = m.journal

end Machine

namespace Scheduler

variable {s : Scheduler} {tick : Tick} {p : Process} {e : Failure}

/-- An arrival is refused before anything is done, or what was done for it is undone. -/
theorem Sound.arrive_refused (h : s.Sound []) (he : (s.arrive tick p).result = .error e) :
    s.arrive tick p = .refused e s ∨
      ∃ block memory memory', s.memory.allocate? p.memory = some (block, memory) ∧
        memory.free block = .ok memory' ∧
        s.arrive tick p = .refused e { s with
          memory := memory'
          table := (s.table.insert (.ofProcess p block)).2.vacate
            (s.table.insert (.ofProcess p block)).1 } := by
  by_cases hzero : p.runTime = 0
  · rw [arrive, if_pos hzero] at he ⊢
    obtain rfl := Except.error.inj he
    exact Or.inl rfl
  cases hmemory : s.memory.allocate? p.memory with
  | none =>
    rw [arrive_rejected hzero hmemory] at he
    exact absurd he (by simp [Attempt.done])
  | some out =>
    obtain ⟨block, memory⟩ := out
    have made := h.memory.allocated hmemory
    obtain ⟨memory', hfree, -⟩ :=
      made.sound.free_of_mem (made.blocks.symm.subset List.mem_cons_self)
    cases hinsert : s.ready.insert (readyKey s.policy (.ofProcess p block))
        (s.table.insert (.ofProcess p block)).1 with
    | ok ready =>
      rw [arrive_admitted hzero hmemory hinsert] at he
      exact absurd he (by simp [Attempt.done])
    | error cause =>
      have htaken : s.arrive tick p = .refused cause { s with
          memory := memory'
          table := (s.table.insert (.ofProcess p block)).2.vacate
            (s.table.insert (.ofProcess p block)).1 } := by
        rw [arrive, if_neg hzero, hmemory]
        unfold Scheduler.letIn
        simp only []
        rw [hinsert]
        exact takeBack_eq (b := .ofProcess p block) h.table hfree cause
      rw [htaken] at he
      obtain rfl := Except.error.inj he
      exact Or.inr ⟨block, memory, memory', rfl, hfree, htaken⟩

end Scheduler

namespace Machine

variable {m : Machine} {tick : Tick} {p : Process} {e : Failure}

/-- The blocks of live processes have been made already. -/
theorem Sound.older (h : m.Sound []) {slot : Slot} {b : ControlBlock}
    (hslot : m.table.get? slot = some b) :
    b.memory.key.generation < m.memory.supply.generation := by
  have hmem : b.memory ∈ m.memory.blocks := h.scheduler.blocks.symm.subset
    (List.mem_map_of_mem (ProcessTable.mem_toList.mpr ⟨slot, hslot⟩))
  exact h.scheduler.memory.owns.older _ (h.scheduler.memory.key_mem_keys hmem)

/-- **After a refused arrival a machine is as it was**, and behaves as it would have. -/
theorem Sound.restored (h : m.Sound []) (he : (m.arrive tick p).result = .error e) :
    m.Restored (m.arrive tick p).state ∧
      ∀ requests, (m.arrive tick p).state.answers requests = m.answers requests := by
  rcases h.scheduler.arrive_refused he with
    hrefused | ⟨block, memory, memory', hmemory, hfree, hrefused⟩
  · have hstate : (m.arrive tick p).state = m := by
      rw [Machine.arrive, schedule, hrefused]
      rfl
    rw [hstate]
    exact ⟨⟨rfl, rfl, rfl, fun _ => rfl, rfl, rfl, rfl, rfl, rfl, rfl, rfl, rfl⟩, fun _ => rfl⟩
  · obtain ⟨hroot, horder, hguised⟩ := h.scheduler.memory.undone hmemory hfree
    have htable : m.table.Guised (m.memory.guiseOf memory')
        ((m.table.insert (.ofProcess p block)).2.vacate
          (m.table.insert (.ofProcess p block)).1) :=
      h.scheduler.table.undone
        (fun slot b hslot => ControlBlock.under_of_older rfl (h.older hslot)) _
    have hslots := ProcessTable.get?_vacate_insert h.scheduler.table (.ofProcess p block)
    have hstate : (m.arrive tick p).state = m.withScheduler { m.toScheduler with
        memory := memory'
        table := (m.table.insert (.ofProcess p block)).2.vacate
          (m.table.insert (.ofProcess p block)).1 } := by
      rw [Machine.arrive, schedule, hrefused]
      rfl
    rw [hstate]
    refine ⟨⟨rfl, hroot, ?_, hslots, ?_, rfl, rfl, rfl, rfl, rfl, rfl, rfl⟩, ?_⟩
    · show memory'.root.blocks memory'.order 0 = _
      rw [hroot, horder]
      rfl
    · obtain ⟨n, -, hsize⟩ := htable.spare
      exact ProcessTable.toList_congr (hsize ▸ Nat.le_add_right _ n) hslots
    · refine Guised.answers (g := m.memory.guiseOf memory') ⟨⟨rfl, hguised, rfl, htable, rfl, rfl, rfl,
        rfl, ?_⟩, ?_⟩ rfl
      · exact (Journal.later_zero m.journal).symm
      · exact (UnitPool.later_zero m.units).symm

end Machine

namespace Tally

/-- **A refused arrival goes unnoticed.**  After every history of operations, an arrival that is refused
--- for having no run time, or because the ready structure is full --- leaves the tree of the arena and
the blocks in use, the processes and their slots, the ready structure, the running process, the turn, the
count of the outstanding, the units, the metrics and the journal as they were; and whatever is asked of
the machine from then on, in any order, is answered, and shows, as if the arrival had never come. -/
theorem run_unnoticed (c : Config) (hc : c.Valid) (expected : Nat) (history : List Operation) :
    ∃ start, Machine.ofConfig c expected = .ok start ∧
      let m := (run start history).machine
      ∀ tick p e, (m.arrive tick p).result = .error e →
        m.Restored (m.arrive tick p).state ∧
        ∀ requests, (m.arrive tick p).state.answers requests = m.answers requests := by
  obtain ⟨start, hstart, hsound⟩ := exists_sound hc expected
  exact ⟨start, hstart, fun tick p e he => (hsound.foldl history).machine.restored he⟩

/-- Only one process may wait; one has the processor and one waits when a third is refused, and later on
the same memory, slots and events come up as if it had never come. -/
theorem run_unnoticed_third :
    ({ policy := .roundRobin 1, readyCapacity := 1 } : Config).Valid ∧
      ∃ start, Machine.ofConfig { policy := .roundRobin 1, readyCapacity := 1 } 3 = .ok start ∧
        let m := (run start [.arrive 0 ⟨1, 0, 2, 0, 10⟩, .runTick 0, .arrive 0 ⟨2, 0, 3, 0, 10⟩]).machine
        (m.arrive 0 ⟨3, 0, 1, 0, 100⟩).result = .error (.full 1) ∧
        ∀ requests, (m.arrive 0 ⟨3, 0, 1, 0, 100⟩).state.answers requests = m.answers requests := by
  have hc : ({ policy := .roundRobin 1, readyCapacity := 1 } : Config).Valid := by decide
  obtain ⟨start, hstart, hunnoticed⟩ := run_unnoticed { policy := .roundRobin 1, readyCapacity := 1 } hc
    3 [.arrive 0 ⟨1, 0, 2, 0, 10⟩, .runTick 0, .arrive 0 ⟨2, 0, 3, 0, 10⟩]
  obtain rfl := Except.ok.inj ((Machine.ofConfig_eq hc 3).symm.trans hstart)
  have hfull : ((run (Machine.fresh { policy := .roundRobin 1, readyCapacity := 1 } 3)
      [.arrive 0 ⟨1, 0, 2, 0, 10⟩, .runTick 0, .arrive 0 ⟨2, 0, 3, 0, 10⟩]).machine.arrive 0
        ⟨3, 0, 1, 0, 100⟩).result = .error (.full 1) := by
    decide +kernel
  exact ⟨hc, _, hstart, hfull, (hunnoticed 0 ⟨3, 0, 1, 0, 100⟩ _ hfull).2⟩

end Tally

end Uniprocessor
