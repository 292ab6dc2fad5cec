import Uniprocessor.Proofs.Scheduler.Sound
import Uniprocessor.Proofs.Units.Pool
import Uniprocessor.Scheduler.Machine

/-!
# What a machine can do

The operations of a machine are put together from a few moves, each of which changes one process:
it is heard of, taken out of the ready structure, stopped, launched on a new unit, resumed, retired.
A move is a function here, and says all that is different afterwards.  Besides moves the operations
do some accounting that no process depends on; machines that differ in that only are *alike*.

The invariant of a machine, `Machine.Sound`, is that of its scheduler, together with what ties
control blocks and units to each other: the live units are the units of the live processes, and only
the running process's unit is not paused.

* `Machine.hear`, `withReady`, `stop`, `launch`, `resume`, `retired`: the moves;
* `Machine.Alike`: the same but for the accounts;
* `Machine.Sound`: the invariant, and `Sound.alike`, `Sound.hear`, … that it is kept.
-/

namespace Uniprocessor

namespace ControlBlock

/-- A process that has the processor: its unit is not paused. -/
def Runs (b : ControlBlock) (p : UnitPool) : Prop :=
  b.state = .running ∧ ∃ u c, b.unit = some u ∧ p.find? u = some c ∧ c.paused = false

/-- A process that waits for the processor: it has no unit yet, or a paused one. -/
def Waits (b : ControlBlock) (p : UnitPool) : Prop :=
  (b.state = .ready ∧ b.unit = none) ∨
    (b.state = .blocked ∧ ∃ u c, b.unit = some u ∧ p.find? u = some c ∧ c.paused = true)

variable {b b' : ControlBlock} {p p' : UnitPool}

theorem Runs.congr (h : b.Runs p) (hstate : b'.state = b.state) (hunit : b'.unit = b.unit)
    (hpool : ∀ u, b.unit = some u → p'.find? u = p.find? u) : b'.Runs p' := by
  obtain ⟨hrun, u, c, hu, hc, hpaused⟩ := h
  exact ⟨hstate.trans hrun, u, c, hunit.trans hu, (hpool u hu).trans hc, hpaused⟩

theorem Waits.congr (h : b.Waits p) (hstate : b'.state = b.state) (hunit : b'.unit = b.unit)
    (hpool : ∀ u, b.unit = some u → p'.find? u = p.find? u) : b'.Waits p' := by
  rcases h with ⟨hready, hnone⟩ | ⟨hblocked, u, c, hu, hc, hpaused⟩
  · exact Or.inl ⟨hstate.trans hready, hunit.trans hnone⟩
  · exact Or.inr ⟨hstate.trans hblocked, u, c, hunit.trans hu, (hpool u hu).trans hc, hpaused⟩

end ControlBlock

namespace Machine

/-! ## The moves -/

/-- A process has `left` ticks to go. -/
def hear (m : Machine) (slot : Slot) (b : ControlBlock) (left : Nat) : Machine :=
  m.withScheduler (m.heard slot b left)

/-- The machine with another ready structure. -/
def withReady (m : Machine) (ready : ReadyQueue) : Machine :=
  m.withScheduler { m.toScheduler with ready := ready }

/-- The running process loses the processor with `left` ticks to go; its unit is paused. -/
def stop (m : Machine) (tick : Tick) (slot : Slot) (b : ControlBlock) (unit : UnitId) (left : Nat)
    (ready : ReadyQueue) : Machine :=
  { m with
    running := none
    table := m.table.set slot ({ b with remaining := left }.stopped tick)
    ready := ready
    journal := m.journal.add
      (.process (.ofBlock ({ b with remaining := left }.stopped tick) tick .stopped none))
    units := m.units.tell unit .pause }

/-- A process gets the processor for the first time, with a new unit. -/
def launch (m : Machine) (tick : Tick) (slot : Slot) (b : ControlBlock) : Machine :=
  { m with
    toScheduler := m.toScheduler.occupy tick slot (b.started tick m.units.next) .started
    units := (m.units.start b.remaining tick).2 }

/-- A process gets the processor again; its unit counts again. -/
def resume (m : Machine) (tick : Tick) (slot : Slot) (b : ControlBlock) (unit : UnitId) :
    Machine :=
  { m with
    toScheduler := m.toScheduler.occupy tick slot (b.resumed tick) .resumed
    units := m.units.tell unit (.resume tick) }

/-- The running process is finished: its unit is released, and its block given back. -/
def retired (m : Machine) (tick : Tick) (slot : Slot) (b : ControlBlock) (unit : UnitId)
    (memory : Buddy) : Machine :=
  { m with
    toScheduler := Scheduler.closed
      { m.toScheduler with
        running := none
        table := m.table.vacate slot
        journal := m.journal.add (.reaped unit b.id) }
      tick { b with remaining := 0, state := .finished } memory
    units := m.units.drop unit }

/-- Machines that differ in their accounts only: the turn, the counted ticks, and remarks that no
log keeps. -/
structure Alike (m m' : Machine) : Prop where
  table : m'.table = m.table
  ready : m'.ready = m.ready
  memory : m'.memory = m.memory
  running : m'.running = m.running
  units : m'.units = m.units
  outstanding : m'.outstanding = m.outstanding
  log : m'.journal.log = m.journal.log

theorem Alike.refl (m : Machine) : Alike m m :=
  ⟨rfl, rfl, rfl, rfl, rfl, rfl, rfl⟩

theorem Alike.symm {m m' : Machine} (h : Alike m m') : Alike m' m :=
  ⟨h.table.symm, h.ready.symm, h.memory.symm, h.running.symm, h.units.symm, h.outstanding.symm,
    h.log.symm⟩

theorem Alike.trans {m m' m'' : Machine} (h : Alike m m') (h' : Alike m' m'') : Alike m m'' :=
  ⟨h'.table.trans h.table, h'.ready.trans h.ready, h'.memory.trans h.memory,
    h'.running.trans h.running, h'.units.trans h.units, h'.outstanding.trans h.outstanding,
    h'.log.trans h.log⟩

/-! ## The invariant -/

/-- The scheduler is in order, the live units are the units of the live processes, and a process
runs or waits according to its place. -/
structure Sound (m : Machine) (held : List Slot) : Prop where
  scheduler : m.toScheduler.Sound held
  units : m.units.Sound
  numbers : m.units.numbers.Perm (m.table.toList.filterMap ControlBlock.unit)
  running : ∀ slot b, m.running = some slot → m.table.get? slot = some b → b.Runs m.units
  waiting : ∀ slot b, slot ∈ held ++ m.ready.toList → m.table.get? slot = some b →
    b.Waits m.units

variable {m m' : Machine} {held : List Slot} {slot : Slot} {b : ControlBlock} {u : UnitId}
  {tick : Tick}

theorem Sound.alike (h : m.Sound held) (ha : Alike m m') : m'.Sound held := by
  refine ⟨h.scheduler.frame ha.table ha.ready ha.memory ha.running, ha.units ▸ h.units, ?_, ?_, ?_⟩
  · rw [ha.units, ha.table]
    exact h.numbers
  · rw [ha.running, ha.table, ha.units]
    exact h.running
  · rw [ha.ready, ha.table, ha.units]
    exact h.waiting

/-- Different live processes have different units. -/
theorem Sound.slot_eq (h : m.Sound held) {slot' : Slot} {b' : ControlBlock}
    (hslot : m.table.get? slot = some b) (hslot' : m.table.get? slot' = some b')
    (hunit : b.unit = some u) (hunit' : b'.unit = some u) : slot' = slot := by
  by_contra hne
  obtain ⟨rest, hlist, -, hrest⟩ := ProcessTable.exists_rest hslot
  have hmem : b' ∈ rest := by
    refine hrest.subset (ProcessTable.mem_toList.mpr ⟨slot', ?_⟩)
    rw [ProcessTable.get?_vacate_of_ne hslot hne]
    exact hslot'
  have hnodup := ((h.numbers.trans (hlist.filterMap _)).nodup_iff).mp h.units.nodup
  rw [List.filterMap_cons_some hunit, List.nodup_cons] at hnodup
  exact hnodup.1 (List.mem_filterMap.mpr ⟨b', hmem, hunit'⟩)

/-- The units of other processes are not the given one. -/
theorem Sound.unit_ne (h : m.Sound held) {slot' : Slot} {b' : ControlBlock}
    (hslot : m.table.get? slot = some b) (hunit : b.unit = some u)
    (hslot' : m.table.get? slot' = some b') (hne : slot' ≠ slot) {v : UnitId}
    (hv : b'.unit = some v) : v ≠ u := fun heq =>
  hne (h.slot_eq hslot hslot' hunit (heq ▸ hv))

/-- The unit of a live process exists. -/
theorem Sound.exists_unit (h : m.Sound held) (hslot : m.table.get? slot = some b)
    (hunit : b.unit = some u) : ∃ c, m.units.find? u = some c :=
  UnitPool.mem_numbers_iff.mp (h.numbers.symm.subset
    (List.mem_filterMap.mpr ⟨b, ProcessTable.mem_toList.mpr ⟨slot, hslot⟩, hunit⟩))

/-- A running process is in no other place. -/
theorem Sound.running_notMem (h : m.Sound held) (hrun : m.running = some slot) :
    slot ∉ held ++ m.ready.toList := by
  have hnodup := h.scheduler.nodup
  rw [Scheduler.places, hrun] at hnodup
  exact (List.nodup_cons.mp hnodup).1

/-- A held process is in no other place. -/
theorem Sound.held_notMem (h : m.Sound (slot :: held)) (hidle : m.running = none) :
    slot ∉ held ++ m.ready.toList := by
  have hnodup := h.scheduler.nodup
  rw [Scheduler.places, hidle] at hnodup
  exact (List.nodup_cons.mp hnodup).1

theorem get?_hear (hslot : m.table.get? slot = some b) (left : Nat) :
    (m.hear slot b left).table.get? slot = some { b with remaining := left } :=
  ProcessTable.get?_set_self hslot _

/-! What happens to the running process, or to a new one, is no matter of those who wait. -/

section Waiting

variable {s : Slot}

theorem Sound.get?_set_of_waiting (h : m.Sound []) (hrun : m.running = some slot)
    (hslot : m.table.get? slot = some b) (d : ControlBlock) (hs : s ∈ m.ready.toList) :
    (m.table.set slot d).get? s = m.table.get? s :=
  ProcessTable.get?_set_of_ne hslot d fun heq => h.running_notMem hrun (heq ▸ hs)

theorem Sound.get?_vacate_of_waiting (h : m.Sound []) (hrun : m.running = some slot)
    (hslot : m.table.get? slot = some b) (hs : s ∈ m.ready.toList) :
    (m.table.vacate slot).get? s = m.table.get? s :=
  ProcessTable.get?_vacate_of_ne hslot fun heq => h.running_notMem hrun (heq ▸ hs)

theorem Sound.get?_insert_of_waiting (h : m.Sound []) (d : ControlBlock)
    (hs : s ∈ m.ready.toList) : (m.table.insert d).2.get? s = m.table.get? s :=
  (ProcessTable.get?_insert h.scheduler.table d s).trans <|
    if_neg fun heq : s = (m.table.insert d).1 =>
      h.scheduler.new_notMem d (heq ▸ List.mem_append_right _ hs)

end Waiting

/-! ## The moves keep the invariant -/

/-- A move that changes the control block of one process and the units of no other one. -/
theorem Sound.update (h : m.Sound held) (hslot : m.table.get? slot = some b) {held' : List Slot}
    {b' : ControlBlock} (htable : m'.table = m.table.set slot b')
    (hscheduler : m'.toScheduler.Sound held') (hunits : m'.units.Sound)
    (hnumbers : m'.units.numbers.Perm (m'.table.toList.filterMap ControlBlock.unit))
    (hpool : ∀ s c v, s ≠ slot → m.table.get? s = some c → c.unit = some v →
      m'.units.find? v = m.units.find? v)
    (hrun : ∀ s, m'.running = some s → s = slot ∧ b'.Runs m'.units ∨ s ≠ slot ∧ m.running = some s)
    (hwait : ∀ s ∈ held' ++ m'.ready.toList,
      s = slot ∧ b'.Waits m'.units ∨ s ≠ slot ∧ s ∈ held ++ m.ready.toList) :
    m'.Sound held' := by
  have hget : ∀ s c, m'.table.get? s = some c →
      s = slot ∧ c = b' ∨ s ≠ slot ∧ m.table.get? s = some c := by
    intro s c hc
    rw [htable, ProcessTable.get?_set hslot] at hc
    split at hc
    · rename_i hs
      exact Or.inl ⟨hs, (Option.some.inj hc).symm⟩
    · rename_i hs
      exact Or.inr ⟨hs, hc⟩
  refine ⟨hscheduler, hunits, hnumbers, ?_, ?_⟩
  · intro s c hs hc
    rcases hget s c hc with ⟨rfl, rfl⟩ | ⟨hne, hold⟩
    · rcases hrun s hs with ⟨-, hruns⟩ | ⟨hne, -⟩
      · exact hruns
      · exact absurd rfl hne
    · rcases hrun s hs with ⟨heq, -⟩ | ⟨-, hbefore⟩
      · exact absurd heq hne
      · exact (h.running s c hbefore hold).congr rfl rfl fun v hv => hpool s c v hne hold hv
  · intro s c hs hc
    rcases hget s c hc with ⟨rfl, rfl⟩ | ⟨hne, hold⟩
    · rcases hwait s hs with ⟨-, hwaits⟩ | ⟨hne, -⟩
      · exact hwaits
      · exact absurd rfl hne
    · rcases hwait s hs with ⟨heq, -⟩ | ⟨-, hbefore⟩
      · exact absurd heq hne
      · exact (h.waiting s c hbefore hold).congr rfl rfl fun v hv => hpool s c v hne hold hv

/-- A control block that keeps its unit changes no unit numbers. -/
theorem perm_units_set {t : ProcessTable} (hslot : t.get? slot = some b) {b' : ControlBlock}
    (hunit : b'.unit = b.unit) :
    (t.toList.filterMap ControlBlock.unit).Perm
      ((t.set slot b').toList.filterMap ControlBlock.unit) := by
  obtain ⟨rest, hlist, hset, -⟩ := ProcessTable.exists_rest hslot
  refine (hlist.filterMap _).trans (List.Perm.trans ?_ ((hset b').filterMap _).symm)
  rw [List.filterMap_cons, List.filterMap_cons, hunit]

/-- A place is that of the given process or of another one. -/
theorem eq_or_ne_and {p q : Prop} {s : Slot} (hp : s = slot → p) (hq : s ≠ slot → q) :
    s = slot ∧ p ∨ s ≠ slot ∧ q := by
  by_cases hs : s = slot
  · exact Or.inl ⟨hs, hp hs⟩
  · exact Or.inr ⟨hs, hq hs⟩

theorem Sound.hear (h : m.Sound held) (hslot : m.table.get? slot = some b) (left : Nat) :
    (m.hear slot b left).Sound held := by
  have hset : (m.hear slot b left).toScheduler.Sound held := h.scheduler.setBlock hslot rfl
  refine h.update hslot rfl hset h.units (h.numbers.trans (perm_units_set hslot rfl))
    (fun _ _ _ _ _ _ => rfl) ?_ ?_
  · intro s hs
    exact eq_or_ne_and (fun heq => (h.running s b hs (heq ▸ hslot)).congr rfl rfl fun _ _ => rfl)
      fun _ => hs
  · intro s hs
    exact eq_or_ne_and (fun heq => (h.waiting s b hs (heq ▸ hslot)).congr rfl rfl fun _ _ => rfl)
      fun _ => hs

theorem Sound.withReady (h : m.Sound []) {next : Slot} {ready : ReadyQueue}
    (hscheduler : (m.withReady ready).toScheduler.Sound [next])
    (hperm : m.ready.toList.Perm (next :: ready.toList)) : (m.withReady ready).Sound [next] :=
  ⟨hscheduler, h.units, h.numbers, h.running,
    fun s c hs hc => h.waiting s c (hperm.symm.subset hs) hc⟩

theorem Sound.stop (h : m.Sound held)
    (hslot : m.table.get? slot = some b) (hunit : b.unit = some u) {left : Nat}
    {ready : ReadyQueue} (hperm : ready.toList.Perm (slot :: m.ready.toList))
    (hscheduler : (m.stop tick slot b u left ready).toScheduler.Sound held) :
    (m.stop tick slot b u left ready).Sound held := by
  obtain ⟨c, hc⟩ := h.exists_unit hslot hunit
  refine h.update hslot rfl hscheduler h.units.tell ?_ ?_
    (fun s hs => absurd hs (Option.some_ne_none s).symm) ?_
  · show (m.units.tell u .pause).numbers.Perm _
    rw [UnitPool.numbers_tell]
    exact h.numbers.trans (perm_units_set hslot rfl)
  · intro s d v hs hd hv
    exact UnitPool.find?_tell_of_ne (h.unit_ne hslot hunit hd hs hv)
  · intro s hs
    refine eq_or_ne_and (fun _ => Or.inr ⟨rfl, u, _, hunit, UnitPool.find?_tell_self hc, rfl⟩)
      fun hne => ?_
    · rcases List.mem_append.mp hs with hs | hs
      · exact List.mem_append_left _ hs
      · exact List.mem_append_right _ ((List.mem_cons.mp (hperm.subset hs)).resolve_left hne)

theorem Sound.launch (h : m.Sound (slot :: held)) (hidle : m.running = none)
    (hslot : m.table.get? slot = some b) (hunit : b.unit = none) (tick : Tick) :
    (m.launch tick slot b).Sound held := by
  obtain ⟨rest, hlist, hset, -⟩ := ProcessTable.exists_rest hslot
  have hnew : ∀ {v}, v ∈ m.units.numbers → v ≠ m.units.next := fun hv =>
    Nat.ne_of_lt (h.units.older _ hv)
  have hscheduler : (m.launch tick slot b).toScheduler.Sound held :=
    h.scheduler.occupy hidle hslot
      (rfl : (b.started tick m.units.next).memory = b.memory) tick .started
  refine h.update hslot rfl hscheduler h.units.start ?_ ?_
    ?_ ?_
  · show (m.units.start b.remaining tick).2.numbers.Perm
      ((m.table.set slot (b.started tick m.units.next)).toList.filterMap ControlBlock.unit)
    have hbefore := h.numbers.trans (hlist.filterMap _)
    rw [List.filterMap_cons_none hunit] at hbefore
    have hafter := (hset (b.started tick m.units.next)).filterMap ControlBlock.unit
    have hstarted : (b.started tick m.units.next).unit = some m.units.next := rfl
    rw [List.filterMap_cons_some hstarted] at hafter
    rw [UnitPool.numbers_start]
    refine (List.perm_append_singleton _ _).trans ?_
    exact (hbefore.cons m.units.next).trans hafter.symm
  · intro s c v hs hc hv
    obtain ⟨d, hd⟩ := h.exists_unit hc hv
    have hne := hnew (UnitPool.mem_numbers_iff.mpr ⟨d, hd⟩)
    exact (UnitPool.find?_start h.units v).trans (if_neg hne)
  · intro s hs
    obtain rfl : slot = s := Option.some.inj hs
    refine Or.inl ⟨rfl, rfl, m.units.next, .start m.units.next b.remaining tick, rfl, ?_, rfl⟩
    exact (UnitPool.find?_start h.units m.units.next).trans (if_pos rfl)
  · intro s hs
    exact eq_or_ne_and (fun heq => absurd (heq ▸ hs) (h.held_notMem hidle)) fun _ =>
      List.mem_cons_of_mem _ hs

theorem Sound.resume (h : m.Sound (slot :: held)) (hidle : m.running = none)
    (hslot : m.table.get? slot = some b) (hunit : b.unit = some u) (tick : Tick) :
    (m.resume tick slot b u).Sound held := by
  obtain ⟨c, hc⟩ := h.exists_unit hslot hunit
  have hscheduler : (m.resume tick slot b u).toScheduler.Sound held :=
    h.scheduler.occupy hidle hslot (rfl : (b.resumed tick).memory = b.memory) tick .resumed
  refine h.update hslot rfl hscheduler h.units.tell ?_ ?_
    ?_ ?_
  · show (m.units.tell u (.resume tick)).numbers.Perm _
    rw [UnitPool.numbers_tell]
    exact h.numbers.trans (perm_units_set hslot rfl)
  · intro s d v hs hd hv
    exact UnitPool.find?_tell_of_ne (h.unit_ne hslot hunit hd hs hv)
  · intro s hs
    obtain rfl : slot = s := Option.some.inj hs
    exact Or.inl ⟨rfl, rfl, u, _, hunit, UnitPool.find?_tell_self hc, rfl⟩
  · intro s hs
    exact eq_or_ne_and (fun heq => absurd (heq ▸ hs) (h.held_notMem hidle)) fun _ =>
      List.mem_cons_of_mem _ hs

theorem Sound.retired (h : m.Sound held) (hrun : m.running = some slot)
    (hslot : m.table.get? slot = some b) (hunit : b.unit = some u) {memory : Buddy}
    (hscheduler : (m.retired tick slot b u memory).toScheduler.Sound held) :
    (m.retired tick slot b u memory).Sound held := by
  obtain ⟨c, hc⟩ := h.exists_unit hslot hunit
  obtain ⟨rest, hlist, -, hrest⟩ := ProcessTable.exists_rest hslot
  refine ⟨hscheduler, h.units.drop, ?_, fun s d hs => absurd hs (Option.some_ne_none s).symm, ?_⟩
  · show (m.units.drop u).numbers.Perm ((m.table.vacate slot).toList.filterMap ControlBlock.unit)
    have hbefore := h.numbers.trans (hlist.filterMap _)
    rw [List.filterMap_cons_some hunit] at hbefore
    have hdrop := UnitPool.perm_numbers_drop h.units (UnitPool.mem_numbers_iff.mpr ⟨c, hc⟩)
    exact (hdrop.symm.trans hbefore).cons_inv.trans (hrest.symm.filterMap _)
  · intro s d hs hd
    have hne : s ≠ slot := fun heq => h.running_notMem hrun (heq ▸ hs)
    have hold : m.table.get? s = some d := by
      rw [← hd]
      exact (ProcessTable.get?_vacate_of_ne hslot hne).symm
    refine (h.waiting s d hs hold).congr rfl rfl ?_
    intro v hv
    exact (UnitPool.find?_drop u v).trans (if_neg (h.unit_ne hslot hunit hold hne hv))

/-- A tick changes what units have left, and not whether they are paused. -/
theorem Sound.advance (h : m.Sound held) (tick : Tick) : (m.advance tick).2.Sound held := by
  refine ⟨h.scheduler, h.units.advance, ?_, ?_, ?_⟩
  · show (m.units.advance tick).2.numbers.Perm _
    rw [UnitPool.numbers_advance]
    exact h.numbers
  · intro s d hs hd
    obtain ⟨hstate, v, c, hv, hc, hpaused⟩ := h.running s d hs hd
    refine ⟨hstate, v, (c.onTick tick).2, hv, ?_, (c.onTick_paused tick).trans hpaused⟩
    exact (UnitPool.find?_advance v).trans (congrArg _ hc)
  · intro s d hs hd
    rcases h.waiting s d hs hd with hready | ⟨hstate, v, c, hv, hc, hpaused⟩
    · exact Or.inl hready
    · refine Or.inr ⟨hstate, v, (c.onTick tick).2, hv, ?_, (c.onTick_paused tick).trans hpaused⟩
      exact (UnitPool.find?_advance v).trans (congrArg _ hc)

/-- An arrival that is let in waits without a unit. -/
theorem Sound.admitted (h : m.Sound []) {b : ControlBlock} (hstate : b.state = .ready)
    (hunit : b.unit = none) {memory : Buddy} {ready : ReadyQueue} {journal : Journal}
    (hperm : ready.toList.Perm ((m.table.insert b).1 :: m.ready.toList))
    (hscheduler : { m.toScheduler with
      memory := memory, table := (m.table.insert b).2, ready := ready }.Sound []) :
    (m.withScheduler { m.toScheduler with
      memory := memory
      table := (m.table.insert b).2
      ready := ready
      journal := journal }).Sound [] := by
  have hnew := ProcessTable.get?_new h.scheduler.table b
  have hinsert := ProcessTable.get?_insert h.scheduler.table b
  have hlist := (ProcessTable.toList_insert h.scheduler.table b).filterMap ControlBlock.unit
  rw [List.filterMap_cons_none hunit] at hlist
  refine ⟨hscheduler.frame rfl rfl rfl rfl, h.units, h.numbers.trans hlist.symm, ?_, ?_⟩
  · intro s d hs hd
    have hd' : (m.table.insert b).2.get? s = some d := hd
    rw [hinsert] at hd'
    split at hd'
    · rename_i heq
      obtain ⟨d', hd'⟩ := h.scheduler.running_live hs
      rw [heq, hnew] at hd'
      exact absurd hd' (by simp)
    · exact h.running s d hs hd'
  · intro s d hs hd
    have hd' : (m.table.insert b).2.get? s = some d := hd
    rw [hinsert] at hd'
    split at hd'
    · obtain rfl := Option.some.inj hd'
      exact Or.inl ⟨hstate, hunit⟩
    · rename_i hne
      exact h.waiting s d ((List.mem_cons.mp (hperm.subset hs)).resolve_left hne) hd'

end Machine
end Uniprocessor
