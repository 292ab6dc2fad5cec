import Uniprocessor.Proofs.Journal.Holdings
import Uniprocessor.Proofs.Machine.Accounts
import Uniprocessor.Proofs.Machine.Backlog

/-!
# Machines are true to their memory log

The blocks in use are those of the live processes, and a block changes hands only when the log is
told.  So whoever reads the memory log of a machine knows what is in use: an arrival is answered
according to that, and a process that finishes gives back what it was given.

* `Machine.owners`: the blocks in use, and whose they are;
* `Machine.Custody`: the memory log is true to them;
* `Custody.reported`, `Custody.arrival`, `Custody.turn`: **the parts of a tick keep it so.**
-/

namespace Uniprocessor

/-- The block of a process, and whose it is. -/
def ControlBlock.holding (b : ControlBlock) : Nat × Buddy.Block :=
  (b.id, b.memory)

namespace Machine

/-- The blocks in use, and whose they are. -/
def owners (m : Machine) : List (Nat × Buddy.Block) :=
  m.table.toList.map ControlBlock.holding

/-- The memory log is true to the owners of the blocks in use, in an arena of `capacity` bytes. -/
structure Custody (m : Machine) (capacity : Nat) (all : List Process) : Prop where
  arena : m.memory.capacity = capacity
  log : m.journal.log.Custody m.owners capacity all

variable {m m' : Machine} {tick : Tick} {slot : Slot} {p : Process} {capacity : Nat}
  {all : List Process}

/-- The blocks that are owned are the blocks in use. -/
theorem Sound.blocks_perm (h : m.Sound []) : (m.owners.map Prod.snd).Perm m.memory.blocks := by
  rw [owners, List.map_map]
  exact h.scheduler.blocks.symm

/-- The block of a live process is in use, and can be given back. -/
theorem Sound.freed (h : m.Sound []) {b : ControlBlock} (hslot : m.table.get? slot = some b)
    {memory : Buddy} (hfree : m.memory.free b.memory = .ok memory) :
    b.memory ∈ m.memory.blocks ∧ Buddy.Freed m.memory b.memory memory := by
  have hmem : b.memory ∈ m.memory.blocks := h.scheduler.blocks.symm.subset
    (List.mem_map_of_mem (ProcessTable.mem_toList.mpr ⟨slot, hslot⟩))
  obtain ⟨memory', hfree', hfreed⟩ := h.scheduler.memory.free_of_mem hmem
  obtain rfl : memory' = memory := Except.ok.inj (hfree'.symm.trans hfree)
  exact ⟨hmem, hfreed⟩

/-- The reports of a tick return a block or change nothing about memory, if nothing has been told in
that tick yet. -/
theorem Custody.reported (h : m.Custody capacity all) (hm : m.Sound [])
    (hbefore : ∀ e ∈ m.journal.log.memory, e.tick < tick) {reports : List UnitReport}
    (hr : Reported m tick reports m') : m'.Custody capacity all := by
  cases hr with
  | quiet hquiet => exact ⟨h.arena, h.log⟩
  | progress slot b u c hrun hslot hunit hc hcounts hleft =>
    have hsame := perm_map_set (d := { b with remaining := c.remaining - 1 })
      (f := ControlBlock.holding) hslot rfl
    have hlog := h.log.extend_process [] hsame
    rw [EventLog.extend_nil] at hlog
    exact ⟨h.arena, hlog⟩
  | finished slot b u c memory hrun hslot hunit hc hcounts hleft hfree =>
    obtain ⟨rest, hlist, -, hrest⟩ := ProcessTable.exists_rest hslot
    obtain ⟨-, hfreed⟩ := hm.freed hslot hfree
    refine ⟨hfreed.capacity_eq.trans h.arena, ?_⟩
    rw [log_retired]
    exact h.log.release rfl hbefore
      ((hlist.map ControlBlock.holding).trans ((hrest.symm.map ControlBlock.holding).cons _))

/-- **An arrival is answered according to what is held**, as the log tells. -/
theorem Custody.arrival (h : m.Custody capacity all) (hm : m.Sound [])
    (hcapacity : capacity ≤ 2 ^ 62) (hp : p ∈ all) (htick : p.arrival = tick)
    {admission : Admission} {s : Scheduler}
    (ha : m.toScheduler.Arrival tick p (.done admission s)) :
    (m.withScheduler s).Custody capacity all := by
  have hranges := hm.blocks_perm.map Buddy.Block.range
  have hroom : Room ((m.owners.map Prod.snd).map Buddy.Block.range) capacity p.memory ↔
      (m.memory.allocate? p.memory).isSome = true := by
    rw [room_perm hranges, ← h.arena]
    exact hm.scheduler.memory.room_iff (h.arena ▸ hcapacity)
  subst htick
  cases ha with
  | rejected hpos hmemory =>
    refine ⟨h.arena, ?_⟩
    show (m.journal.add _).log.Custody _ _ _
    rw [Journal.log_add_memory]
    refine h.log.refuse hp fun hsome => ?_
    rw [hroom, hmemory] at hsome
    exact absurd hsome (by simp)
  | admitted block memory ready hpos hmemory hready hperm =>
    have hmade := hm.scheduler.memory.allocated hmemory
    have hsame : memory.capacity = capacity := hmade.capacity_eq.trans h.arena
    have howners := (ProcessTable.toList_insert hm.scheduler.table (.ofProcess p block)).map
      ControlBlock.holding
    refine ⟨hsame, ?_⟩
    show (m.journal.add _).log.Custody _ _ _
    rw [Journal.log_add_memory]
    refine h.log.grant hp (hroom.mpr (by rw [hmemory]; rfl)) ?_ howners
    have hlaid := hmade.sound.laid
    rw [hsame] at hlaid
    exact hlaid.perm (((hm.blocks_perm.cons block).trans hmade.blocks.symm).map _)

theorem Bound.memory_eq (h : Bound m tick slot m') : m'.memory = m.memory := by
  cases h <;> rfl

/-- The end of a tick moves no memory. -/
theorem Turn.memory_eq (h : Turn m tick m') : m'.memory = m.memory := by
  cases h with
  | idle hnone ha => exact ha.memory
  | kept slot b u c hrun hslot hunit hc ha => exact ha.memory
  | launched next ready m₁ hrun hperm hheld hbound ha => exact ha.memory.trans hbound.memory_eq
  | swapped slot b u c next ready ready' m₁ hrun hslot hunit hc hperm hperm' hheld hbound ha =>
    exact ha.memory.trans hbound.memory_eq

theorem Custody.turn (h : m.Custody capacity all) (ht : Turn m tick m') : m'.Custody capacity all := by
  obtain ⟨es, hlog, -⟩ := ht.log
  have howners : m'.owners.Perm m.owners :=
    ht.perm_map ⟨fun _ _ _ => rfl, fun _ _ => rfl, fun _ _ => rfl⟩ fun _ _ _ _ _ _ _ _ => rfl
  refine ⟨(congrArg Buddy.capacity ht.memory_eq).trans h.arena, ?_⟩
  rw [hlog]
  exact h.log.extend_process es howners

end Machine
end Uniprocessor
