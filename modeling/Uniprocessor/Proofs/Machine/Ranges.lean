import Uniprocessor.Proofs.Machine.Custody

/-!
# Logged ranges lie in the arena

A memory event tells of a block that is in use, when it is handed out or just before it comes back, or
it tells of a request that was rejected.  So its size is that of a range in the arena, or one that some
process has asked for.  This holds of an arena of any size.

* `MemoryEvent.Placed`: what a memory event tells of;
* `Machine.Placing`: all events of a machine so far;
* `Placing.reported`, `Placing.arrival`, `Placing.turn`: **the parts of a tick keep it so.**
-/

namespace Uniprocessor

/-- An event tells of a range in the arena and of its size, or of no range, and then of the size that a
process among `all` has asked for. -/
def MemoryEvent.Placed (e : MemoryEvent) (capacity : Nat) (all : List Process) : Prop :=
  match e.range with
  | some x => e.size = x.size ∧ x.Fits capacity
  | none => ∃ p ∈ all, e.size = p.memory

namespace Machine

/-- All memory events so far tell of ranges in the arena, or of requests. -/
structure Placing (m : Machine) (capacity : Nat) (all : List Process) : Prop where
  arena : m.memory.capacity = capacity
  placed : ∀ e ∈ m.journal.log.memory, e.Placed capacity all

variable {m m' : Machine} {tick : Tick} {p : Process} {capacity : Nat} {all : List Process}

/-- An event about a block in use. -/
theorem placed_ofBlock {memory : Buddy} (h : memory.Sound) {block : Buddy.Block}
    (hblock : block ∈ memory.blocks) (id : Nat) (tick : Tick) (kind : MemoryEventKind)
    (all : List Process) :
    (MemoryEvent.ofBlock id tick kind block).Placed memory.capacity all :=
  ⟨rfl, h.laid.fits _ (List.mem_map_of_mem hblock)⟩

theorem Placing.reported (h : m.Placing capacity all) (hm : m.Sound []) {reports : List UnitReport}
    (hr : Reported m tick reports m') : m'.Placing capacity all := by
  cases hr with
  | quiet hquiet => exact ⟨h.arena, h.placed⟩
  | progress slot b u c hrun hslot hunit hc hcounts hleft => exact ⟨h.arena, h.placed⟩
  | finished slot b u c memory hrun hslot hunit hc hcounts hleft hfree =>
    obtain ⟨hmem, hfreed⟩ := hm.freed hslot hfree
    refine ⟨hfreed.capacity_eq.trans h.arena, ?_⟩
    rw [log_retired]
    have hplaced := placed_ofBlock hm.scheduler.memory hmem b.id tick .freed all
    rw [h.arena] at hplaced
    exact List.forall_mem_append.mpr ⟨h.placed, List.forall_mem_singleton.mpr hplaced⟩

theorem Placing.arrival (h : m.Placing capacity all) (hm : m.Sound []) (hp : p ∈ all)
    {admission : Admission} {s : Scheduler}
    (ha : m.toScheduler.Arrival tick p (.done admission s)) :
    (m.withScheduler s).Placing capacity all := by
  cases ha with
  | rejected hpos hmemory =>
    refine ⟨h.arena, ?_⟩
    show ∀ e ∈ (m.journal.add _).log.memory, _
    rw [Journal.log_add_memory]
    exact List.forall_mem_append.mpr ⟨h.placed, List.forall_mem_singleton.mpr ⟨p, hp, rfl⟩⟩
  | admitted block memory ready hpos hmemory hready hperm =>
    have hmade := hm.scheduler.memory.allocated hmemory
    have hsame : memory.capacity = capacity := hmade.capacity_eq.trans h.arena
    have hplaced := placed_ofBlock hmade.sound (hmade.blocks.symm.subset List.mem_cons_self) p.id tick
      .allocated all
    rw [hsame] at hplaced
    refine ⟨hsame, ?_⟩
    show ∀ e ∈ (m.journal.add _).log.memory, _
    rw [Journal.log_add_memory]
    exact List.forall_mem_append.mpr ⟨h.placed, List.forall_mem_singleton.mpr hplaced⟩

theorem Placing.turn (h : m.Placing capacity all) (ht : Turn m tick m') : m'.Placing capacity all := by
  obtain ⟨es, hlog, -⟩ := ht.log
  refine ⟨(congrArg Buddy.capacity ht.memory_eq).trans h.arena, ?_⟩
  rw [hlog, EventLog.extend, List.append_nil]
  exact h.placed

end Machine
end Uniprocessor
