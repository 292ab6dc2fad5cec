import Uniprocessor.Proofs.Memory.Sound
import Uniprocessor.Proofs.Process.Table
import Uniprocessor.Proofs.Ready.Queue
import Uniprocessor.Scheduler.Basic

/-!
# A scheduler in order

What ties the table, the ready structure, the running process and the memory of a scheduler
together, and what the operations of a scheduler do where it holds.

In the middle of a dispatch the next process has left the ready structure and does not run yet.  So
the invariant `Scheduler.Sound` takes a list of slots that are *held*: a live process is in exactly
one place, the processor, the ready structure, or that list.  Between operations nothing is held.

* `Scheduler.Sound`: the invariant; `Sound.frame` carries it to a scheduler that differs elsewhere;
* `Sound.letIn`, `Sound.takeBack`: an arrival that finds room, and one that does not;
* `Sound.takeNext`, `Sound.requeue`, `Sound.occupy`: the parts of a dispatch;
* `Sound.retire`: the end of a process.
-/

namespace Uniprocessor
namespace Scheduler

/-- The slots of the processes that run, that are held, and that wait. -/
def places (s : Scheduler) (held : List Slot) : List Slot :=
  s.running.toList ++ (held ++ s.ready.toList)

/-- Every live process is in one place, every place is that of a live process, and the blocks in use
are those of the live processes. -/
structure Sound (s : Scheduler) (held : List Slot) : Prop where
  table : s.table.Sound
  ready : s.ready.Sound
  memory : s.memory.Sound
  nodup : (s.places held).Nodup
  live : ∀ slot, slot ∈ s.places held ↔ ∃ b, s.table.get? slot = some b
  blocks : s.memory.blocks.Perm (s.table.toList.map ControlBlock.memory)

/-- A valid configuration has a scheduler, whose arena has the capacity that was asked for. -/
theorem ofConfig_eq {c : Config} (h : c.Valid) (expected : Nat) :
    ofConfig c expected = .ok
        { policy := c.policy
          memory := .ofOrder c.arena.log2
          ready := .ofPolicy c.policy c.readyCapacity
          table := .empty
          running := none
          sliceLeft := 0
          outstanding := expected
          metrics := .empty
          journal := .empty } ∧
      (Buddy.ofOrder c.arena.log2).capacity = c.arena ∧ 0 < c.readyCapacity := by
  have hfault : c.fault? = none := h
  have hcheck : c.check = .ok () := by
    rw [Config.check, hfault]
  unfold Config.fault? at hfault
  split at hfault
  · exact absurd hfault (by simp)
  split at hfault
  · exact absurd hfault (by simp)
  rename_i harena
  split at hfault
  · exact absurd hfault (by simp)
  rename_i hcapacity
  have hpow : isPowerOfTwo c.arena = true := by simpa using harena
  refine ⟨?_, (beq_iff_eq.mp hpow).symm, Nat.pos_of_ne_zero hcapacity⟩
  rw [ofConfig, hcheck]
  simp only []
  rw [Buddy.ofCapacity, if_pos hpow]
  rfl

variable {s s' : Scheduler} {held : List Slot} {slot : Slot} {b : ControlBlock}

/-- The invariant does not look at the accounts, the journal, or the turn. -/
theorem Sound.frame (h : s.Sound held) (htable : s'.table = s.table) (hready : s'.ready = s.ready)
    (hmemory : s'.memory = s.memory) (hrunning : s'.running = s.running) : s'.Sound held := by
  have hplaces : s'.places held = s.places held := by
    rw [places, places, hrunning, hready]
  refine ⟨htable ▸ h.table, hready ▸ h.ready, hmemory ▸ h.memory, hplaces ▸ h.nodup, ?_, ?_⟩
  · rw [hplaces, htable]
    exact h.live
  · rw [hmemory, htable]
    exact h.blocks

/-- Processes may change places as long as nobody is lost. -/
theorem Sound.move (h : s.Sound held) {held' : List Slot} (htable : s'.table = s.table)
    (hready : s'.ready.Sound) (hmemory : s'.memory = s.memory)
    (hplaces : (s'.places held').Perm (s.places held)) : s'.Sound held' := by
  refine ⟨htable ▸ h.table, hready, hmemory ▸ h.memory, hplaces.nodup_iff.mpr h.nodup, ?_, ?_⟩
  · intro slot
    rw [hplaces.mem_iff, htable]
    exact h.live slot
  · rw [hmemory, htable]
    exact h.blocks

/-- The control block of a process may change as long as it keeps its memory. -/
theorem Sound.setBlock (h : s.Sound held) (hslot : s.table.get? slot = some b) {b' : ControlBlock}
    (hmemory : b'.memory = b.memory) : { s with table := s.table.set slot b' }.Sound held := by
  obtain ⟨rest, hlist, hset, -⟩ := ProcessTable.exists_rest hslot
  refine ⟨h.table.set hslot b', h.ready, h.memory, h.nodup, fun x => (h.live x).trans ?_, ?_⟩
  · show _ ↔ ∃ c, (s.table.set slot b').get? x = some c
    rw [ProcessTable.get?_set hslot]
    split
    · rename_i hx
      rw [hx]
      exact ⟨fun _ => ⟨b', rfl⟩, fun _ => ⟨b, hslot⟩⟩
    · exact Iff.rfl
  · refine h.blocks.trans ((hlist.map _).trans (List.Perm.trans ?_ ((hset b').map _).symm))
    rw [List.map_cons, List.map_cons, hmemory]

/-! ## Arrivals -/

/-- A new process gets a slot that is in no place yet. -/
theorem Sound.new_notMem (h : s.Sound held) (b : ControlBlock) :
    (s.table.insert b).1 ∉ s.places held := by
  intro hmem
  obtain ⟨b', hb'⟩ := (h.live _).mp hmem
  rw [ProcessTable.get?_new h.table] at hb'
  exact absurd hb' (by simp)

/-- An arrival that gets a block and finds room waits. -/
theorem Sound.letIn (h : s.Sound []) {size : Nat} {memory : Buddy}
    (hmemory : s.memory.allocate? size = some (b.memory, memory)) {ready : ReadyQueue}
    (hready : ready.Sound)
    (hperm : ready.toList.Perm ((s.table.insert b).1 :: s.ready.toList)) :
    { s with memory := memory, table := (s.table.insert b).2, ready := ready }.Sound [] := by
  have made := h.memory.allocated hmemory
  have hplaces : (places { s with memory := memory, table := (s.table.insert b).2, ready := ready }
      []).Perm ((s.table.insert b).1 :: s.places []) :=
    (hperm.append_left s.running.toList).trans List.perm_middle
  refine ⟨h.table.insert b, hready, made.sound, ?_, ?_, ?_⟩
  · exact hplaces.nodup_iff.mpr (List.nodup_cons.mpr ⟨h.new_notMem b, h.nodup⟩)
  · intro x
    rw [hplaces.mem_iff, List.mem_cons, h.live]
    show _ ↔ ∃ c, (s.table.insert b).2.get? x = some c
    rw [ProcessTable.get?_insert h.table]
    split
    · rename_i hx
      exact ⟨fun _ => ⟨b, rfl⟩, fun _ => Or.inl hx⟩
    · rename_i hx
      exact ⟨fun hor => hor.resolve_left hx, Or.inr⟩
  · refine made.blocks.trans (List.Perm.trans ?_
      ((ProcessTable.toList_insert h.table b).map _).symm)
    exact h.blocks.cons b.memory

/-- What is left of an admission that is taken back. -/
theorem takeBack_eq (h : s.table.Sound) {memory memory' : Buddy}
    (hfree : memory.free b.memory = .ok memory') (e : Failure) :
    takeBack { s with memory := memory, table := (s.table.insert b).2 } (s.table.insert b).1
        b.memory e =
      .refused e { s with
        memory := memory'
        table := (s.table.insert b).2.vacate (s.table.insert b).1 } := by
  unfold Scheduler.takeBack
  simp only []
  rw [ProcessTable.remove?_eq (ProcessTable.get?_insert_self h b), hfree]
  rfl

/-- An admission that is taken back leaves the processes and the memory as they were. -/
theorem Sound.takeBack (h : s.Sound []) {size : Nat} {memory : Buddy}
    (hmemory : s.memory.allocate? size = some (b.memory, memory)) (e : Failure) :
    ∃ s', takeBack { s with memory := memory, table := (s.table.insert b).2 } (s.table.insert b).1
        b.memory e = .refused e s' ∧
      s'.Sound [] ∧ s'.table.toList.Perm s.table.toList ∧
      (∀ x, s'.table.get? x = s.table.get? x) ∧
      ∃ table memory, s' = { s with table := table, memory := memory } := by
  have made := h.memory.allocated hmemory
  have hslot := ProcessTable.get?_insert_self h.table b
  have hsame := ProcessTable.get?_vacate_insert h.table b
  obtain ⟨rest, hlist, -, hrest⟩ := ProcessTable.exists_rest hslot
  have hback : rest.Perm s.table.toList :=
    (hlist.symm.trans (ProcessTable.toList_insert h.table b)).cons_inv
  obtain ⟨memory', hfree, freed⟩ :=
    made.sound.free_of_mem (made.blocks.symm.subset List.mem_cons_self)
  have hblocks : memory'.blocks.Perm s.memory.blocks :=
    (freed.blocks.symm.trans made.blocks).cons_inv
  refine ⟨_, takeBack_eq h.table hfree e, ⟨?_, h.ready, freed.sound, h.nodup, ?_, ?_⟩,
    hrest.trans hback, hsame, _, _, rfl⟩
  · exact (h.table.insert b).vacate hslot
  · intro x
    rw [hsame]
    exact h.live x
  · exact hblocks.trans (h.blocks.trans ((hrest.trans hback).symm.map _))

/-- What can come of an arrival: it is refused for having no run time, rejected for lack of memory,
admitted, or refused for lack of room, in which case its admission has been taken back. -/
inductive Arrival (s : Scheduler) (tick : Tick) (p : Process) : Attempt Scheduler Admission → Prop
  | zeroRunTime (h : p.runTime = 0) : Arrival s tick p (.refused (.workload (.zeroRunTime p.id)) s)
  | rejected (h : p.runTime ≠ 0) (hmemory : s.memory.allocate? p.memory = none) :
      Arrival s tick p (.done (.rejected p.id) (s.reject tick p))
  | admitted (block : Buddy.Block) (memory : Buddy) (ready : ReadyQueue) (h : p.runTime ≠ 0)
      (hmemory : s.memory.allocate? p.memory = some (block, memory)) (hready : ready.Sound)
      (hperm : ready.toList.Perm
        ((s.table.insert (.ofProcess p block)).1 :: s.ready.toList))
      (hinsert : s.ready.insert (readyKey s.policy (.ofProcess p block))
        (s.table.insert (.ofProcess p block)).1 = .ok ready) :
      Arrival s tick p (.done (.admitted p.id block.range)
        { s with
          memory := memory
          table := (s.table.insert (.ofProcess p block)).2
          ready := ready
          journal := s.journal.add (.memory (.ofBlock p.id tick .allocated block)) })
  | full (table : ProcessTable) (memory : Buddy) (h : p.runTime ≠ 0)
      (hfull : s.ready.size = s.ready.capacity)
      (hsound : { s with table := table, memory := memory }.Sound [])
      (hlist : table.toList.Perm s.table.toList) (hsame : ∀ x, table.get? x = s.table.get? x)
      (hfits : (s.memory.allocate? p.memory).isSome = true) :
      Arrival s tick p
        (.refused (.full s.ready.capacity) { s with table := table, memory := memory })

/-- An arrival that no block is free for is rejected. -/
theorem arrive_rejected {p : Process} (hpos : p.runTime ≠ 0)
    (hmemory : s.memory.allocate? p.memory = none) (tick : Tick) :
    s.arrive tick p = .done (.rejected p.id) (s.reject tick p) := by
  rw [arrive, if_neg hpos, hmemory]

/-- An arrival that there are a block and room for is admitted. -/
theorem arrive_admitted {p : Process} (hpos : p.runTime ≠ 0) {block : Buddy.Block} {memory : Buddy}
    (hmemory : s.memory.allocate? p.memory = some (block, memory)) {ready : ReadyQueue}
    (hinsert : s.ready.insert (readyKey s.policy (.ofProcess p block))
      (s.table.insert (.ofProcess p block)).1 = .ok ready) (tick : Tick) :
    s.arrive tick p = .done (.admitted p.id block.range)
      { s with
        memory := memory
        table := (s.table.insert (.ofProcess p block)).2
        ready := ready
        journal := s.journal.add (.memory (.ofBlock p.id tick .allocated block)) } := by
  rw [arrive, if_neg hpos, hmemory]
  unfold Scheduler.letIn
  simp only []
  rw [hinsert]
  rfl

/-- **Nothing else can come of an arrival.** -/
theorem Sound.arrival (h : s.Sound []) (tick : Tick) (p : Process) :
    Arrival s tick p (s.arrive tick p) := by
  by_cases hzero : p.runTime = 0
  · rw [arrive, if_pos hzero]
    exact .zeroRunTime hzero
  cases hmemory : s.memory.allocate? p.memory with
  | none =>
    rw [arrive_rejected hzero hmemory]
    exact .rejected hzero hmemory
  | some out =>
    obtain ⟨block, memory⟩ := out
    have hle := ReadyQueue.size_le_capacity h.ready
    by_cases hroom : s.ready.size < s.ready.capacity
    · obtain ⟨ready, hinsert, hready, -, hperm⟩ := ReadyQueue.insert_ok h.ready hroom
        (readyKey s.policy (.ofProcess p block)) (s.table.insert (.ofProcess p block)).1
      rw [arrive_admitted hzero hmemory hinsert]
      exact .admitted block memory ready hzero hmemory hready hperm hinsert
    · obtain ⟨s', htake, hsound, hlist, hsame, table, memory', rfl⟩ :=
        h.takeBack (b := .ofProcess p block) hmemory (.full s.ready.capacity)
      rw [arrive, if_neg hzero, hmemory]
      unfold Scheduler.letIn
      simp only []
      rw [ReadyQueue.insert_full h.ready (Nat.le_of_not_lt hroom)]
      simp only []
      change Arrival s tick p (Scheduler.takeBack _ _ (ControlBlock.ofProcess p block).memory _)
      rw [htake]
      exact .full table memory' hzero (by omega) hsound hlist hsame (hmemory ▸ rfl)

/-! ## Dispatch -/

/-- A scheduler for which processes wait has a next one, which is held when it has left the ready
structure; and then there is room for another. -/
theorem Sound.takeNext (h : s.Sound []) (hwait : s.ready.toList ≠ []) :
    ∃ next ready, s.takeNext = .done next { s with ready := ready } ∧
      { s with ready := ready }.Sound [next] ∧ ready.size < ready.capacity ∧
      s.ready.toList.Perm (next :: ready.toList) ∧ s.ready.take? = some (next, ready) := by
  obtain ⟨next, ready, htake, hready, hcap, hperm⟩ := ReadyQueue.take_some h.ready hwait
  refine ⟨next, ready, ?_, h.move rfl hready rfl (hperm.symm.append_left _),
    ReadyQueue.size_lt_of_perm h.ready hready hcap hperm, hperm, htake⟩
  rw [Scheduler.takeNext, htake]

/-- What the running process is, if there is one. -/
theorem Sound.running_live (h : s.Sound held) (hrun : s.running = some slot) :
    ∃ b, s.table.get? slot = some b := by
  refine (h.live slot).mp ?_
  rw [places, hrun]
  exact List.mem_cons_self

theorem detach_eq (hrun : s.running = some slot) (hslot : s.table.get? slot = some b) {u : UnitId}
    (hunit : b.unit = some u) : s.detach = .done (slot, b, u) { s with running := none } := by
  unfold detach
  rw [hrun]
  simp only [hslot, hunit]

theorem occupant_eq (hrun : s.running = some slot) (hslot : s.table.get? slot = some b)
    {u : UnitId} (hunit : b.unit = some u) : s.occupant = .ok (some (slot, b, u)) := by
  unfold occupant
  rw [hrun]
  simp only [hslot, hunit]

theorem occupant_none (hrun : s.running = none) : s.occupant = .ok none := by
  rw [occupant, hrun]

/-- A process that has lost the processor waits again, if there is room. -/
theorem Sound.requeue (h : s.Sound held) (hrun : s.running = some slot)
    (hslot : s.table.get? slot = some b) (hroom : s.ready.size < s.ready.capacity) (tick : Tick)
    (left : Nat) :
    ∃ ready, requeue { s with running := none } tick slot b left = .done ()
        { s with
          running := none
          table := s.table.set slot ({ b with remaining := left }.stopped tick)
          ready := ready
          journal := s.journal.add
            (.process (.ofBlock ({ b with remaining := left }.stopped tick) tick .stopped none)) } ∧
      { s with
        running := none
        table := s.table.set slot ({ b with remaining := left }.stopped tick)
        ready := ready }.Sound held ∧
      ready.toList.Perm (slot :: s.ready.toList) ∧
      s.ready.insert (readyKey s.policy ({ b with remaining := left }.stopped tick)) slot =
        .ok ready := by
  obtain ⟨ready, hinsert, hready, -, hperm⟩ := ReadyQueue.insert_ok h.ready hroom
    (readyKey s.policy ({ b with remaining := left }.stopped tick)) slot
  refine ⟨ready, ?_, ?_, hperm, hinsert⟩
  · unfold Scheduler.requeue
    simp only [note]
    rw [hinsert]
  · have hset : { s with
        table := s.table.set slot ({ b with remaining := left }.stopped tick) }.Sound held :=
      h.setBlock hslot rfl
    refine hset.move rfl hready rfl ?_
    rw [places, places]
    show (held ++ ready.toList).Perm (s.running.toList ++ (held ++ s.ready.toList))
    rw [hrun]
    exact (hperm.append_left held).trans List.perm_middle

theorem candidate_eq (hrun : s.running = none) (hslot : s.table.get? slot = some b) :
    s.candidate slot = .ok b := by
  unfold candidate
  rw [hrun, if_neg (by simp)]
  simp only [hslot]

/-- A held process gets the free processor. -/
theorem Sound.occupy (h : s.Sound (slot :: held)) (hrun : s.running = none)
    (hslot : s.table.get? slot = some b) {b' : ControlBlock} (hmemory : b'.memory = b.memory)
    (tick : Tick) (kind : ProcessEventKind) : (s.occupy tick slot b' kind).Sound held := by
  have hset := h.setBlock hslot hmemory
  refine hset.move rfl h.ready rfl ?_
  rw [places, places]
  show ((some slot).toList ++ (held ++ s.ready.toList)).Perm
    (s.running.toList ++ (slot :: held ++ s.ready.toList))
  rw [hrun]
  exact List.Perm.refl _

/-! ## The end of a process -/

theorem evict_eq (hrun : s.running = some slot) (hslot : s.table.get? slot = some b) {u : UnitId}
    (hunit : b.unit = some u) :
    s.evict = .done (b, u) { s with running := none, table := s.table.vacate slot } := by
  unfold evict
  rw [hrun]
  simp only [ProcessTable.remove?_eq hslot, hunit]

/-- A scheduler that has accounted for a finished process and got its block back. -/
def closed (s : Scheduler) (tick : Tick) (b : ControlBlock) (memory : Buddy) : Scheduler :=
  { s with
    journal := (s.journal.add (.process (finishEvent b tick))).add
      (.memory (.ofBlock b.id tick .freed b.memory))
    metrics := s.metrics.countFinish (finishOf b tick)
    memory := memory
    outstanding := s.outstanding - 1 }

theorem close_eq {memory : Buddy} (hfree : s.memory.free b.memory = .ok memory) (tick : Tick) :
    s.close tick b = .done () (s.closed tick b memory) := by
  unfold close
  simp only [note]
  rw [hfree]
  rfl

/-- The running process leaves, and its block is given back. -/
theorem Sound.retire (h : s.Sound held) (hrun : s.running = some slot)
    (hslot : s.table.get? slot = some b) :
    ∃ memory, s.memory.free b.memory = .ok memory ∧
      { s with running := none, table := s.table.vacate slot, memory := memory }.Sound held := by
  obtain ⟨rest, hlist, -, hrest⟩ := ProcessTable.exists_rest hslot
  have hblocks := h.blocks.trans (hlist.map _)
  rw [List.map_cons] at hblocks
  obtain ⟨memory, hfree, freed⟩ :=
    h.memory.free_of_mem (hblocks.symm.subset List.mem_cons_self)
  have hnodup := h.nodup
  have hlive := h.live
  rw [places, hrun] at hnodup hlive
  obtain ⟨hnew, hothers⟩ := List.nodup_cons.mp hnodup
  refine ⟨memory, hfree, ⟨h.table.vacate hslot, h.ready, freed.sound, hothers, ?_, ?_⟩⟩
  · intro x
    show x ∈ held ++ s.ready.toList ↔ ∃ c, (s.table.vacate slot).get? x = some c
    have hx := hlive x
    rw [ProcessTable.get?_vacate hslot]
    split
    · rename_i heq
      rw [heq]
      exact ⟨fun hmem => absurd hmem hnew, fun ⟨c, hc⟩ => absurd hc (by simp)⟩
    · rename_i hne
      exact ⟨fun hmem => hx.mp (List.mem_cons_of_mem _ hmem),
        fun hc => (List.mem_cons.mp (hx.mpr hc)).resolve_left hne⟩
  · exact (freed.blocks.symm.trans hblocks).cons_inv.trans (hrest.symm.map _)

end Scheduler
end Uniprocessor
