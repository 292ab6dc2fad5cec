import Uniprocessor.Journal.Log
import Uniprocessor.Proofs.Journal.Log
import Uniprocessor.Proofs.Journal.Figures
import Uniprocessor.Proofs.Memory.Vacancy

/-!
# What the memory log tells

Read in order, a memory log tells at every point which ranges are held, and by whom: those that have
been allocated and not been freed.  Whoever reads it needs nothing else to see whether the ranges
were well laid out, and whether a request was refused for a reason.

A log is kept along with a list of owners, the blocks in use and whose they are.  It can grow in
three ways: a request is granted, or it is refused, or a block comes back.

* `EventLog.holdings`: the ranges that are held after some events;
* `Laid`: ranges that are aligned, inside the arena, and apart from each other;
* `Room`: a request that there is a range for;
* `Buddy.Sound.laid`, `Buddy.Sound.room_iff`: the blocks of an arena are laid out so, and **it
  grants a request exactly if there is room**;
* `EventLog.Custody`: a log is true to its owners at every point;
* `Custody.grant`, `Custody.refuse`, `Custody.release`: the ways in which it grows.
-/

namespace Uniprocessor

/-! ## Ranges -/

namespace Range

/-- Two ranges have no address in common. -/
def Apart (x y : Range) : Prop :=
  x.last < y.start ∨ y.last < x.start

/-- A range of so many bytes, which starts at a multiple of their number and lies in the arena. -/
structure Fits (x : Range) (capacity : Nat) : Prop where
  last_eq : x.last + 1 = x.start + x.size
  aligned : x.size ∣ x.start
  inside : x.last < capacity

theorem Apart.symm {x y : Range} (h : x.Apart y) : y.Apart x :=
  Or.symm h

end Range

/-- Ranges that are aligned, inside the arena, and apart from each other. -/
structure Laid (capacity : Nat) (held : List Range) : Prop where
  fits : ∀ x ∈ held, x.Fits capacity
  apart : held.Pairwise Range.Apart

/-- There is a range of the size that a request takes, which lies in the arena and is apart from all
that are held. -/
def Room (held : List Range) (capacity size : Nat) : Prop :=
  ∃ x : Range, Buddy.blockSize? size = some x.size ∧ x.Fits capacity ∧ ∀ y ∈ held, x.Apart y

variable {capacity size : Nat} {held held' : List Range}

theorem laid_nil (capacity : Nat) : Laid capacity [] :=
  ⟨fun _ hx => absurd hx List.not_mem_nil, List.Pairwise.nil⟩

theorem Laid.perm (h : Laid capacity held) (hp : held'.Perm held) : Laid capacity held' :=
  ⟨fun x hx => h.fits x (hp.subset hx), (hp.pairwise_iff Range.Apart.symm).mpr h.apart⟩

theorem room_perm (hp : held'.Perm held) : Room held' capacity size ↔ Room held capacity size := by
  refine exists_congr fun x => and_congr_right fun _ => and_congr_right fun _ => ?_
  exact forall_congr' fun y => imp_congr_left hp.mem_iff

namespace Buddy

theorem Block.range_fits {b : Block} (haligned : b.size ∣ b.start)
    (hinside : b.start + b.size ≤ capacity) : b.range.Fits capacity := by
  have hpos := b.size_pos
  refine ⟨?_, haligned, ?_⟩
  · show b.start + b.size - 1 + 1 = b.start + b.size
    omega
  · show b.start + b.size - 1 < capacity
    omega

/-- A block misses a range exactly if they are apart. -/
theorem Block.misses_iff (b : Block) {x : Range} (hlast : x.last + 1 = x.start + x.size) :
    b.Misses x.start x.size ↔ x.Apart b.range := by
  have hsize := b.size_pos
  show b.start + b.size ≤ x.start ∨ x.start + x.size ≤ b.start ↔
    x.last < b.start ∨ b.start + b.size - 1 < x.start
  omega

/-- The blocks of an arena are laid out as they should be. -/
theorem Sound.laid {b : Buddy} (h : b.Sound) : Laid b.capacity (b.blocks.map Block.range) := by
  constructor
  · intro x hx
    obtain ⟨blk, hblk, rfl⟩ := List.mem_map.mp hx
    obtain ⟨haligned, hinside⟩ := h.block_bounds hblk
    exact Block.range_fits haligned hinside
  · refine List.pairwise_map.mpr (h.pairwise_blocks.imp fun {x y} hxy => Or.inl ?_)
    have hpos := x.size_pos
    show x.start + x.size - 1 < y.start
    omega

/-- **An arena grants a request exactly if there is room for it.** -/
theorem Sound.room_iff {b : Buddy} (h : b.Sound) (hcapacity : b.capacity ≤ 2 ^ 62) :
    Room (b.blocks.map Block.range) b.capacity size ↔ (b.allocate? size).isSome = true := by
  constructor
  · rintro ⟨x, hsize, hfits, hmissed⟩
    obtain ⟨-, hbytes⟩ := Usage.blockSize?_eq_some_iff.mp hsize
    obtain ⟨k, hk⟩ := hfits.aligned
    rw [Nat.mul_comm] at hk
    have hroom : Vacant b.blocks b.capacity (2 ^ orderFor size) k := by
      rw [← hbytes]
      refine ⟨?_, fun blk hblk => ?_⟩
      · have hlast := hfits.last_eq
        have hinside := hfits.inside
        rw [Nat.add_mul, Nat.one_mul, ← hk]
        omega
      · rw [← hk, blk.misses_iff hfits.last_eq]
        exact hmissed _ (List.mem_map_of_mem hblk)
    obtain ⟨blk, b', ha⟩ := h.exists_allocate? hroom
    rw [ha]
    rfl
  · intro hsome
    obtain ⟨⟨blk, b'⟩, ha⟩ := Option.isSome_iff_exists.mp hsome
    obtain ⟨hsize, k, hstart, hroom⟩ := h.vacant ha
    rw [← hsize] at hstart hroom
    have hinside : blk.start + blk.size ≤ b.capacity := by
      have hend := hroom.inside
      rw [Nat.add_mul, Nat.one_mul, ← hstart] at hend
      exact hend
    have hlt : 2 ^ orderFor size < 2 ^ 64 := by
      rw [← hsize]
      exact Nat.lt_of_le_of_lt (Nat.le_trans (Nat.le_add_left _ _) hinside)
        (Nat.lt_of_le_of_lt hcapacity (by decide))
    have haligned : blk.size ∣ blk.start := by
      rw [hstart]
      exact Nat.dvd_mul_left _ _
    have hfits := Block.range_fits haligned hinside
    refine ⟨blk.range, Usage.blockSize?_eq_some_iff.mpr
      ⟨(Nat.pow_lt_pow_iff_right (by decide)).mp hlt, hsize⟩, hfits, fun y hy => ?_⟩
    obtain ⟨other, hother, rfl⟩ := List.mem_map.mp hy
    refine (other.misses_iff hfits.last_eq).mp ?_
    have hmissed := hroom.missed other hother
    rw [← hstart] at hmissed
    exact hmissed

end Buddy

/-! ## Holdings -/

namespace EventLog

/-- What is held after an event, where each range goes with the process that holds it. -/
def hold (held : List (Nat × Range)) (e : MemoryEvent) : List (Nat × Range) :=
  match e.kind, e.range with
  | .allocated, some range => (e.process, range) :: held
  | .freed, some range => held.erase (e.process, range)
  | _, _ => held

/-- What is held after some events: what has been allocated and not been freed. -/
def holdings (ms : List MemoryEvent) : List (Nat × Range) :=
  ms.foldl hold []

/-- The ranges that are held after some events. -/
def heldRanges (ms : List MemoryEvent) : List Range :=
  (holdings ms).map Prod.snd

theorem holdings_concat (ms : List MemoryEvent) (e : MemoryEvent) :
    holdings (ms ++ [e]) = hold (holdings ms) e := by
  rw [holdings, List.foldl_append]
  rfl

/-- An event answers the request of a process, at its arrival and while `held` is held: a block is
handed out if there is room, and it is rejected if there is none. -/
inductive Answers (e : MemoryEvent) (p : Process) (capacity : Nat) (held : List Range) : Prop
  | granted (block : Buddy.Block) (he : e = .ofBlock p.id p.arrival .allocated block)
      (hroom : Room held capacity p.memory)
  | refused (he : e = ⟨p.arrival, p.id, .rejected, p.memory, none⟩)
      (hnone : ¬ Room held capacity p.memory)

/-- By an event a process gives back the block that was allocated for it, at the tick of its
finish. -/
structure Returns (e : MemoryEvent) (log : EventLog) : Prop where
  block : ∃ t block, e = .ofBlock e.process e.tick .freed block ∧
    MemoryEvent.ofBlock e.process t .allocated block ∈ log.memory
  finish : ∃ d ∈ log.process, d.process = e.process ∧ d.finishes = true ∧ d.tick = e.tick

/-- A memory log of processes among `all` is true to the owners of the blocks in use, and has been
at every point. -/
structure Custody (log : EventLog) (owners : List (Nat × Buddy.Block)) (capacity : Nat)
    (all : List Process) : Prop where
  held : (holdings log.memory).Perm (owners.map (Prod.map id Buddy.Block.range))
  granted : ∀ x ∈ owners, ∃ t, MemoryEvent.ofBlock x.1 t .allocated x.2 ∈ log.memory
  laid : ∀ ms, ms <+: log.memory → Laid capacity (heldRanges ms)
  answered : ∀ before e, before ++ [e] <+: log.memory → e.kind ≠ .freed →
    ∃ p ∈ all, Answers e p capacity (heldRanges before)
  returned : ∀ e ∈ log.memory, e.kind = .freed → Returns e log
  /-- What comes back in a tick comes back before anybody is answered in it. -/
  freed_first : log.memory.Pairwise fun d e => d.tick = e.tick → e.kind = .freed → d.kind = .freed

variable {log : EventLog} {owners owners' : List (Nat × Buddy.Block)} {all : List Process}
  {p : Process} {es : List ProcessEvent} {e : MemoryEvent} {block : Buddy.Block} {tick : Tick}

theorem Returns.extend (h : Returns e log) (es : List ProcessEvent) (ms : List MemoryEvent) :
    Returns e (log.extend es ms) := by
  obtain ⟨⟨t, block, he, hallocated⟩, d, hd, hfinish⟩ := h
  exact ⟨⟨t, block, he, List.mem_append_left _ hallocated⟩, d, List.mem_append_left _ hd, hfinish⟩

theorem custody_empty (capacity : Nat) (all : List Process) : empty.Custody [] capacity all where
  held := List.Perm.refl _
  granted := fun _ hx => absurd hx List.not_mem_nil
  laid := fun ms hms => by
    rw [List.prefix_nil.mp hms]
    exact laid_nil capacity
  answered := fun before e hprefix => absurd (List.prefix_nil.mp hprefix) (by simp)
  returned := fun _ he => absurd he List.not_mem_nil
  freed_first := List.Pairwise.nil

/-- The ranges that are held in the end are those of the owners. -/
theorem Custody.heldRanges_perm (h : log.Custody owners capacity all) :
    (heldRanges log.memory).Perm ((owners.map Prod.snd).map Buddy.Block.range) := by
  have hranges := h.held.map Prod.snd
  rw [List.map_map] at hranges
  rw [List.map_map]
  exact hranges

/-- Only the owners matter, and not their order. -/
theorem Custody.extend_process (h : log.Custody owners capacity all) (es : List ProcessEvent)
    (hp : owners'.Perm owners) : (log.extend es []).Custody owners' capacity all := by
  have hmemory : (log.extend es []).memory = log.memory := List.append_nil _
  refine ⟨?_, ?_, ?_, ?_, ?_, ?_⟩
  · rw [hmemory]
    exact h.held.trans (hp.symm.map _)
  · rw [hmemory]
    exact fun x hx => h.granted x (hp.subset hx)
  · rw [hmemory]
    exact h.laid
  · rw [hmemory]
    exact h.answered
  · intro e he hkind
    rw [hmemory] at he
    exact (h.returned e he hkind).extend es []
  · rw [hmemory]
    exact h.freed_first

/-- A log that grows by one event stays true to the owners if the last event is. -/
theorem Custody.concat (h : log.Custody owners capacity all) (es : List ProcessEvent)
    (hheld : (holdings (log.memory ++ [e])).Perm (owners'.map (Prod.map id Buddy.Block.range)))
    (hgranted : ∀ x ∈ owners', ∃ t, MemoryEvent.ofBlock x.1 t .allocated x.2 ∈ log.memory ++ [e])
    (hlaid : Laid capacity ((owners'.map Prod.snd).map Buddy.Block.range))
    (hanswered : e.kind ≠ .freed → ∃ p ∈ all, Answers e p capacity (heldRanges log.memory))
    (hreturned : e.kind = .freed → Returns e (log.extend es [e]))
    (hfirst : ∀ d ∈ log.memory, d.tick = e.tick → e.kind = .freed → d.kind = .freed) :
    (log.extend es [e]).Custody owners' capacity all := by
  refine ⟨hheld, hgranted, ?_, ?_, ?_, ?_⟩
  · intro ms hms
    rcases List.prefix_concat_iff.mp hms with rfl | hms
    · have hranges := hheld.map Prod.snd
      rw [List.map_map] at hranges
      refine hlaid.perm ?_
      rw [List.map_map]
      exact hranges
    · exact h.laid ms hms
  · intro before x hprefix hkind
    rcases List.prefix_concat_iff.mp hprefix with heq | hprefix
    · obtain ⟨rfl, hx⟩ := List.append_inj' heq rfl
      obtain rfl := List.singleton_inj.mp hx
      exact hanswered hkind
    · exact h.answered before x hprefix hkind
  · intro x hx hkind
    rcases List.mem_append.mp hx with hx | hx
    · exact (h.returned x hx hkind).extend es [e]
    · obtain rfl := List.mem_singleton.mp hx
      exact hreturned hkind
  · refine List.pairwise_append.mpr ⟨h.freed_first, List.pairwise_singleton _ _, ?_⟩
    intro d hd x hx
    obtain rfl := List.mem_singleton.mp hx
    exact hfirst d hd

/-- A process gets a block. -/
theorem Custody.grant (h : log.Custody owners capacity all) (hp : p ∈ all)
    (hroom : Room ((owners.map Prod.snd).map Buddy.Block.range) capacity p.memory)
    (hlaid : Laid capacity (((block :: owners.map Prod.snd)).map Buddy.Block.range))
    (howners : owners'.Perm ((p.id, block) :: owners)) :
    (log.extend [] [.ofBlock p.id p.arrival .allocated block]).Custody owners' capacity all := by
  refine h.concat [] ?_ ?_ (hlaid.perm ((howners.map Prod.snd).map _)) (fun _ => ?_)
    (fun hfreed => absurd hfreed (by simp [MemoryEvent.ofBlock]))
    (fun d _ _ hfreed => absurd hfreed (by simp [MemoryEvent.ofBlock]))
  · rw [holdings_concat]
    exact (h.held.cons _).trans (howners.symm.map (Prod.map id Buddy.Block.range))
  · intro x hx
    rcases List.mem_cons.mp (howners.subset hx) with rfl | hx
    · exact ⟨p.arrival, List.mem_append_right _ (List.mem_singleton_self _)⟩
    · obtain ⟨t, ht⟩ := h.granted x hx
      exact ⟨t, List.mem_append_left _ ht⟩
  · exact ⟨p, hp, .granted block rfl ((room_perm h.heldRanges_perm).mpr hroom)⟩

/-- A process is rejected. -/
theorem Custody.refuse (h : log.Custody owners capacity all) (hp : p ∈ all)
    (hnone : ¬ Room ((owners.map Prod.snd).map Buddy.Block.range) capacity p.memory) :
    (log.extend [] [⟨p.arrival, p.id, .rejected, p.memory, none⟩]).Custody owners capacity all := by
  refine h.concat [] ?_ ?_ ?_ (fun _ => ?_) (fun hfreed => absurd hfreed (by simp))
    (fun d _ _ hfreed => absurd hfreed (by simp))
  · rw [holdings_concat]
    exact h.held
  · intro x hx
    obtain ⟨t, ht⟩ := h.granted x hx
    exact ⟨t, List.mem_append_left _ ht⟩
  · exact (h.laid _ (List.prefix_refl _)).perm h.heldRanges_perm.symm
  · exact ⟨p, hp, .refused rfl (mt (room_perm h.heldRanges_perm).mp hnone)⟩

/-- A process that finishes gives its block back, before anybody is answered in that tick. -/
theorem Custody.release (h : log.Custody owners capacity all) {d : ProcessEvent}
    (hfinish : d.finishes = true) (hbefore : ∀ e ∈ log.memory, e.tick < d.tick)
    (howners : owners.Perm ((d.process, block) :: owners')) :
    (log.extend [d] [.ofBlock d.process d.tick .freed block]).Custody owners' capacity all := by
  have hheld : (holdings log.memory).Perm
      ((d.process, block.range) :: owners'.map (Prod.map id Buddy.Block.range)) :=
    h.held.trans (howners.map _)
  have hlaid := (h.laid _ (List.prefix_refl _)).perm h.heldRanges_perm.symm
  refine h.concat [d] ?_ ?_ ?_ (fun hkind => absurd rfl hkind) (fun _ => ?_)
    (fun e he htick _ => absurd htick (Nat.ne_of_lt (hbefore e he)))
  · rw [holdings_concat]
    have herased := hheld.erase (d.process, block.range)
    rw [List.erase_cons_head] at herased
    exact herased
  · intro x hx
    obtain ⟨t, ht⟩ := h.granted x (howners.symm.subset (List.mem_cons_of_mem _ hx))
    exact ⟨t, List.mem_append_left _ ht⟩
  · have hall := hlaid.perm ((howners.symm.map Prod.snd).map Buddy.Block.range)
    exact ⟨fun x hx => hall.fits x (List.mem_cons_of_mem _ hx), (List.pairwise_cons.mp hall.apart).2⟩
  · obtain ⟨t, ht⟩ := h.granted _ (howners.symm.subset List.mem_cons_self)
    exact ⟨⟨t, block, rfl, List.mem_append_left _ ht⟩, d,
      List.mem_append_right _ (List.mem_singleton_self _), rfl, hfinish, rfl⟩

end EventLog
end Uniprocessor
