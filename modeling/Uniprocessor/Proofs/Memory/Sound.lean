import Uniprocessor.Proofs.Memory.Tree

/-!
# Sound arenas

An arena is sound if its tree is no deeper than its order allows and the keys of the tree are the
slots in use.  The empty arena is sound, and allocation and release keep it so.  What else the two
operations do is said of the blocks in use, which is all that the rest of the development looks at.

* `Buddy.Sound.allocated`: a block that is handed out joins the blocks in use.
* `Buddy.Sound.free_of_mem`: a block in use can be given back, and then leaves them.
* `Buddy.free_of_notMem_keys`: a block whose node is gone is refused.
-/

namespace Uniprocessor
namespace Buddy

open Buddy.Tree

/-- The tree fits the arena, and its keys are those that the supply has given out. -/
structure Sound (b : Buddy) : Prop where
  fits : b.root.Fits b.order
  owns : b.supply.Owns b.root.keys

/-- Every power of two is the capacity of an arena. -/
theorem ofCapacity_two_pow (order : Nat) : ofCapacity (2 ^ order) = .ok (ofOrder order) := by
  have hpow : isPowerOfTwo (2 ^ order) = true := by
    rw [isPowerOfTwo, Nat.log2_two_pow, beq_self_eq_true]
  rw [ofCapacity, if_pos hpow, Nat.log2_two_pow]

theorem sound_ofOrder (order : Nat) : (ofOrder order).Sound :=
  ⟨trivial, Supply.owns_nil_new⟩

namespace Sound

variable {b : Buddy}

/-- **Every block in use is aligned and lies inside the arena.** -/
theorem block_bounds (h : b.Sound) {blk : Block} (hb : blk ∈ b.blocks) :
    blk.size ∣ blk.start ∧ blk.start + blk.size ≤ b.capacity := by
  obtain ⟨-, hd, -, hhi⟩ := mem_blocks_bounds h.fits (Nat.dvd_zero _) hb
  rw [Nat.zero_add] at hhi
  exact ⟨hd, hhi⟩

/-- **Each block in use ends before the next one starts.** -/
theorem pairwise_blocks (h : b.Sound) :
    b.blocks.Pairwise fun x y => x.start + x.size ≤ y.start :=
  Tree.pairwise_blocks h.fits (Nat.dvd_zero _)

/-- No more is in use than there is. -/
theorem allocatedBytes_le (h : b.Sound) : b.allocatedBytes ≤ b.capacity :=
  sum_size_blocks_le h.fits 0

/-- Blocks in use have different keys. -/
theorem nodup_map_key_blocks (h : b.Sound) : (b.blocks.map Block.key).Nodup :=
  h.owns.nodup.sublist (map_key_blocks_sublist h.fits 0)

theorem nodup_blocks (h : b.Sound) : b.blocks.Nodup :=
  h.nodup_map_key_blocks.of_map Block.key

theorem key_mem_keys (h : b.Sound) {blk : Block} (hb : blk ∈ b.blocks) : blk.key ∈ b.root.keys :=
  mem_keys_of_mem_blocks h.fits hb

/-- A block in use is known by its key. -/
theorem eq_of_key_eq (h : b.Sound) {x y : Block} (hx : x ∈ b.blocks) (hy : y ∈ b.blocks)
    (hkey : x.key = y.key) : x = y :=
  List.inj_on_of_nodup_map h.nodup_map_key_blocks hx hy hkey

end Sound

/-! ## Allocation -/

/-- What a successful request for `size` bytes does to an arena. -/
structure Allocated (b : Buddy) (size : Nat) (blk : Block) (b' : Buddy) : Prop where
  sound : b'.Sound
  order_eq : b'.order = b.order
  block_order : blk.order = orderFor size
  blocks : b'.blocks.Perm (blk :: b.blocks)
  fresh : ∀ k ∈ b'.root.keys, k ∈ b.root.keys ∨ b.supply.generation ≤ k.generation
  fresh_block : b.supply.generation ≤ blk.key.generation
  generation_le : b.supply.generation ≤ b'.supply.generation

/-- A block that is handed out has been placed in the tree. -/
theorem exists_places_of_allocate? {b b' : Buddy} {size : Nat} {blk : Block}
    (ha : b.allocate? size = some (blk, b')) :
    ∃ p, Places (orderFor size) b.supply b.root b.order 0 p ∧ blk = p.block ∧
      b' = { b with root := p.tree, supply := p.supply } := by
  unfold allocate? at ha
  simp only [] at ha
  split at ha
  · exact absurd ha (by simp)
  rename_i hlarge
  obtain ⟨p, hp, hout⟩ := Option.map_eq_some_iff.mp ha
  obtain ⟨rfl, rfl⟩ := Prod.mk.inj hout
  refine ⟨p, ?_, rfl, rfl⟩
  split at hp
  · rename_i hroot
    obtain rfl := Option.some.inj hp
    rw [isAbsent_iff.mp hroot]
    exact .free b.order 0 (Nat.le_of_not_lt hlarge)
  · exact places_of_place hp

/-- **A block that is handed out joins the blocks in use; all others stay where they are.** -/
theorem Sound.allocated {b b' : Buddy} (h : b.Sound) {size : Nat} {blk : Block}
    (ha : b.allocate? size = some (blk, b')) : Allocated b size blk b' := by
  obtain ⟨p, hp, rfl, rfl⟩ := exists_places_of_allocate? ha
  have placed := hp.placed h.fits
  have howns := placed.owns []
  rw [List.append_nil, List.append_nil] at howns
  exact ⟨⟨placed.fits, howns h.owns⟩, rfl, placed.order_eq, placed.blocks, placed.fresh,
    placed.fresh_block, placed.generation_le⟩

theorem Allocated.capacity_eq {b b' : Buddy} {size : Nat} {blk : Block}
    (h : Allocated b size blk b') : b'.capacity = b.capacity :=
  congrArg (2 ^ ·) h.order_eq

/-! ## Release -/

/-- What giving back a block does to an arena. -/
structure Freed (b : Buddy) (blk : Block) (b' : Buddy) : Prop where
  sound : b'.Sound
  order_eq : b'.order = b.order
  blocks : b.blocks.Perm (blk :: b'.blocks)
  keys_subset : b'.root.keys ⊆ b.root.keys
  gone : blk.key ∉ b'.root.keys
  generation_eq : b'.supply.generation = b.supply.generation

theorem Freed.capacity_eq {b b' : Buddy} {blk : Block} (h : Freed b blk b') :
    b'.capacity = b.capacity :=
  congrArg (2 ^ ·) h.order_eq

/-- **A block in use can be given back.** -/
theorem Sound.free_of_mem {b : Buddy} (h : b.Sound) {blk : Block} (hb : blk ∈ b.blocks) :
    ∃ b', b.free blk = .ok b' ∧ Freed b blk b' := by
  obtain ⟨t, released, hprune⟩ := exists_prune_of_mem_blocks h.fits h.owns.nodup hb
  have hpruned := prune_pruned h.fits hprune 0
  obtain ⟨blk', hkey, hblocks⟩ := hpruned.blocks
  obtain ⟨gone, hgone, rfl, hkeys⟩ := hpruned.keys
  have hfound : find? blk.key b.root ≠ none := fun hnone =>
    find?_eq_none_iff.mp hnone (h.key_mem_keys hb)
  obtain ⟨found, hfind⟩ := Option.ne_none_iff_exists'.mp hfound
  have hsame : blk' = blk :=
    h.eq_of_key_eq (hblocks.symm.subset List.mem_cons_self) hb hkey
  subst hsame
  have hown : (b.supply.release (gone.map Key.slot)).Owns t.keys := (h.owns.perm hkeys.symm).release
  refine ⟨{ b with root := t, supply := b.supply.release (gone.map Key.slot) }, ?_,
    ⟨⟨hpruned.fits, hown⟩, rfl, hblocks, ?_, ?_, rfl⟩⟩
  · unfold free
    rw [hfind, hprune]
  · exact fun k hk => hkeys.symm.subset (List.mem_append_right gone hk)
  · have hnodup : (gone ++ t.keys).Nodup := hkeys.nodup_iff.mp h.owns.nodup
    exact fun hmem => (List.nodup_append.mp hnodup).2.2 _ hgone _ hmem rfl

/-- A block whose node is gone is refused. -/
theorem free_of_notMem_keys {b : Buddy} {blk : Block} (hk : blk.key ∉ b.root.keys) :
    b.free blk = .error (.memory (.notAllocated blk.start blk.last)) := by
  unfold free
  rw [find?_eq_none_iff.mpr hk]

end Buddy
end Uniprocessor
