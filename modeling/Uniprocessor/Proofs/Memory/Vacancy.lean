import Uniprocessor.Proofs.Histories
import Uniprocessor.Proofs.Memory.Ascent

/-!
# Where there is room

A request is only refused if there is no room for it: as long as an aligned stretch of the wanted
size is free of blocks, the search finds one.  A tree hides nothing, since a part of it that is
missing is free, and a part that is there has a block in it.

The blocks that are looked at are the live ones: those handed out and not given back since.  Here
anything at all may be given back, also blocks of another arena and blocks given back before.  What
counts is the key of a block: the live block with that key, if there is one, is given back.

* `Buddy.Sound.eq_absent`: an arena without blocks has no nodes;
* `Tree.exists_touching`: where no place is found, every aligned stretch of a tree has a block in it;
* `Buddy.Sound.exists_allocate?`, `Buddy.Sound.vacant`: **an arena grants a request exactly if there is
  room**, and then it is given room that was vacant;
* `NodeTable.Represents.allocate?_none`: a node table is the same after a refused request;
* `Usage.run_allocates_iff`: the same of an arena after any history.
-/

namespace Uniprocessor
namespace Buddy

/-- A block has no address in common with the `size` bytes from `start` on. -/
def Block.Misses (b : Block) (start size : Nat) : Prop :=
  b.start + b.size ≤ start ∨ start + size ≤ b.start

/-- The `k`-th of the stretches that `capacity` bytes are divided into by `size` is inside them, and
no block of a list lies in it. -/
structure Vacant (blocks : List Block) (capacity size k : Nat) : Prop where
  inside : (k + 1) * size ≤ capacity
  missed : ∀ b ∈ blocks, b.Misses (k * size) size

theorem Vacant.perm {blocks blocks' : List Block} {capacity size k : Nat}
    (h : Vacant blocks capacity size k) (hp : blocks'.Perm blocks) :
    Vacant blocks' capacity size k :=
  ⟨h.inside, fun b hb => h.missed b (hp.subset hb)⟩

namespace Tree

/-- A node has a block in it. -/
theorem exists_mem_blocks {t : Tree} {order : Nat} (hfits : t.Fits order)
    (hpresent : t.isAbsent = false) (start : Nat) : ∃ b, b ∈ t.blocks order start := by
  induction t, order, hfits using fits_induction generalizing start with
  | absent order => exact absurd hpresent (by simp)
  | leaf k order => exact ⟨_, List.mem_singleton.mpr rfl⟩
  | inner k l r n hfl hfr hleaf ihl ihr =>
    rw [blocks_node hleaf]
    rcases Bool.and_eq_false_iff.mp hleaf with hl | hr
    · obtain ⟨b, hb⟩ := ihl hl start
      exact ⟨b, List.mem_append_left _ hb⟩
    · obtain ⟨b, hb⟩ := ihr hr (start + 2 ^ n)
      exact ⟨b, List.mem_append_right _ hb⟩

/-- An aligned stretch lies on one side of an aligned address. -/
theorem le_or_le_of_dvd {size lo middle : Nat} (hlo : size ∣ lo) (hmiddle : size ∣ middle) :
    lo + size ≤ middle ∨ middle ≤ lo := by
  by_cases hlt : lo < middle
  · have hle := Nat.le_of_dvd (Nat.sub_pos_of_lt hlt) (Nat.dvd_sub hmiddle hlo)
    exact Or.inl (by omega)
  · exact Or.inr (Nat.le_of_not_lt hlt)

/-- An inner node that refuses an order below its own has both halves, and both refuse it. -/
theorem halves_refuse {want n start : Nat} {k : Key} {l r : Tree} {supply : Supply}
    (hleaf : (l.isAbsent && r.isAbsent) = false) (hwant : want ≤ n)
    (hnone : place want (node k l r) (n + 1) start supply = none) :
    (l.isAbsent = false ∧ place want l n start supply = none) ∧
      r.isAbsent = false ∧ place want r n (start + 2 ^ n) supply = none := by
  rw [place, if_neg (by simpa [hleaf] using hwant)] at hnone
  split at hnone
  · exact absurd hnone (by simp)
  rename_i hleft
  split at hnone
  · exact absurd hnone (by simp)
  rename_i hright
  split at hnone
  · exact absurd hnone (by simp)
  rename_i hl
  split at hnone
  · exact absurd hnone (by simp)
  rename_i hr
  exact ⟨⟨Bool.eq_false_iff.mpr hl, hleft⟩, Bool.eq_false_iff.mpr hr, hright⟩

/-- **Where no place is found, there is none**: every aligned stretch of the wanted size that lies in
a node has a block in it. -/
theorem exists_touching {want order start lo : Nat} {t : Tree} {supply : Supply}
    (hfits : t.Fits order) (halign : 2 ^ order ∣ start) (hpresent : t.isAbsent = false)
    (hnone : place want t order start supply = none) (hwant : want ≤ order) (hlo : 2 ^ want ∣ lo)
    (hfrom : start ≤ lo) (hto : lo + 2 ^ want ≤ start + 2 ^ order) :
    ∃ b ∈ t.blocks order start, ¬ b.Misses lo (2 ^ want) := by
  have hpos := Nat.two_pow_pos want
  induction t, order, hfits using fits_induction generalizing start with
  | absent order => exact absurd hpresent (by simp)
  | leaf k order =>
    -- the node is a block, which fills it
    refine ⟨⟨k, order, start⟩, List.mem_singleton.mpr rfl, ?_⟩
    simp only [Block.Misses, Block.size]
    omega
  | inner k l r n hfl hfr hleaf ihl ihr =>
    rcases Nat.lt_or_ge n want with hn | hle
    · -- the stretch is the whole node
      obtain rfl : want = n + 1 := Nat.le_antisymm hwant hn
      have hfits : Fits (node k l r) (n + 1) := ⟨hfl, hfr⟩
      obtain ⟨b, hb⟩ := exists_mem_blocks hfits hpresent start
      obtain ⟨-, -, hbegin, hend⟩ := mem_blocks_bounds hfits halign hb
      have hsize := b.size_pos
      refine ⟨b, hb, ?_⟩
      unfold Block.Misses
      omega
    · -- both halves are there, and the stretch lies in one of them
      obtain ⟨⟨hl, hleft⟩, hr, hright⟩ := halves_refuse hleaf hle hnone
      have hhalf : 2 ^ n ∣ start := Nat.dvd_trans (Nat.pow_dvd_pow 2 (Nat.le_succ n)) halign
      have hmiddle : 2 ^ n ∣ start + 2 ^ n := Nat.dvd_add hhalf (Nat.dvd_refl _)
      have hpow : 2 ^ (n + 1) = 2 ^ n + 2 ^ n := by rw [Nat.pow_succ]; omega
      rw [blocks_node hleaf]
      rcases le_or_le_of_dvd hlo (Nat.dvd_trans (Nat.pow_dvd_pow 2 hle) hmiddle) with hin | hin
      · obtain ⟨b, hb, htouch⟩ := ihl hhalf hl hleft hle hfrom hin
        exact ⟨b, List.mem_append_left _ hb, htouch⟩
      · obtain ⟨b, hb, htouch⟩ := ihr hmiddle hr hright hle hin (by omega)
        exact ⟨b, List.mem_append_right _ hb, htouch⟩

end Tree

/-! ## Requests -/

namespace Sound

variable {b b' : Buddy} {size k : Nat} {blk : Block}

/-- As many slots hold a node as the tree has nodes. -/
theorem nodeCount_eq (h : b.Sound) : b.nodeCount = b.root.keys.length := by
  have hlen := h.owns.slots.length_eq
  rw [List.length_append, List.length_map, List.length_range] at hlen
  rw [nodeCount]
  omega

/-- An arena without blocks has no nodes either. -/
theorem eq_absent (h : b.Sound) (hblocks : b.blocks = []) :
    b.root = .absent ∧ b.nodeCount = 0 := by
  have habsent : b.root = .absent := by
    cases hroot : b.root with
    | absent => rfl
    | node k l r =>
      obtain ⟨x, hx⟩ := Tree.exists_mem_blocks h.fits (by rw [hroot]; rfl) 0
      rw [blocks] at hblocks
      rw [hblocks] at hx
      exact absurd hx List.not_mem_nil
  exact ⟨habsent, by rw [h.nodeCount_eq, habsent]; rfl⟩

/-- A request for which there is room is granted. -/
theorem exists_allocate? (h : b.Sound) (hroom : Vacant b.blocks b.capacity (2 ^ orderFor size) k) :
    ∃ blk b', b.allocate? size = some (blk, b') := by
  have hpos := Nat.two_pow_pos (orderFor size)
  have hend : k * 2 ^ orderFor size + 2 ^ orderFor size ≤ 2 ^ b.order := by
    rw [← Nat.succ_mul]
    exact hroom.inside
  have hfits : 2 ^ orderFor size ≤ 2 ^ b.order := Nat.le_trans (Nat.le_add_left _ _) hend
  have hle : orderFor size ≤ b.order := (Nat.pow_le_pow_iff_right (by decide)).mp hfits
  by_contra hrefused
  have hnone : b.allocate? size = none := by
    cases hout : b.allocate? size with
    | none => rfl
    | some out => exact absurd ⟨out.1, out.2, hout⟩ hrefused
  unfold allocate? at hnone
  simp only [] at hnone
  rw [if_neg (Nat.not_lt.mpr hle), Option.map_eq_none_iff] at hnone
  cases hroot : b.root.isAbsent with
  | true =>
    rw [if_pos hroot] at hnone
    exact absurd hnone (by simp)
  | false =>
    rw [if_neg (by simp [hroot])] at hnone
    obtain ⟨x, hx, htouch⟩ := Tree.exists_touching h.fits (Nat.dvd_zero _) hroot hnone hle
      (Nat.dvd_mul_left _ k) (Nat.zero_le _) (by rw [Nat.zero_add]; exact hend)
    exact htouch (hroom.missed x hx)

/-- A request that is granted is given room that was vacant. -/
theorem vacant (h : b.Sound) (ha : b.allocate? size = some (blk, b')) :
    blk.size = 2 ^ orderFor size ∧
      ∃ k, blk.start = k * 2 ^ orderFor size ∧ Vacant b.blocks b.capacity (2 ^ orderFor size) k := by
  have made := h.allocated ha
  have hsize : blk.size = 2 ^ orderFor size := congrArg (2 ^ ·) made.block_order
  have hmem : blk ∈ b'.blocks := made.blocks.symm.subset List.mem_cons_self
  obtain ⟨⟨k, hk⟩, hin⟩ := made.sound.block_bounds hmem
  have hapart : (blk :: b.blocks).Pairwise fun x y =>
      x.start + x.size ≤ y.start ∨ y.start + y.size ≤ x.start :=
    (made.blocks.pairwise_iff Or.symm).mp (made.sound.pairwise_blocks.imp Or.inl)
  rw [hsize, Nat.mul_comm] at hk
  refine ⟨hsize, k, hk, ?_, ?_⟩
  · rw [Nat.succ_mul, ← hk, ← hsize, Buddy.capacity, ← made.order_eq]
    exact hin
  · intro x hx
    rw [← hk, ← hsize]
    exact ((List.pairwise_cons.mp hapart).1 x hx).symm

/-- A block that is taken back is the one with its key, whatever else was said of it. -/
theorem freed (h : b.Sound) (hfree : b.free blk = .ok b') :
    ∃ x ∈ b.blocks, x.key = blk.key ∧ Freed b x b' := by
  unfold free at hfree
  split at hfree
  · exact absurd hfree (by simp)
  rename_i found hfind
  split at hfree
  · exact absurd hfree (by simp)
  rename_i root released hprune
  obtain rfl := Except.ok.inj hfree
  obtain ⟨x, hkey, hblocks⟩ := (Tree.prune_pruned h.fits hprune 0).blocks
  have hx : x ∈ b.blocks := hblocks.symm.subset List.mem_cons_self
  obtain ⟨b'', hfree, hfreed⟩ := h.free_of_mem hx
  refine ⟨x, hx, hkey, ?_⟩
  unfold free at hfree
  rw [hkey, hfind, hprune] at hfree
  exact Except.ok.inj hfree ▸ hfreed

end Sound

/-- **A refused request leaves a node table as it is**: no node is made or moved, no slot is taken, no
generation is used up. -/
theorem NodeTable.Represents.allocate?_none {t : NodeTable} {b : Buddy} (h : t.Represents b)
    (hb : b.Sound) {bytes : Nat} (hnone : b.allocate? bytes = none) :
    t.allocate? bytes = some (none, t) := by
  unfold Buddy.allocate? at hnone
  simp only [] at hnone
  unfold NodeTable.allocate?
  simp only []
  by_cases hlt : b.order < orderFor bytes
  · rw [if_pos (h.capacity_lt_iff.mpr hlt)]
  · rw [if_neg hlt, Option.map_eq_none_iff] at hnone
    rw [if_neg (mt h.capacity_lt_iff.mp hlt), h.root]
    cases hroot : b.root with
    | absent =>
      rw [hroot] at hnone
      exact absurd hnone (by simp)
    | node k l r =>
      have hsearch := h.search_found hb (i := k.slot) (by rw [hroot]; rfl) (orderFor bytes)
      rw [hroot, if_neg (by simp)] at hnone
      rw [hroot, hnone] at hsearch
      show ((search (2 ^ orderFor bytes) t.levels t k.slot).bind _) = _
      rw [hsearch]
      rfl

/-! ## Histories -/

/-- A call: a request for some bytes, or any block whatever that is given back. -/
inductive Demand where
  | allocate (size : Nat)
  | free (block : Block)
  deriving Repr, DecidableEq

/-- An arena, and the blocks that it has handed out and that were not given back. -/
structure Usage where
  arena : Buddy
  live : List Block

namespace Usage

/-- One call. -/
def step (u : Usage) : Demand → Usage
  | .allocate size =>
    match u.arena.allocate? size with
    | some (b, arena) => ⟨arena, b :: u.live⟩
    | none => u
  | .free block => ⟨(u.arena.free block).toOption.getD u.arena,
      u.live.filter fun b => b.key ≠ block.key⟩

/-- An arena of `2^order` bytes after a history of calls. -/
def run (order : Nat) (demands : List Demand) : Usage :=
  demands.foldl step ⟨ofOrder order, []⟩

end Usage

namespace NodeTable

/-- One call, if it meets no dangling link. -/
def step? (t : NodeTable) : Demand → Option NodeTable
  | .allocate size => (t.allocate? size).map Prod.snd
  | .free block => (t.free block).map Prod.snd

/-- A table of `2^order` bytes after a history of calls. -/
def run? (order : Nat) (demands : List Demand) : Option NodeTable :=
  demands.foldlM step? (ofOrder order)

end NodeTable

namespace Usage

/-- The live blocks are those of the arena, which a node table represents. -/
structure Sound (u : Usage) (t : NodeTable) (order : Nat) : Prop where
  arena : u.arena.Sound
  order_eq : u.arena.order = order
  live : u.arena.blocks.Perm u.live
  table : t.Represents u.arena

variable {u : Usage} {t : NodeTable} {order : Nat}

theorem sound_ofOrder (order : Nat) : Sound ⟨ofOrder order, []⟩ (NodeTable.ofOrder order) order :=
  ⟨Buddy.sound_ofOrder order, rfl, List.Perm.refl _,
    ⟨rfl, rfl, ⟨rfl, rfl, rfl, fun _ h => absurd h List.not_mem_nil⟩, trivial⟩⟩

/-- The live blocks besides one that is taken back. -/
theorem filter_key_ne {blocks : List Block} {b : Block}
    (hnodup : ((b :: blocks).map Block.key).Nodup) :
    (b :: blocks).filter (fun x => x.key ≠ b.key) = blocks := by
  rw [List.map_cons, List.nodup_cons] at hnodup
  rw [List.filter_cons_of_neg (by simp), List.filter_eq_self]
  intro x hx
  have hne : x.key ≠ b.key := fun heq => hnodup.1 (heq ▸ List.mem_map_of_mem hx)
  simpa using hne

/-- What is refused is the key of no block. -/
theorem Sound.key_ne (h : u.Sound t order) {block : Block} {e : Failure}
    (hrefused : u.arena.free block = .error e) : ∀ b ∈ u.live, b.key ≠ block.key := by
  intro b hb hkey
  obtain ⟨arena, hfree, -⟩ := h.arena.free_of_mem (h.live.symm.subset hb)
  unfold free at hfree hrefused
  rw [hkey] at hfree
  split at hfree
  · exact absurd hfree (by simp)
  rename_i hfind
  rw [hfind] at hrefused
  split at hfree
  · exact absurd hfree (by simp)
  rename_i hprune
  rw [hprune] at hrefused
  exact absurd hrefused (by simp)

theorem Sound.step (h : u.Sound t order) (demand : Demand) :
    ∃ t', t.step? demand = some t' ∧ (u.step demand).Sound t' order := by
  cases demand with
  | allocate size =>
    obtain ⟨t', ht, hrep⟩ := h.table.allocate? h.arena size
    refine ⟨t', by rw [NodeTable.step?, ht]; rfl, ?_⟩
    rw [Usage.step]
    split
    · rename_i b arena ha
      rw [ha] at hrep
      have made := h.arena.allocated ha
      exact ⟨made.sound, made.order_eq.trans h.order_eq, made.blocks.trans (h.live.cons b), hrep⟩
    · rename_i hnone
      rw [hnone] at hrep
      exact ⟨h.arena, h.order_eq, h.live, hrep⟩
  | free block =>
    obtain ⟨t', ht, hrep⟩ := h.table.free h.arena block
    refine ⟨t', by rw [NodeTable.step?, ht]; rfl, ?_⟩
    cases hfree : u.arena.free block with
    | ok arena =>
      rw [hfree] at hrep
      rw [Usage.step, hfree]
      obtain ⟨x, hx, hkey, hfreed⟩ := h.arena.freed hfree
      refine ⟨hfreed.sound, hfreed.order_eq.trans h.order_eq, ?_, hrep⟩
      have hnodup : ((x :: arena.blocks).map Block.key).Nodup :=
        (hfreed.blocks.map _).nodup_iff.mp h.arena.nodup_map_key_blocks
      have hlive := (hfreed.blocks.symm.trans h.live).filter fun b => b.key ≠ block.key
      rw [← hkey, filter_key_ne hnodup] at hlive
      rw [← hkey]
      exact hlive
    | error e =>
      rw [hfree] at hrep
      rw [Usage.step, hfree, List.filter_eq_self.mpr (by simpa using h.key_ne hfree)]
      exact ⟨h.arena, h.order_eq, h.live, hrep⟩

theorem Sound.foldl (h : u.Sound t order) (demands : List Demand) :
    ∃ t', demands.foldlM NodeTable.step? t = some t' ∧
      (demands.foldl Usage.step u).Sound t' order :=
  foldlM_related (R := fun t u => Sound u t order) (fun _ _ demand h => h.step demand) h demands

theorem blockSize?_eq_some_iff {size bytes : Nat} :
    blockSize? size = some bytes ↔ orderFor size < 64 ∧ bytes = 2 ^ orderFor size := by
  unfold blockSize?
  split
  · rename_i hlt
    simp [hlt, eq_comm]
  · rename_i hlt
    simp [hlt]

/-- **An arena grants a request exactly if there is room for it**: if one of the stretches of the
size of the block, counted from the first address on, is inside the arena and free of live blocks.
The block that is handed out is such a stretch.  A request that is refused leaves everything as it
was, also in the table of nodes. -/
theorem run_allocates_iff (order : Nat) (horder : order < 64) (demands : List Demand) (size : Nat) :
    let u := run order demands
    ((∃ b arena, u.arena.allocate? size = some (b, arena)) ↔
      ∃ bytes k, blockSize? size = some bytes ∧ Vacant u.live (2 ^ order) bytes k) ∧
    (∀ b arena, u.arena.allocate? size = some (b, arena) →
      ∃ k, blockSize? size = some b.size ∧ b.start = k * b.size ∧
        Vacant u.live (2 ^ order) b.size k) ∧
    ∃ t, NodeTable.run? order demands = some t ∧ t.Represents u.arena ∧
      (u.arena.allocate? size = none → u.step (.allocate size) = u ∧
        t.allocate? size = some (none, t)) := by
  obtain ⟨t, hrun, hfinal⟩ := (sound_ofOrder order).foldl demands
  have hsound : (run order demands).Sound t order := hfinal
  have hcap : (run order demands).arena.capacity = 2 ^ order := congrArg (2 ^ ·) hsound.order_eq
  have hgranted : ∀ b arena, (run order demands).arena.allocate? size = some (b, arena) →
      ∃ k, blockSize? size = some b.size ∧ b.start = k * b.size ∧
        Vacant (run order demands).live (2 ^ order) b.size k := by
    intro b arena ha
    obtain ⟨hsize, k, hstart, hroom⟩ := hsound.arena.vacant ha
    rw [hcap, ← hsize] at hroom
    have hfits : b.size ≤ 2 ^ order :=
      Nat.le_trans (Nat.le_mul_of_pos_left _ (Nat.succ_pos k)) hroom.inside
    rw [hsize] at hfits
    have hle : orderFor size ≤ order := (Nat.pow_le_pow_iff_right (by decide)).mp hfits
    rw [← hsize] at hstart
    exact ⟨k, blockSize?_eq_some_iff.mpr ⟨Nat.lt_of_le_of_lt hle horder, hsize⟩, hstart,
      hroom.perm hsound.live.symm⟩
  refine ⟨⟨?_, ?_⟩, hgranted, t, hrun, hsound.table, ?_⟩
  · rintro ⟨b, arena, ha⟩
    obtain ⟨k, hsize, -, hroom⟩ := hgranted b arena ha
    exact ⟨b.size, k, hsize, hroom⟩
  · rintro ⟨bytes, k, hsize, hroom⟩
    obtain ⟨-, rfl⟩ := blockSize?_eq_some_iff.mp hsize
    rw [← hcap] at hroom
    exact hsound.arena.exists_allocate? (hroom.perm hsound.live)
  · intro hnone
    refine ⟨?_, hsound.table.allocate?_none hsound.arena hnone⟩
    rw [Usage.step, hnone]

/-- Three blocks fill an arena of eight bytes up to the last two; the middle one is given back, and
there are four free bytes, but not four in one stretch. -/
theorem run_allocates_iff_gap :
    3 < 64 ∧ (run 3 [.allocate 4, .allocate 2, .free ⟨⟨1, 1⟩, 2, 0⟩, .allocate 2,
        .free ⟨⟨3, 3⟩, 1, 4⟩]).live = [⟨⟨1, 4⟩, 1, 6⟩] ∧
      ((∃ b arena, (run 3 [.allocate 4, .allocate 2, .free ⟨⟨1, 1⟩, 2, 0⟩, .allocate 2,
        .free ⟨⟨3, 3⟩, 1, 4⟩]).arena.allocate? 3 = some (b, arena)) ↔
      ∃ bytes k, blockSize? 3 = some bytes ∧
        Vacant [⟨⟨1, 4⟩, 1, 6⟩] (2 ^ 3) bytes k) := by
  refine ⟨by decide, by decide, ?_⟩
  exact (run_allocates_iff 3 (by decide) [.allocate 4, .allocate 2, .free ⟨⟨1, 1⟩, 2, 0⟩,
    .allocate 2, .free ⟨⟨3, 3⟩, 1, 4⟩] 3).1

end Usage
end Buddy
end Uniprocessor
