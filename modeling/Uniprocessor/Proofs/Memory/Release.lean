import Uniprocessor.Proofs.Memory.Ledger
import Uniprocessor.Proofs.Memory.Vacancy

/-!
# Giving back anything

Nothing keeps a caller from giving back a block of another arena, or one that it has given back
before.  All that is looked at is the key: whether the slot holds a node of that generation, and
whether the node has no children.

That is enough.  Generations never repeat, so a key that was issued once is not the key of any later
node, however often its slot is used again.  And a node that is a block stays one until it is given
back, since a place is only looked for where there are children already or nothing at all.  So a
block that was issued can be given back once, at any time, and never again.

* `Releases`: what giving back a block does, for any arena and any block;
* `Ledger.mem_live_foldl`: **an issued block is live until it is given back**;
* `Ledger.run_releases`: any block in any state, and the blocks that were issued in every later one.
-/

namespace Uniprocessor
namespace Buddy

/-- What is left of a list in strict order if all that is known is that one member has gone. -/
theorem eq_erase_of_perm {α : Type} [DecidableEq α] {order : α → α → Prop} {l l' : List α} {x : α}
    (hirrefl : ∀ a b, order a b → ¬ order b a) (hl : l.Pairwise order) (hl' : l'.Pairwise order)
    (hperm : l.Perm (x :: l')) : l' = l.erase x := by
  have hrest : l'.Perm (l.erase x) := by
    have herase := hperm.symm.erase x
    rwa [List.erase_cons_head] at herase
  exact hrest.eq_of_pairwise (fun a b _ _ hab hba => absurd hba (hirrefl a b hab)) hl'
    (hl.sublist List.erase_sublist)

namespace Sound

variable {b b' : Buddy} {blk : Block}

/-- A block that is given back is taken out of the list of the blocks in use. -/
theorem blocks_freed (h : b.Sound) (hfreed : Freed b blk b') : b'.blocks = b.blocks.erase blk := by
  refine eq_erase_of_perm (fun x y hxy hyx => ?_) h.pairwise_blocks hfreed.sound.pairwise_blocks
    hfreed.blocks
  have hpos := x.size_pos
  omega

/-- The ranges in use are listed in the order of their starts. -/
theorem pairwise_ranges (h : b.Sound) : b.ranges.Pairwise fun x y => x.start < y.start := by
  refine List.pairwise_map.mpr (h.pairwise_blocks.imp fun {x y} hxy => ?_)
  have hpos := x.size_pos
  show x.start < y.start
  omega

/-- Its range is taken out of the list of the ranges in use. -/
theorem ranges_freed (h : b.Sound) (hfreed : Freed b blk b') :
    b'.ranges = b.ranges.erase blk.range :=
  eq_erase_of_perm (fun _ _ hxy => Nat.lt_asymm hxy) h.pairwise_ranges
    hfreed.sound.pairwise_ranges (hfreed.blocks.map Block.range)

end Sound

/-! ## Any block -/

/-- What giving back a block does, to an arena and to a table that holds it.  There always is a
result: no dangling link is met, and the walk up to the last node with another child ends. -/
structure Releases (b : Buddy) (t : NodeTable) (block : Block) : Prop where
  /-- The table lists the ranges in use. -/
  listed : t.ranges? = some b.ranges
  /-- It is taken back exactly if its slot holds a childless node of its generation. -/
  ok_iff : (∃ b', b.free block = .ok b') ↔
    ∃ c, t.cell? block.key.slot = some c ∧ c.generation = block.key.generation ∧ c.isLeaf = true
  /-- Then the block of that node goes, and all others stay. -/
  ok : ∀ b', b.free block = .ok b' → ∃ x ∈ b.blocks, x.key = block.key ∧
    b'.blocks = b.blocks.erase x ∧ ∃ t', t.free block = some (.ok (), t') ∧ t'.Represents b' ∧
      t'.ranges? = some (b.ranges.erase x.range)
  /-- Otherwise nothing happens. -/
  error : ∀ e, b.free block = .error e → t.free block = some (.error e, t)

theorem NodeTable.Represents.free_ok_iff {t : NodeTable} {b : Buddy} (h : t.Represents b)
    (hb : b.Sound) (block : Block) :
    (∃ b', b.free block = .ok b') ↔ ∃ c, t.cell? block.key.slot = some c ∧
      c.generation = block.key.generation ∧ c.isLeaf = true := by
  constructor
  · rintro ⟨b', hfree⟩
    obtain ⟨x, hx, hkey, -⟩ := hb.freed hfree
    obtain ⟨c, hc, hgeneration, hleaf⟩ :=
      cell?_of_mem_keys h.held hb.owns.nodup (hb.key_mem_keys hx)
    obtain ⟨_, _, hprune⟩ := Tree.exists_prune_of_mem_blocks hb.fits hb.owns.nodup hx
    rw [hkey] at hc hgeneration
    exact ⟨c, hc, hgeneration, by rw [hleaf, hprune]; rfl⟩
  · rintro ⟨c, hc, hgeneration, hleaf⟩
    obtain ⟨key, hkey, hslot, hsame⟩ := h.exists_key hb hc
    -- the node in the slot is the one that the key belongs to
    have heq : key = block.key := by
      cases key
      cases hk : block.key
      simp_all
    obtain ⟨c', hc', -, hleaf'⟩ := cell?_of_mem_keys h.held hb.owns.nodup (heq ▸ hkey)
    obtain rfl := Option.some.inj (hc.symm.trans hc')
    obtain ⟨⟨root, released⟩, hprune⟩ := Option.isSome_iff_exists.mp (hleaf'.symm.trans hleaf)
    have hfound : Tree.find? block.key b.root ≠ none := fun hnone =>
      Tree.find?_eq_none_iff.mp hnone (heq ▸ hkey)
    obtain ⟨found, hfind⟩ := Option.ne_none_iff_exists'.mp hfound
    exact ⟨_, by rw [Buddy.free, hfind, hprune]⟩

/-- A table that refuses a block stays as it is. -/
theorem NodeTable.free_error {t t' : NodeTable} {block : Block} {e : Failure}
    (h : t.free block = some (.error e, t')) : t' = t := by
  unfold NodeTable.free at h
  split at h
  · exact (congrArg Prod.snd (Option.some.inj h)).symm
  · split at h
    · obtain ⟨_, -, hpair⟩ := Option.map_eq_some_iff.mp h
      exact absurd (congrArg Prod.fst hpair) (by simp)
    · exact (congrArg Prod.snd (Option.some.inj h)).symm

/-- **Whatever is given back**, it is either a block in use, which goes, or refused. -/
theorem Sound.releases {b : Buddy} (hb : b.Sound) {t : NodeTable} (h : t.Represents b)
    (block : Block) : Releases b t block := by
  obtain ⟨t', ht, hafter⟩ := h.free hb block
  refine ⟨h.ranges? hb, h.free_ok_iff hb block, fun b' hfree => ?_, fun e hfree => ?_⟩
  · obtain ⟨x, hx, hkey, freed⟩ := hb.freed hfree
    rw [hfree] at ht hafter
    refine ⟨x, hx, hkey, hb.blocks_freed freed, t', ht, hafter, ?_⟩
    rw [hafter.ranges? freed.sound, ← hb.ranges_freed freed]
    rfl
  · rw [hfree] at ht
    obtain rfl := NodeTable.free_error ht
    exact ht

/-! ## Issued blocks -/

namespace Ledger

/-- Every issued block is of a later generation than those issued before it. -/
def Dated (l : Ledger) : Prop :=
  l.issued.Pairwise fun g g' => g.block.key.generation < g'.block.key.generation

variable {l : Ledger} {order i : Nat} {g : Grant}

theorem Dated.step (hdated : l.Dated) (h : l.Sound order) (call : Call) : (l.step call).Dated := by
  cases call with
  | allocate size =>
    rw [Ledger.step, Ledger.allocate]
    split
    · rename_i b arena ha
      refine List.pairwise_append.mpr ⟨hdated, List.pairwise_singleton _ _, fun x hx y hy => ?_⟩
      obtain rfl := List.mem_singleton.mp hy
      exact Nat.lt_of_lt_of_le (h.older x hx) (h.arena.allocated ha).fresh_block
    · exact hdated
  | free j =>
    rw [Ledger.step]
    split
    · exact hdated
    · exact hdated

/-- No block is issued twice. -/
theorem Dated.index_eq (hdated : l.Dated) {j : Nat} {g' : Grant} (hi : l.issued[i]? = some g)
    (hj : l.issued[j]? = some g') (hsame : g.block = g'.block) : i = j := by
  obtain ⟨hilt, rfl⟩ := List.getElem?_eq_some_iff.mp hi
  obtain ⟨hjlt, rfl⟩ := List.getElem?_eq_some_iff.mp hj
  have hordered := List.pairwise_iff_getElem.mp hdated
  rcases Nat.lt_trichotomy i j with hlt | heq | hlt
  · exact absurd (hordered i j hilt hjlt hlt) (by rw [hsame]; exact Nat.lt_irrefl _)
  · exact heq
  · exact absurd (hordered j i hjlt hilt hlt) (by rw [hsame]; exact Nat.lt_irrefl _)

/-- What was issued stays in the books. -/
theorem issued_step (hi : l.issued[i]? = some g) (call : Call) :
    (l.step call).issued[i]? = some g := by
  cases call with
  | allocate size =>
    rw [Ledger.step, Ledger.allocate]
    split
    · rw [List.getElem?_append_left (List.getElem?_eq_some_iff.mp hi).1]
      exact hi
    · exact hi
  | free j =>
    rw [Ledger.step]
    split
    · exact hi
    · exact hi

/-- **Only giving it back makes an issued block dead**, and nothing brings it back. -/
theorem mem_live_step (h : l.Sound order) (hdated : l.Dated) (hi : l.issued[i]? = some g)
    (call : Call) : g.block ∈ (l.step call).live ↔ g.block ∈ l.live ∧ call ≠ .free i := by
  have hmem : g ∈ l.issued := List.mem_of_getElem? hi
  cases call with
  | allocate size =>
    rw [Ledger.step, Ledger.allocate]
    split
    · rename_i b arena ha
      -- the new block is of a later generation
      have hne : g.block ≠ b := by
        rintro rfl
        exact Nat.not_lt.mpr (h.arena.allocated ha).fresh_block (h.older g hmem)
      simp [hne]
    · simp
  | free j =>
    rw [Ledger.step]
    split
    · rename_i g' hj
      have hnodup : l.live.Nodup := h.blocks.nodup_iff.mp h.arena.nodup_blocks
      show g.block ∈ l.live.erase g'.block ↔ _
      rw [hnodup.mem_erase_iff, and_comm]
      refine and_congr_right fun _ => not_congr ⟨fun hsame => ?_, fun hcall => ?_⟩
      · rw [hdated.index_eq hi hj hsame]
      · obtain rfl := Call.free.inj hcall
        exact congrArg Grant.block (Option.some.inj (hi.symm.trans hj))
    · rename_i hj
      have hne : Call.free j ≠ .free i := by
        rintro hcall
        rw [Call.free.inj hcall, hi] at hj
        exact absurd hj (by simp)
      simp [hne]

/-- **An issued block is live until it is given back.** -/
theorem mem_live_foldl (h : l.Sound order) (hdated : l.Dated) (hi : l.issued[i]? = some g)
    (calls : List Call) :
    (calls.foldl Ledger.step l).issued[i]? = some g ∧
      (g.block ∈ (calls.foldl Ledger.step l).live ↔ g.block ∈ l.live ∧ .free i ∉ calls) := by
  induction calls generalizing l with
  | nil => exact ⟨hi, by simp⟩
  | cons call calls ih =>
    obtain ⟨hissued, hlive⟩ := ih (h.step call) (hdated.step h call) (issued_step hi call)
    refine ⟨hissued, ?_⟩
    rw [List.foldl_cons, hlive, mem_live_step h hdated hi, List.mem_cons, not_or, and_assoc,
      ne_comm]

theorem dated_foldl (h : l.Sound order) (hdated : l.Dated) (calls : List Call) :
    (calls.foldl Ledger.step l).Dated := by
  induction calls generalizing l with
  | nil => exact hdated
  | cons call calls ih => exact ih (h.step call) (hdated.step h call)

theorem dated_run (order : Nat) (calls : List Call) : (run order calls).Dated :=
  dated_foldl (sound_ofOrder order) List.Pairwise.nil calls

/-- A block in use is taken back, and its range goes; one that is not live is refused. -/
theorem Sound.free_of_issued (h : l.Sound order) (hg : g ∈ l.issued) :
    if g.block ∈ l.live then
      g.block ∈ l.arena.blocks ∧ ∃ arena, l.arena.free g.block = .ok arena ∧
        arena.ranges = l.arena.ranges.erase g.block.range
    else l.arena.free g.block = .error (.memory (.notAllocated g.block.start g.block.last)) := by
  split
  · rename_i hlive
    have hmem := h.blocks.symm.subset hlive
    obtain ⟨arena, hfree, freed⟩ := h.arena.free_of_mem hmem
    exact ⟨hmem, arena, hfree, h.arena.ranges_freed freed⟩
  · rename_i hdead
    exact free_of_notMem_keys (h.gone g hg hdead)

/-- **Any block may be given back in any state**: it is taken back exactly if its slot holds a
childless node of its generation, which alone then goes; or nothing happens.  **And a block that was
issued is taken back once**, whenever that is, and refused ever after, as long as only issued blocks
are given back. -/
theorem run_releases (order : Nat) :
    (∀ demands block, ∃ t, NodeTable.run? order demands = some t ∧
      t.Represents (Usage.run order demands).arena ∧
      Releases (Usage.run order demands).arena t block) ∧
    ∀ before size b arena, (run order before).arena.allocate? size = some (b, arena) →
      ∀ between,
        let i := (run order before).issued.length
        let l := run order (before ++ .allocate size :: between)
        l.issued[i]? = some ⟨size, b⟩ ∧
          if .free i ∈ between then
            l.arena.free b = .error (.memory (.notAllocated b.start b.last))
          else b ∈ l.arena.blocks ∧ ∃ arena, l.arena.free b = .ok arena ∧
            arena.ranges = l.arena.ranges.erase b.range := by
  refine ⟨fun demands block => ?_, fun before size b arena ha between => ?_⟩
  · obtain ⟨t, hrun, hsound⟩ := (Usage.sound_ofOrder order).foldl demands
    exact ⟨t, hrun, hsound.table, hsound.arena.releases hsound.table block⟩
  · intro i l
    have hbefore := sound_run order before
    have hmade : (run order before).step (.allocate size) =
        ⟨arena, (run order before).issued ++ [⟨size, b⟩], b :: (run order before).live⟩ := by
      rw [Ledger.step, Ledger.allocate, ha]
    have hl : l = between.foldl Ledger.step ((run order before).step (.allocate size)) := by
      show run order (before ++ .allocate size :: between) = _
      rw [run, List.foldl_append]
      rfl
    have hissued : ((run order before).step (.allocate size)).issued[i]? = some ⟨size, b⟩ := by
      rw [hmade]
      exact List.getElem?_concat_length
    have hlive : b ∈ ((run order before).step (.allocate size)).live := by
      rw [hmade]
      exact List.mem_cons_self
    obtain ⟨hstill, hmem⟩ := mem_live_foldl (hbefore.step (.allocate size))
      ((dated_run order before).step hbefore _) hissued between
    rw [← hl] at hstill hmem
    refine ⟨hstill, ?_⟩
    have hreleased := (sound_run order (before ++ .allocate size :: between)).free_of_issued
      (List.mem_of_getElem? hstill)
    by_cases hfreed : .free i ∈ between
    · rw [if_pos hfreed]
      rwa [if_neg fun hin => (hmem.mp hin).2 hfreed] at hreleased
    · rw [if_neg hfreed]
      rwa [if_pos (hmem.mpr ⟨hlive, hfreed⟩)] at hreleased

/-- A block of two bytes is issued.  If it is given back, the next block gets its slot, but the old
one is refused even so; if others are given back instead, it can still be given back. -/
theorem run_releases_reused :
    (run 3 [.allocate 4]).arena.allocate? 2 =
        some (⟨⟨3, 3⟩, 1, 4⟩, (run 3 [.allocate 4, .allocate 2]).arena) ∧
      (run 3 [.allocate 4, .allocate 2, .free 1, .allocate 2]).arena.blocks =
        [⟨⟨1, 1⟩, 2, 0⟩, ⟨⟨3, 5⟩, 1, 4⟩] ∧
      (run 3 [.allocate 4, .allocate 2, .free 1, .allocate 2]).arena.free ⟨⟨3, 3⟩, 1, 4⟩ =
        .error (.memory (.notAllocated 4 5)) ∧
      ∃ arena, (run 3 [.allocate 4, .allocate 2, .allocate 1, .free 2, .free 0]).arena.free
          ⟨⟨3, 3⟩, 1, 4⟩ = .ok arena ∧ arena.ranges = [] := by
  have hissued : (run 3 [.allocate 4]).arena.allocate? 2 =
      some (⟨⟨3, 3⟩, 1, 4⟩, (run 3 [.allocate 4, .allocate 2]).arena) := by decide
  have hagain := ((run_releases 3).2 [.allocate 4] 2 _ _ hissued [.free 1, .allocate 2]).2
  have hlater := ((run_releases 3).2 [.allocate 4] 2 _ _ hissued [.allocate 1, .free 2, .free 0]).2
  rw [if_pos (by decide)] at hagain
  rw [if_neg (by decide)] at hlater
  obtain ⟨-, arena, hfree, hranges⟩ := hlater
  exact ⟨hissued, by decide, hagain, arena, hfree, hranges.trans (by decide)⟩

end Ledger
end Buddy
end Uniprocessor
