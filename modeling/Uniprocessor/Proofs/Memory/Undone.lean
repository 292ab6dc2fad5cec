import Uniprocessor.Proofs.Memory.Guise

/-!
# Taking an allocation back

A block that is given back right after it was handed out takes along exactly the nodes that were made
for it: they are the ones on the way down to it that have no other child, and the tree is again what it
was.  Their slots come back in the order they were taken, top down, in front of the others.  So the
slots that come next are those that would have come next before; only the generations have been used up.

* `Supply.Drawn`: slots that are taken one after the other;
* `Tree.spine_undone`, `Tree.Places.undone`: pruning a block that has just been placed;
* `Buddy.Sound.undone`: **an arena from which a block has been taken and given back is the arena before,
  under a guise**, and has the same tree.
-/

namespace Uniprocessor
namespace Buddy

/-- The supply `s'` is what is left of `s` when keys with the given slots have been taken from it, one
after the other. -/
inductive Supply.Drawn : Supply → List Nat → Supply → Prop
  | nothing (s : Supply) : Drawn s [] s
  | key {s s' : Supply} {slots : List Nat} (h : Drawn s.take.2 slots s') :
      Drawn s (s.take.1.slot :: slots) s'

/-- Slots that are released as they were taken come up again as they would have. -/
theorem Supply.Drawn.spare {s s' : Supply} {slots : List Nat} (h : s.Drawn slots s') :
    ∃ n, slots ++ s'.released = s.released ++ List.range' s.slots n ∧ s'.slots = s.slots + n := by
  induction h with
  | nothing s => exact ⟨0, by simp, rfl⟩
  | @key s s' slots hdrawn ih =>
    obtain ⟨n, hreleased, hslots⟩ := ih
    unfold Supply.take at hreleased hslots ⊢
    cases hs : s.released with
    | cons slot rest =>
      rw [hs] at hreleased hslots
      exact ⟨n, congrArg (slot :: ·) hreleased, hslots⟩
    | nil =>
      rw [hs] at hreleased hslots
      refine ⟨n + 1, ?_, ?_⟩
      · rw [List.range'_succ]
        exact congrArg (s.slots :: ·) hreleased
      · rw [hslots]
        exact Nat.add_right_comm s.slots 1 n

namespace Tree

/-- Pruning a block out of a free stretch that was broken into for it leaves nothing. -/
theorem spine_undone (want start depth : Nat) (s : Supply) :
    ∃ slots, prune (spine want start depth s).block.key (spine want start depth s).tree =
        some (absent, slots) ∧
      s.Drawn slots (spine want start depth s).supply := by
  induction depth generalizing s with
  | zero =>
    refine ⟨[s.take.1.slot], ?_, .key (.nothing _)⟩
    rw [spine, prune, if_pos rfl]
    rfl
  | succ depth ih =>
    obtain ⟨slots, hprune, hdrawn⟩ := ih s.take.2
    refine ⟨s.take.1.slot :: slots, ?_, .key hdrawn⟩
    -- the block's node was made later than the one at the top
    have hne : s.take.1 ≠ (spine want start depth s.take.2).block.key := fun heq => by
      have hfresh := (spine_placed want start depth s.take.2).fresh_block
      rw [← heq, Supply.take_generation, Supply.generation_take] at hfresh
      exact Nat.not_succ_le_self _ hfresh
    show prune (spine want start depth s.take.2).block.key
      (node s.take.1 (spine want start depth s.take.2).tree absent) = _
    rw [prune, if_neg hne, hprune]
    rfl

/-- A node of which one half is there stays when the other half is given back. -/
theorem join_of_present {left right : Tree} (h : (left.isAbsent && right.isAbsent) = false)
    (key : Key) (released : List Nat) :
    join key left right released = (node key left right, released) := by
  rw [join, h]
  rfl

/-- Pruning the left half of a node that is not a block. -/
theorem prune_left {key k : Key} {l l' r : Tree} {slots : List Nat} (hne : k ≠ key)
    (hprune : prune key l' = some (l, slots)) (hleaf : (l.isAbsent && r.isAbsent) = false) :
    prune key (node k l' r) = some (node k l r, slots) := by
  rw [prune, if_neg hne, hprune]
  exact congrArg some (join_of_present hleaf k slots)

/-- Pruning the right half of a node that is not a block. -/
theorem prune_right {key k : Key} {l r r' : Tree} {slots : List Nat} (hne : k ≠ key)
    (hnot : key ∉ l.keys) (hprune : prune key r' = some (r, slots))
    (hleaf : (l.isAbsent && r.isAbsent) = false) :
    prune key (node k l r') = some (node k l r, slots) := by
  rw [prune, if_neg hne, prune_eq_none hnot, hprune]
  exact congrArg some (join_of_present hleaf k slots)

/-- **Pruning a block that has just been placed gives back the tree before.** -/
theorem Places.undone {want order start : Nat} {t : Tree} {s : Supply} {p : Placement}
    (h : Places want s t order start p) (hfits : t.Fits order)
    (holder : ∀ k ∈ t.keys, k.generation < s.generation) :
    ∃ slots, prune p.block.key p.tree = some (t, slots) ∧ s.Drawn slots p.supply := by
  -- the block has a key that is not yet in the tree
  have hnew : ∀ key ∈ t.keys, key ≠ p.block.key := fun key hkey heq =>
    absurd (heq ▸ holder key hkey) (Nat.not_lt.mpr (h.placed hfits).fresh_block)
  induction h with
  | free order start hle => exact spine_undone want start (order - want) s
  | left k l r order start p hleaf h ih =>
    have hl : ∀ key ∈ l.keys, key ∈ (node k l r).keys := fun key hkey =>
      List.mem_cons_of_mem _ (List.mem_append_left _ hkey)
    obtain ⟨slots, hprune, hdrawn⟩ := ih hfits.1 (fun key hkey => holder key (hl key hkey))
      fun key hkey => hnew key (hl key hkey)
    exact ⟨slots, prune_left (hnew k List.mem_cons_self) hprune hleaf, hdrawn⟩
  | right k l r order start p hleaf h ih =>
    have hl : ∀ key ∈ l.keys, key ∈ (node k l r).keys := fun key hkey =>
      List.mem_cons_of_mem _ (List.mem_append_left _ hkey)
    have hr : ∀ key ∈ r.keys, key ∈ (node k l r).keys := fun key hkey =>
      List.mem_cons_of_mem _ (List.mem_append_right _ hkey)
    obtain ⟨slots, hprune, hdrawn⟩ := ih hfits.2 (fun key hkey => holder key (hr key hkey))
      fun key hkey => hnew key (hr key hkey)
    exact ⟨slots, prune_right (hnew k List.mem_cons_self) (fun hmem => hnew _ (hl _ hmem) rfl) hprune
      hleaf, hdrawn⟩

end Tree

/-- The guise of an arena from which `b'` has come by taking blocks and giving them back. -/
def guiseOf (b b' : Buddy) : Guise :=
  ⟨0, b.supply.generation, b'.supply.generation - b.supply.generation⟩

/-- **An allocation can be taken back without a trace**: the tree is what it was, and the arena behaves
as it would have. -/
theorem Sound.undone {b b₁ b₂ : Buddy} {size : Nat} {blk : Block} (h : b.Sound)
    (ha : b.allocate? size = some (blk, b₁)) (hfree : b₁.free blk = .ok b₂) :
    b₂.root = b.root ∧ b₂.order = b.order ∧ b.Guised (guiseOf b b₂) b₂ := by
  have made := h.allocated ha
  obtain ⟨slots, hprune, hdrawn⟩ : ∃ slots, Tree.prune blk.key b₁.root = some (b.root, slots) ∧
      b.supply.Drawn slots b₁.supply := by
    obtain ⟨p, hp, rfl, rfl⟩ := exists_places_of_allocate? ha
    exact hp.undone h.fits h.owns.older
  have hafter : b₂ = { b₁ with root := b.root, supply := b₁.supply.release slots } := by
    unfold free at hfree
    rw [hprune] at hfree
    split at hfree
    · exact absurd hfree (by simp)
    · exact (Except.ok.inj hfree).symm
  have hgeneration : b₂.supply.generation = b₁.supply.generation := by
    rw [hafter]
    rfl
  have hroot : b₂.root = b.root := by rw [hafter]
  have horder : b₂.order = b.order := by
    rw [hafter]
    exact made.order_eq
  refine ⟨hroot, horder, horder, ?_, Nat.le_refl _, ?_, ?_⟩
  · rw [hroot, Tree.under_of_older h.owns.older]
  · have hle := made.generation_le
    show _ = if b.supply.generation < b.supply.generation then _ else
      b.supply.generation + (b₂.supply.generation - b.supply.generation)
    rw [if_neg (Nat.lt_irrefl _)]
    omega
  · rw [hafter]
    exact hdrawn.spare

end Buddy
end Uniprocessor
