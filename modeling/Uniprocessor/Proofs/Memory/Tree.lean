import Mathlib.Data.List.Nodup
import Mathlib.Data.List.Perm.Basic
import Uniprocessor.Memory.Buddy

/-!
# Halving trees

What placing a block into a halving tree and taking one out do to the two things that can be read
off a tree: its blocks, in address order, and the keys of its nodes.

A tree of a node of order `n` must not be deeper than `n` halvings.  `Tree.Fits` says so; it is all
that the geometry of the blocks depends on.  The keys are kept apart from the geometry: `Supply.Owns`
says that the slots of some keys and the released slots are all the slots there are, each once, and
that the keys are older than the next one.

* `Tree.fits_induction`: induction on a tree as its blocks are read off.
* `Tree.mem_blocks_bounds`, `Tree.pairwise_blocks`, `Tree.sum_size_blocks_le`: blocks are aligned,
  lie inside the node, and follow one another without overlap.
* `Tree.Places`: where a block is placed in a tree;
* `Tree.spine_placed`, `Tree.Places.placed`: a placement adds one block of the wanted order, with a new
  key, and nothing else changes.
* `Tree.prune_pruned`, `Tree.exists_prune_of_mem_blocks`: pruning takes out the block with a key, and
  every block can be pruned.
-/

namespace Uniprocessor
namespace Buddy

/-! ## Supplies of keys -/

namespace Supply

/-- The slots of the given keys and the released ones are all slots, each once, and every key was
given out before the next one. -/
structure Owns (s : Supply) (keys : List Key) : Prop where
  slots : (keys.map Key.slot ++ s.released).Perm (List.range s.slots)
  older : ∀ k ∈ keys, k.generation < s.generation

theorem Owns.perm {s : Supply} {ks ks' : List Key} (h : s.Owns ks) (hp : ks'.Perm ks) :
    s.Owns ks' := by
  refine ⟨?_, fun k hk => h.older k (hp.subset hk)⟩
  exact ((hp.map Key.slot).append_right s.released).trans h.slots

theorem owns_nil_new : Owns ⟨[], 0, 0⟩ [] :=
  ⟨List.Perm.refl _, by simp⟩

@[simp] theorem generation_take (s : Supply) : s.take.2.generation = s.generation + 1 := by
  unfold take
  split <;> rfl

@[simp] theorem take_generation (s : Supply) : s.take.1.generation = s.generation := by
  unfold take
  split <;> rfl

/-- The key that is taken is owned from then on. -/
theorem Owns.take {s : Supply} {ks : List Key} (h : s.Owns ks) :
    s.take.2.Owns (s.take.1 :: ks) := by
  constructor
  · have hslots := h.slots
    unfold Supply.take
    split
    · rename_i slot rest hrel
      rw [hrel] at hslots
      rw [List.map_cons, List.cons_append]
      exact List.perm_middle.symm.trans hslots
    · rename_i hrel
      rw [hrel, List.append_nil] at hslots
      rw [List.range_succ, List.map_cons, hrel, List.append_nil]
      exact (List.perm_append_singleton _ _).symm.trans (hslots.append_right _)
  · intro k hk
    rw [generation_take]
    rcases List.mem_cons.mp hk with rfl | hk
    · rw [take_generation]
      exact Nat.lt_succ_self _
    · exact Nat.lt_succ_of_lt (h.older k hk)

/-- Keys that are given back go to the released slots. -/
theorem Owns.release {s : Supply} {gone ks : List Key} (h : s.Owns (gone ++ ks)) :
    (s.release (gone.map Key.slot)).Owns ks := by
  refine ⟨?_, fun k hk => h.older k (List.mem_append_right gone hk)⟩
  have hslots := h.slots
  rw [List.map_append, List.append_assoc] at hslots
  refine List.Perm.trans ?_ hslots
  show (ks.map Key.slot ++ (gone.map Key.slot ++ s.released)).Perm _
  rw [← List.append_assoc, ← List.append_assoc]
  exact List.perm_append_comm.append_right _

/-- No two owned keys have the same slot. -/
theorem Owns.nodup_slots {s : Supply} {ks : List Key} (h : s.Owns ks) :
    (ks.map Key.slot).Nodup :=
  ((h.slots.nodup_iff.mpr List.nodup_range).sublist (List.sublist_append_left _ _))

theorem Owns.nodup {s : Supply} {ks : List Key} (h : s.Owns ks) : ks.Nodup :=
  h.nodup_slots.of_map Key.slot

end Supply

theorem Block.size_pos (b : Block) : 0 < b.size :=
  Nat.two_pow_pos b.order

namespace Tree

/-! ## Keys and depth -/

/-- The keys of the nodes of a tree, a node before what is below it. -/
def keys : Tree → List Key
  | absent => []
  | node k l r => k :: (l.keys ++ r.keys)

/-- Whether a tree is no deeper than a node of the given order can be halved. -/
def Fits : Tree → Nat → Prop
  | absent, _ => True
  | node _ l r, 0 => l = absent ∧ r = absent
  | node _ l r, order + 1 => l.Fits order ∧ r.Fits order

@[simp] theorem keys_absent : absent.keys = [] := rfl

@[simp] theorem keys_node (k : Key) (l r : Tree) :
    (node k l r).keys = k :: (l.keys ++ r.keys) := rfl

@[simp] theorem fits_absent (order : Nat) : absent.Fits order := trivial

@[simp] theorem isAbsent_absent : absent.isAbsent = true := rfl

@[simp] theorem isAbsent_node (k : Key) (l r : Tree) : (node k l r).isAbsent = false := rfl

/-- The keys of a node, those of the left half first. -/
theorem perm_keys_left (k : Key) (l r : Tree) (ks : List Key) :
    (l.keys ++ (k :: (r.keys ++ ks))).Perm ((node k l r).keys ++ ks) := by
  rw [keys_node, List.cons_append, List.append_assoc]
  exact List.perm_middle

/-- The keys of a node, those of the right half first. -/
theorem perm_keys_right (k : Key) (l r : Tree) (ks : List Key) :
    (r.keys ++ (k :: (l.keys ++ ks))).Perm ((node k l r).keys ++ ks) := by
  rw [keys_node, List.cons_append, List.append_assoc]
  refine List.perm_middle.trans (List.Perm.cons _ ?_)
  rw [← List.append_assoc, ← List.append_assoc]
  exact List.perm_append_comm.append_right _

theorem isAbsent_iff {t : Tree} : t.isAbsent = true ↔ t = absent := by
  cases t <;> simp

theorem eq_absent_of_isAbsent_and {l r : Tree} (h : (l.isAbsent && r.isAbsent) = true) :
    l = absent ∧ r = absent := by
  rw [Bool.and_eq_true, isAbsent_iff, isAbsent_iff] at h
  exact h

theorem fits_leaf (k : Key) (order : Nat) : (node k absent absent).Fits order := by
  cases order with
  | zero => exact ⟨rfl, rfl⟩
  | succ n => exact ⟨trivial, trivial⟩

/-- Induction on a tree as its blocks are read off: there is nothing, or a block, or a node with
something below it. -/
@[elab_as_elim]
theorem fits_induction {motive : (t : Tree) → (order : Nat) → t.Fits order → Prop}
    (absent : ∀ order, motive absent order trivial)
    (leaf : ∀ k order, motive (node k Tree.absent Tree.absent) order (fits_leaf k order))
    (inner : ∀ k l r order (hl : Fits l order) (hr : Fits r order),
      (l.isAbsent && r.isAbsent) = false → motive l order hl → motive r order hr →
      motive (node k l r) (order + 1) ⟨hl, hr⟩)
    (t : Tree) (order : Nat) (hfits : t.Fits order) : motive t order hfits := by
  induction t generalizing order with
  | absent => exact absent order
  | node k l r ihl ihr =>
    cases hleaf : l.isAbsent && r.isAbsent with
    | true =>
      obtain ⟨rfl, rfl⟩ := eq_absent_of_isAbsent_and hleaf
      exact leaf k order
    | false =>
      cases order with
      | zero =>
        obtain ⟨rfl, rfl⟩ := hfits
        exact absurd hleaf (by simp)
      | succ n => exact inner k l r n hfits.1 hfits.2 hleaf (ihl n hfits.1) (ihr n hfits.2)

/-! ## Blocks and where they lie -/

@[simp] theorem blocks_absent (order start : Nat) : absent.blocks order start = [] := rfl

@[simp] theorem blocks_leaf (k : Key) (order start : Nat) :
    (node k absent absent).blocks order start = [⟨k, order, start⟩] := rfl

theorem blocks_node {k : Key} {l r : Tree} (h : (l.isAbsent && r.isAbsent) = false)
    (order start : Nat) :
    (node k l r).blocks (order + 1) start =
      l.blocks order start ++ r.blocks order (start + 2 ^ order) := by
  rw [blocks, h]
  rfl

/-- What is below a node, whether or not it is a block, when the node itself is not counted. -/
theorem blocks_join (k : Key) (l r : Tree) (released : List Nat) (order start : Nat) :
    (join k l r released).1.blocks (order + 1) start =
      l.blocks order start ++ r.blocks order (start + 2 ^ order) := by
  unfold join
  cases h : l.isAbsent && r.isAbsent with
  | true =>
    obtain ⟨rfl, rfl⟩ := eq_absent_of_isAbsent_and h
    rfl
  | false => exact blocks_node h order start

/-- **Blocks are aligned and lie inside the node.** -/
theorem mem_blocks_bounds {t : Tree} {order start : Nat} (hfits : t.Fits order)
    (halign : 2 ^ order ∣ start) {b : Block} (hb : b ∈ t.blocks order start) :
    b.order ≤ order ∧ b.size ∣ b.start ∧ start ≤ b.start ∧
      b.start + b.size ≤ start + 2 ^ order := by
  induction t, order, hfits using fits_induction generalizing start with
  | absent order => exact absurd hb List.not_mem_nil
  | leaf k order =>
    rw [blocks_leaf, List.mem_singleton] at hb
    subst hb
    exact ⟨Nat.le_refl _, halign, Nat.le_refl _, Nat.le_refl _⟩
  | inner k l r n hl hr hleaf ihl ihr =>
    have hhalf : 2 ^ n ∣ start := Nat.dvd_trans (Nat.pow_dvd_pow 2 (Nat.le_succ n)) halign
    have hpow : 2 ^ (n + 1) = 2 ^ n + 2 ^ n := by rw [Nat.pow_succ]; omega
    rw [blocks_node hleaf, List.mem_append] at hb
    rcases hb with hb | hb
    · obtain ⟨ho, hd, hlo, hhi⟩ := ihl hhalf hb
      exact ⟨by omega, hd, hlo, by omega⟩
    · obtain ⟨ho, hd, hlo, hhi⟩ := ihr (Nat.dvd_add hhalf (Nat.dvd_refl _)) hb
      exact ⟨by omega, hd, by omega, by omega⟩

/-- **Each block ends before the next one starts.** -/
theorem pairwise_blocks {t : Tree} {order start : Nat} (hfits : t.Fits order)
    (halign : 2 ^ order ∣ start) :
    (t.blocks order start).Pairwise fun a b => a.start + a.size ≤ b.start := by
  induction t, order, hfits using fits_induction generalizing start with
  | absent order => exact List.Pairwise.nil
  | leaf k order => exact List.pairwise_singleton _ _
  | inner k l r n hl hr hleaf ihl ihr =>
    have hhalf : 2 ^ n ∣ start := Nat.dvd_trans (Nat.pow_dvd_pow 2 (Nat.le_succ n)) halign
    have hright : 2 ^ n ∣ start + 2 ^ n := Nat.dvd_add hhalf (Nat.dvd_refl _)
    rw [blocks_node hleaf, List.pairwise_append]
    refine ⟨ihl hhalf, ihr hright, ?_⟩
    intro a ha b hb
    have hend := (mem_blocks_bounds hl hhalf ha).2.2.2
    have hbegin := (mem_blocks_bounds hr hright hb).2.2.1
    omega

/-- The blocks of a node fill no more than it covers. -/
theorem sum_size_blocks_le {t : Tree} {order : Nat} (hfits : t.Fits order) (start : Nat) :
    ((t.blocks order start).map Block.size).sum ≤ 2 ^ order := by
  induction t, order, hfits using fits_induction generalizing start with
  | absent order => exact Nat.zero_le _
  | leaf k order =>
    rw [blocks_leaf, List.map_singleton, List.sum_singleton]
    exact Nat.le_refl _
  | inner k l r n hl hr hleaf ihl ihr =>
    have hleft := ihl start
    have hright := ihr (start + 2 ^ n)
    rw [blocks_node hleaf, List.map_append, List.sum_append, Nat.pow_succ]
    omega

/-! ## Placing -/

/-- What a placement does to a tree `t` of a node of the given order: it keeps the depth, adds one
block of the wanted order, and takes new keys from the supply for the nodes it adds. -/
structure Placed (want : Nat) (t : Tree) (order start : Nat) (supply : Supply) (p : Placement) :
    Prop where
  fits : p.tree.Fits order
  present : p.tree.isAbsent = false
  blocks : (p.tree.blocks order start).Perm (p.block :: t.blocks order start)
  order_eq : p.block.order = want
  owns : ∀ ks, supply.Owns (t.keys ++ ks) → p.supply.Owns (p.tree.keys ++ ks)
  fresh : ∀ k ∈ p.tree.keys, k ∈ t.keys ∨ supply.generation ≤ k.generation
  fresh_block : supply.generation ≤ p.block.key.generation
  generation_le : supply.generation ≤ p.supply.generation

/-- Breaking into a free stretch places a block at its left end. -/
theorem spine_placed (want start depth : Nat) (supply : Supply) :
    Placed want absent (want + depth) start supply (spine want start depth supply) := by
  induction depth generalizing supply with
  | zero =>
    refine ⟨fits_leaf _ _, rfl, List.Perm.refl _, rfl, fun ks h => h.take, ?_, ?_, ?_⟩
    · intro k hk
      rw [spine, keys_node, keys_absent, List.append_nil, List.mem_singleton] at hk
      rw [hk, Supply.take_generation]
      exact Or.inr (Nat.le_refl _)
    · exact Nat.le_of_eq (Supply.take_generation supply).symm
    · show supply.generation ≤ supply.take.2.generation
      rw [Supply.generation_take]
      exact Nat.le_succ _
  | succ depth ih =>
    have below := ih supply.take.2
    have hgen := Supply.generation_take supply
    refine ⟨⟨below.fits, trivial⟩, rfl, ?_, below.order_eq, ?_, ?_, ?_, ?_⟩
    · have hleaf : ((spine want start depth supply.take.2).tree.isAbsent &&
          absent.isAbsent) = false := by rw [below.present]; rfl
      show (Tree.blocks _ (want + depth + 1) start).Perm _
      rw [spine, blocks_node hleaf, blocks_absent, List.append_nil]
      exact below.blocks
    · intro ks h
      have htake : supply.take.2.Owns (absent.keys ++ (supply.take.1 :: ks)) := h.take
      refine (below.owns _ htake).perm ?_
      rw [spine, keys_node, keys_absent, List.append_nil]
      exact List.perm_middle.symm
    · intro k hk
      rw [spine, keys_node, keys_absent, List.append_nil, List.mem_cons] at hk
      rcases hk with rfl | hk
      · rw [Supply.take_generation]
        exact Or.inr (Nat.le_refl _)
      · rcases below.fresh k hk with h | h
        · exact absurd h List.not_mem_nil
        · exact Or.inr (by omega)
    · have h := below.fresh_block
      show supply.generation ≤ (spine want start depth supply.take.2).block.key.generation
      omega
    · have h := below.generation_le
      show supply.generation ≤ (spine want start depth supply.take.2).supply.generation
      omega

/-- A placement in the left half of a node that is not a block is one in the node. -/
theorem Placed.left {want n start : Nat} {k : Key} {l r : Tree} {supply : Supply} {p : Placement}
    (hp : Placed want l n start supply p) (hleaf : (l.isAbsent && r.isAbsent) = false)
    (hr : r.Fits n) :
    Placed want (node k l r) (n + 1) start supply { p with tree := node k p.tree r } := by
  refine ⟨⟨hp.fits, hr⟩, rfl, ?_, hp.order_eq, ?_, ?_, hp.fresh_block,
    hp.generation_le⟩
  · have hleaf' : (p.tree.isAbsent && r.isAbsent) = false := by rw [hp.present]; rfl
    rw [blocks_node hleaf', blocks_node hleaf]
    exact hp.blocks.append_right _
  · intro ks h
    have hown := hp.owns _ (h.perm (perm_keys_left k l r ks))
    exact hown.perm (perm_keys_left k p.tree r ks).symm
  · intro k' hk
    rw [keys_node, List.mem_cons, List.mem_append] at hk
    rw [keys_node, List.mem_cons, List.mem_append]
    rcases hk with hk | hk | hk
    · exact Or.inl (Or.inl hk)
    · exact (hp.fresh k' hk).imp (fun h => Or.inr (Or.inl h)) id
    · exact Or.inl (Or.inr (Or.inr hk))

/-- A placement in the right half of a node that is not a block is one in the node. -/
theorem Placed.right {want n start : Nat} {k : Key} {l r : Tree} {supply : Supply} {p : Placement}
    (hp : Placed want r n (start + 2 ^ n) supply p) (hleaf : (l.isAbsent && r.isAbsent) = false)
    (hl : l.Fits n) :
    Placed want (node k l r) (n + 1) start supply { p with tree := node k l p.tree } := by
  refine ⟨⟨hl, hp.fits⟩, rfl, ?_, hp.order_eq, ?_, ?_, hp.fresh_block,
    hp.generation_le⟩
  · have hleaf' : (l.isAbsent && p.tree.isAbsent) = false := by rw [hp.present, Bool.and_false]
    rw [blocks_node hleaf', blocks_node hleaf]
    exact (hp.blocks.append_left _).trans List.perm_middle
  · intro ks h
    have hown := hp.owns _ (h.perm (perm_keys_right k l r ks))
    exact hown.perm (perm_keys_right k l p.tree ks).symm
  · intro k' hk
    rw [keys_node, List.mem_cons, List.mem_append] at hk
    rw [keys_node, List.mem_cons, List.mem_append]
    rcases hk with hk | hk | hk
    · exact Or.inl (Or.inl hk)
    · exact Or.inl (Or.inr (Or.inl hk))
    · exact (hp.fresh k' hk).imp (fun h => Or.inr (Or.inr h)) id

/-- Where a block of order `want` is placed in a tree: a free stretch is broken into, or a half of a node
that is not a block has the place. -/
inductive Places (want : Nat) (supply : Supply) : Tree → Nat → Nat → Placement → Prop
  | free (order start : Nat) (hle : want ≤ order) :
      Places want supply absent order start (spine want start (order - want) supply)
  | left (k : Key) (l r : Tree) (order start : Nat) (p : Placement)
      (hleaf : (l.isAbsent && r.isAbsent) = false) (h : Places want supply l order start p) :
      Places want supply (node k l r) (order + 1) start { p with tree := node k p.tree r }
  | right (k : Key) (l r : Tree) (order start : Nat) (p : Placement)
      (hleaf : (l.isAbsent && r.isAbsent) = false)
      (h : Places want supply r order (start + 2 ^ order) p) :
      Places want supply (node k l r) (order + 1) start { p with tree := node k l p.tree }

/-- A place that is found is one of these. -/
theorem places_of_place {want order start : Nat} {t : Tree} {supply : Supply} {p : Placement}
    (h : place want t order start supply = some p) : Places want supply t order start p := by
  induction t generalizing order start p with
  | absent => rw [place] at h; exact absurd h (by simp)
  | node k l r ihl ihr =>
    cases order with
    | zero => rw [place] at h; exact absurd h (by simp)
    | succ n =>
      rw [place] at h
      split at h
      · exact absurd h (by simp)
      rename_i hcond
      rw [Bool.or_eq_true, decide_eq_true_iff, not_or, Bool.not_eq_true] at hcond
      obtain ⟨hleaf, hlt⟩ := hcond
      have hle : want ≤ n := Nat.le_of_not_lt hlt
      split at h
      · rename_i q hq
        obtain rfl := Option.some.inj h
        exact .left k l r n start q hleaf (ihl hq)
      split at h
      · rename_i q hq
        obtain rfl := Option.some.inj h
        exact .right k l r n start q hleaf (ihr hq)
      split at h
      · rename_i hl
        obtain rfl := Option.some.inj h
        obtain rfl := isAbsent_iff.mp hl
        exact .left k absent r n start _ hleaf (.free n start hle)
      split at h
      · rename_i hr
        obtain rfl := Option.some.inj h
        obtain rfl := isAbsent_iff.mp hr
        exact .right k l absent n start _ hleaf (.free n (start + 2 ^ n) hle)
      · exact absurd h (by simp)

/-- **Placing adds one block**, wherever in the tree the place is. -/
theorem Places.placed {want order start : Nat} {t : Tree} {supply : Supply} {p : Placement}
    (h : Places want supply t order start p) (hfits : t.Fits order) :
    Placed want t order start supply p := by
  induction h with
  | free order start hle =>
    have hspine := spine_placed want start (order - want) supply
    rwa [Nat.add_sub_cancel' hle] at hspine
  | left k l r order start p hleaf h ih => exact (ih hfits.1).left hleaf hfits.2
  | right k l r order start p hleaf h ih => exact (ih hfits.2).right hleaf hfits.1

theorem place_placed {want order start : Nat} {t : Tree} {supply : Supply} {p : Placement}
    (hfits : t.Fits order) (h : place want t order start supply = some p) :
    Placed want t order start supply p :=
  (places_of_place h).placed hfits

/-! ## Pruning -/

/-- The keys of the blocks are keys of nodes, in the same order. -/
theorem map_key_blocks_sublist {t : Tree} {order : Nat} (hfits : t.Fits order) (start : Nat) :
    ((t.blocks order start).map Block.key).Sublist t.keys := by
  induction t, order, hfits using fits_induction generalizing start with
  | absent order => exact List.Sublist.refl _
  | leaf k order => exact List.Sublist.refl _
  | inner k l r n hl hr hleaf ihl ihr =>
    rw [blocks_node hleaf, List.map_append, keys_node]
    exact ((ihl _).append (ihr _)).cons k

theorem mem_keys_of_mem_blocks {t : Tree} {order start : Nat} (hfits : t.Fits order) {b : Block}
    (hb : b ∈ t.blocks order start) : b.key ∈ t.keys :=
  (map_key_blocks_sublist hfits start).subset (List.mem_map_of_mem hb)

/-- A search by key fails exactly when no node has the key. -/
theorem find?_eq_none_iff {key : Key} {t : Tree} : find? key t = none ↔ key ∉ t.keys := by
  induction t with
  | absent => simp [find?]
  | node k l r ihl ihr =>
    rw [find?, keys_node, List.mem_cons, List.mem_append]
    by_cases hk : k = key
    · rw [if_pos hk, hk]
      simp
    · have hne : ¬ key = k := fun h => hk h.symm
      rw [if_neg hk]
      cases hl : find? key l with
      | some t =>
        have : key ∈ l.keys := by
          by_contra hmem
          rw [ihl.mpr hmem] at hl
          exact absurd hl (by simp)
        simp [this]
      | none => simp [hne, ihl.mp hl, ihr]

/-- What pruning a tree `t` at a key does: it keeps the depth, takes out the block with that key
and nothing else, and releases the slots of the nodes that went. -/
structure Pruned (key : Key) (t : Tree) (order start : Nat) (t' : Tree) (released : List Nat) :
    Prop where
  fits : t'.Fits order
  blocks : ∃ b : Block, b.key = key ∧ (t.blocks order start).Perm (b :: t'.blocks order start)
  keys : ∃ gone : List Key, key ∈ gone ∧ gone.map Key.slot = released ∧
    t.keys.Perm (gone ++ t'.keys)

theorem join_fits {k : Key} {l r : Tree} {released : List Nat} {n : Nat} (hl : l.Fits n)
    (hr : r.Fits n) : (join k l r released).1.Fits (n + 1) := by
  unfold join
  split
  · exact trivial
  · exact ⟨hl, hr⟩

/-- A node that goes when nothing is left below it releases its slot after those below it. -/
theorem join_keys {k : Key} {l r : Tree} (gone : List Key) :
    ∃ gone' : List Key, gone ⊆ gone' ∧
      gone'.map Key.slot = (join k l r (gone.map Key.slot)).2 ∧
      (k :: (gone ++ (l.keys ++ r.keys))).Perm
        (gone' ++ (join k l r (gone.map Key.slot)).1.keys) := by
  unfold join
  split
  · rename_i hleaf
    obtain ⟨rfl, rfl⟩ := eq_absent_of_isAbsent_and hleaf
    exact ⟨k :: gone, List.subset_cons_self _ _, rfl, List.Perm.refl _⟩
  · exact ⟨gone, List.Subset.refl _, rfl, List.perm_middle.symm⟩

/-- Something is left of a tree that a block can be taken out of. -/
theorem isAbsent_of_prune {key : Key} {t : Tree} {out : Tree × List Nat}
    (h : prune key t = some out) : t.isAbsent = false := by
  cases t with
  | absent => rw [prune] at h; exact absurd h (by simp)
  | node => rfl

/-- A block taken out of the left half of a node is taken out of the node. -/
theorem Pruned.left {key k : Key} {l r s : Tree} {n start : Nat} {released : List Nat}
    (hp : Pruned key l n start s released) (hleaf : (l.isAbsent && r.isAbsent) = false)
    (hr : r.Fits n) :
    Pruned key (node k l r) (n + 1) start (join k s r released).1 (join k s r released).2 := by
  obtain ⟨b, hb, hperm⟩ := hp.blocks
  obtain ⟨gone, hgone, rfl, hkeys⟩ := hp.keys
  obtain ⟨gone', hsub, hslots, hkeys'⟩ := join_keys (k := k) (l := s) (r := r) gone
  refine ⟨join_fits hp.fits hr, ⟨b, hb, ?_⟩, ⟨gone', hsub hgone, hslots, ?_⟩⟩
  · rw [blocks_join, blocks_node hleaf]
    exact hperm.append_right _
  · refine List.Perm.trans (List.Perm.cons _ ?_) hkeys'
    rw [← List.append_assoc]
    exact hkeys.append_right _

/-- A block taken out of the right half of a node is taken out of the node. -/
theorem Pruned.right {key k : Key} {l r s : Tree} {n start : Nat} {released : List Nat}
    (hp : Pruned key r n (start + 2 ^ n) s released) (hleaf : (l.isAbsent && r.isAbsent) = false)
    (hl : l.Fits n) :
    Pruned key (node k l r) (n + 1) start (join k l s released).1 (join k l s released).2 := by
  obtain ⟨b, hb, hperm⟩ := hp.blocks
  obtain ⟨gone, hgone, rfl, hkeys⟩ := hp.keys
  obtain ⟨gone', hsub, hslots, hkeys'⟩ := join_keys (k := k) (l := l) (r := s) gone
  refine ⟨join_fits hl hp.fits, ⟨b, hb, ?_⟩, ⟨gone', hsub hgone, hslots, ?_⟩⟩
  · rw [blocks_join, blocks_node hleaf]
    exact (hperm.append_left _).trans List.perm_middle
  · refine List.Perm.trans (List.Perm.cons _ ?_) hkeys'
    refine (hkeys.append_left _).trans ?_
    rw [← List.append_assoc, ← List.append_assoc]
    exact List.perm_append_comm.append_right _

/-- **Pruning takes out one block.** -/
theorem prune_pruned {key : Key} {t t' : Tree} {order : Nat} {released : List Nat}
    (hfits : t.Fits order) (h : prune key t = some (t', released)) (start : Nat) :
    Pruned key t order start t' released := by
  induction t generalizing order start t' released with
  | absent => rw [prune] at h; exact absurd h (by simp)
  | node k l r ihl ihr =>
    rw [prune] at h
    split at h
    · -- the block itself
      rename_i hk
      split at h
      · rename_i hleaf
        obtain ⟨rfl, rfl⟩ := eq_absent_of_isAbsent_and hleaf
        obtain ⟨rfl, rfl⟩ := Prod.mk.inj (Option.some.inj h)
        exact ⟨trivial, ⟨⟨k, order, start⟩, hk, List.Perm.refl _⟩,
          ⟨[k], List.mem_singleton.mpr hk.symm, rfl, List.Perm.refl _⟩⟩
      · exact absurd h (by simp)
    · cases order with
      | zero =>
        obtain ⟨rfl, rfl⟩ := hfits
        simp [prune] at h
      | succ n =>
        split at h
        · rename_i s rel hs
          have hleaf : (l.isAbsent && r.isAbsent) = false := by rw [isAbsent_of_prune hs]; rfl
          have hpruned := (ihl hfits.1 hs start).left (k := k) hleaf hfits.2
          rwa [Option.some.inj h] at hpruned
        · split at h
          · rename_i s rel hs
            have hleaf : (l.isAbsent && r.isAbsent) = false := by
              rw [isAbsent_of_prune hs, Bool.and_false]
            have hpruned := (ihr hfits.2 hs (start + 2 ^ n)).right (k := k) hleaf hfits.1
            rwa [Option.some.inj h] at hpruned
          · exact absurd h (by simp)

/-- Only a node with the key can be pruned. -/
theorem prune_eq_none {key : Key} {t : Tree} (h : key ∉ t.keys) : prune key t = none := by
  induction t with
  | absent => rw [prune]
  | node k l r ihl ihr =>
    rw [keys_node, List.mem_cons, List.mem_append, not_or, not_or] at h
    obtain ⟨hk, hl, hr⟩ := h
    rw [prune, if_neg fun hkey => hk hkey.symm, ihl hl, ihr hr]

/-- Every block can be pruned, as long as no key is used twice. -/
theorem exists_prune_of_mem_blocks {t : Tree} {order start : Nat} (hfits : t.Fits order)
    (hnodup : t.keys.Nodup) {b : Block} (hb : b ∈ t.blocks order start) :
    ∃ t' released, prune b.key t = some (t', released) := by
  induction t, order, hfits using fits_induction generalizing start with
  | absent order => exact absurd hb List.not_mem_nil
  | leaf k order =>
    rw [blocks_leaf, List.mem_singleton] at hb
    rw [hb, prune, if_pos rfl]
    exact ⟨_, _, rfl⟩
  | inner k l r n hl hr hleaf ihl ihr =>
    rw [keys_node, List.nodup_cons, List.nodup_append] at hnodup
    obtain ⟨hroot, hnl, hnr, -⟩ := hnodup
    rw [blocks_node hleaf, List.mem_append] at hb
    have hne : k ≠ b.key := by
      rintro rfl
      rcases hb with hb | hb
      · exact hroot (List.mem_append_left _ (mem_keys_of_mem_blocks hl hb))
      · exact hroot (List.mem_append_right _ (mem_keys_of_mem_blocks hr hb))
    rw [prune, if_neg hne]
    cases hlp : prune b.key l with
    | some out => exact ⟨_, _, rfl⟩
    | none =>
      rcases hb with hb | hb
      · obtain ⟨t', released, h⟩ := ihl hnl hb
        rw [hlp] at h
        exact absurd h (by simp)
      · obtain ⟨t', released, h⟩ := ihr hnr hb
        rw [h]
        exact ⟨_, _, rfl⟩

end Tree
end Buddy
end Uniprocessor
