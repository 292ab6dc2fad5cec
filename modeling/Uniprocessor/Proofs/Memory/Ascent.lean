import Uniprocessor.Proofs.Memory.Descent

/-!
# Releases walk up

A table that holds a sound arena takes a block back as the arena does, and lists the same ranges.

A release empties the slot of the block and then goes from parent to parent, as long as nothing else
is left below.  The recursion of `Tree.prune` runs the other way, from the root down; so its
induction has to say what the walk has come to when it leaves a subtree.  Either it has stopped
inside, and the subtree is in the table without the block; or all of the subtree is gone but for its
root, which has no children any more, and the walk is about to release that.  `Collapsed` says which
(`collapse_collapsed`).

* `NodeTable.Represents.free`: giving back any block has a result, and it is the arena's.
* `NodeTable.Represents.ranges?`: the ranges in use are those of the arena.
-/

namespace Uniprocessor
namespace Buddy

open Buddy.Tree

namespace NodeTable

/-! ## Tables that shrink -/

/-- A change of a table that empties some slots, touches no others than the given ones, and never
fills an empty slot. -/
structure Shrunk (t t' : NodeTable) (gone touched : List Nat) : Prop where
  released : t'.released = gone ++ t.released
  slots : t'.cells.length = t.cells.length
  generation : t'.generation = t.generation
  capacity : t'.capacity = t.capacity
  root : t'.root = t.root
  empty : ∀ i ∈ gone, t'.cell? i = none
  still : ∀ i, t.cell? i = none → t'.cell? i = none
  frame : ∀ i ∉ touched, t'.cell? i = t.cell? i

theorem Shrunk.refl (t : NodeTable) (touched : List Nat) : Shrunk t t [] touched :=
  ⟨rfl, rfl, rfl, rfl, rfl, fun _ h => absurd h List.not_mem_nil, fun _ h => h, fun _ _ => rfl⟩

theorem Shrunk.mono {t t' : NodeTable} {gone js js' : List Nat} (h : Shrunk t t' gone js)
    (hsub : js ⊆ js') : Shrunk t t' gone js' :=
  { h with frame := fun i hi => h.frame i fun hmem => hi (hsub hmem) }

theorem Shrunk.trans {t t' t'' : NodeTable} {gone gone' js : List Nat} (h : Shrunk t t' gone js)
    (h' : Shrunk t' t'' gone' js) : Shrunk t t'' (gone' ++ gone) js := by
  refine ⟨?_, h'.slots.trans h.slots, h'.generation.trans h.generation,
    h'.capacity.trans h.capacity, h'.root.trans h.root, ?_,
    fun i hi => h'.still i (h.still i hi), fun i hi => (h'.frame i hi).trans (h.frame i hi)⟩
  · rw [h'.released, h.released, List.append_assoc]
  · intro i hi
    rcases List.mem_append.mp hi with hi | hi
    · exact h'.empty i hi
    · exact h'.still i (h.empty i hi)

theorem cell?_release_self (t : NodeTable) (i : Nat) : (t.release i).cell? i = none := by
  show (t.cells.set i none)[i]?.join = none
  rw [List.getElem?_set]
  by_cases hlt : i < t.cells.length <;> simp [hlt]

theorem cell?_release_of_ne {t : NodeTable} {i j : Nat} (h : j ≠ i) :
    (t.release i).cell? j = t.cell? j :=
  cell?_put_of_ne h none

/-- Emptying a slot shrinks a table. -/
theorem release_shrunk (t : NodeTable) (i : Nat) : Shrunk t (t.release i) [i] [i] := by
  refine ⟨rfl, List.length_set, rfl, rfl, rfl, ?_, ?_, ?_⟩
  · intro j hj
    rw [List.mem_singleton.mp hj]
    exact cell?_release_self t i
  · intro j hj
    by_cases hji : j = i
    · rw [hji]
      exact cell?_release_self t i
    · rw [cell?_release_of_ne hji]
      exact hj
  · intro j hj
    exact cell?_release_of_ne fun h => hj (List.mem_singleton.mpr h)

/-- Overwriting an occupied slot empties none. -/
theorem put_shrunk {t : NodeTable} {i : Nat} {c : Cell} (hc : t.cell? i = some c) (c' : Cell) :
    Shrunk t (t.put i (some c')) [] [i] := by
  refine ⟨rfl, List.length_set, rfl, rfl, rfl, fun j hj => absurd hj List.not_mem_nil,
    fun j hj => ?_, fun j hj => cell?_put_of_ne (fun h => hj (List.mem_singleton.mpr h)) _⟩
  have hne : j ≠ i := by
    rintro rfl
    rw [hj] at hc
    exact absurd hc (by simp)
  rw [cell?_put_of_ne hne]
  exact hj

/-! ## One step up -/

/-- A node without its link to a child. -/
def Cell.dropChild (p : Cell) (i : Nat) : Cell :=
  if p.left = some i then p.setChild .left none else p.setChild .right none

/-- A node goes, and its parent no longer links to it. -/
def detach (t : NodeTable) (i j : Nat) (p : Cell) : NodeTable :=
  (t.release i).put j (some (Cell.dropChild p i))

section Detach

variable {t : NodeTable} {i j : Nat} {p : Cell}

theorem cell?_detach (hne : j ≠ i) (hp : t.cell? j = some p) :
    (t.detach i j p).cell? j = some (Cell.dropChild p i) :=
  cell?_put_self ((cell?_release_of_ne hne).trans hp) _

theorem detach_shrunk (hne : j ≠ i) (hp : t.cell? j = some p) :
    Shrunk t (t.detach i j p) [i] [i, j] := by
  have hgone : Shrunk t (t.release i) [i] [i, j] := (release_shrunk t i).mono (by simp)
  have hput := put_shrunk ((cell?_release_of_ne hne).trans hp) (Cell.dropChild p i)
  exact hgone.trans (hput.mono (by simp))

/-- **One step of the walk:** a childless node goes, and the walk goes on from the parent if that
has no other child. -/
theorem collapse_succ {n : Nat} {c : Cell} (hc : t.cell? i = some c) (hparent : c.parent = some j)
    (hne : j ≠ i) (hp : t.cell? j = some p) :
    collapse (n + 1) t i =
      if (Cell.dropChild p i).isLeaf then collapse n (t.detach i j p) j
      else some (t.detach i j p) := by
  have hp' : (t.release i).cell? j = some p := (cell?_release_of_ne hne).trans hp
  rw [collapse, hc, Option.bind_some]
  simp only [hparent]
  rw [hp', Option.bind_some]
  rfl

/-- The walk ends at the root. -/
theorem collapse_root {n : Nat} {c : Cell} (hc : t.cell? i = some c) (hparent : c.parent = none) :
    collapse (n + 1) t i = some { t.release i with root := none } := by
  rw [collapse, hc, Option.bind_some]
  simp only [hparent]

end Detach

/-! ## The walk -/

/-- What a walk from the block with a key has come to when it leaves the given tree, if pruning
leaves the tree that is given last, and releases the given slots.  If nothing is left, the root of
the tree has no children any more and goes next. -/
def Collapsed (t : NodeTable) (tree : Tree) (parent : Option Nat) (order start : Nat) (key : Key)
    (released : List Nat) : Tree → Prop
  | .absent => ∃ i generation rest t' d, tree.slot? = some i ∧ released = i :: rest ∧ d ≤ order ∧
      t'.cell? i = some ⟨2 ^ order, start, generation, parent, none, none⟩ ∧
      Shrunk t t' rest tree.slots ∧ ∀ n, collapse (n + d) t key.slot = collapse n t' i
  | .node k l r => ∃ t', tree.slot? = some k.slot ∧ (node k l r).Held t' parent order start ∧
      Shrunk t t' released tree.slots ∧ ∀ n, order < n → collapse n t key.slot = some t'

/-- A walk that has emptied the subtree below a node goes on to the node. -/
theorem Collapsed.up {t : NodeTable} {child : Tree} {k key : Key} {order start : Nat}
    {released : List Nat} (h : Collapsed t child (some k.slot) order start key released absent)
    {c : Cell} (hc : t.cell? k.slot = some c) (hout : k.slot ∉ child.slots) :
    ∃ i t' d, child.slot? = some i ∧ d ≤ order ∧
      t'.cell? k.slot = some (Cell.dropChild c i) ∧
      Shrunk t t' released (k.slot :: child.slots) ∧
      ∀ n, collapse (n + (d + 1)) t key.slot =
        if (Cell.dropChild c i).isLeaf then collapse n t' k.slot else some t' := by
  obtain ⟨i, generation, rest, t₁, d, hi, rfl, hd, hcell, hshrunk, hwalk⟩ := h
  have hmem : i ∈ child.slots := slot?_mem_slots hi
  have hne : k.slot ≠ i := fun hk => hout (hk ▸ hmem)
  have hc₁ : t₁.cell? k.slot = some c := (hshrunk.frame _ hout).trans hc
  refine ⟨i, t₁.detach i k.slot c, d, hi, hd, cell?_detach hne hc₁, ?_, fun n => ?_⟩
  · have hbelow := hshrunk.mono (List.subset_cons_self k.slot child.slots)
    refine hbelow.trans ((detach_shrunk hne hc₁).mono ?_)
    intro j hj
    rcases List.mem_cons.mp hj with rfl | hj
    · exact List.mem_cons_of_mem _ hmem
    · exact List.mem_cons.mpr (Or.inl (List.mem_singleton.mp hj))
  · rw [← Nat.add_assoc, Nat.add_right_comm, hwalk]
    exact collapse_succ hcell rfl hne hc₁

section Halves

variable {t : NodeTable} {k key : Key} {l r : Tree} {parent : Option Nat} {o start : Nat}
  {released : List Nat}

/-- The slots of the nodes of a tree, each of which has its own. -/
theorem nodup_slots_node : (node k l r).slots.Nodup ↔
    k.slot ∉ l.slots ∧ k.slot ∉ r.slots ∧ l.slots.Nodup ∧ r.slots.Nodup ∧
      l.slots.Disjoint r.slots := by
  rw [slots_node, List.nodup_cons, List.nodup_append', List.mem_append, not_or, and_assoc]

/-- A walk that has come to a node stops there if a child is left to it, and otherwise goes on. -/
theorem Collapsed.joined {l' r' : Tree} {t' : NodeTable} {d : Nat}
    (hcell : t'.cell? k.slot =
      some ⟨2 ^ (o + 1), start, k.generation, parent, l'.slot?, r'.slot?⟩)
    (hl : l'.Held t' (some k.slot) o start) (hr : r'.Held t' (some k.slot) o (start + 2 ^ o))
    (hshrunk : Shrunk t t' released (node k l r).slots) (hd : d ≤ o)
    (hwalk : ∀ n, collapse (n + (d + 1)) t key.slot =
      if Cell.isLeaf ⟨2 ^ (o + 1), start, k.generation, parent, l'.slot?, r'.slot?⟩
        then collapse n t' k.slot else some t') :
    Collapsed t (node k l r) parent (o + 1) start key (join k l' r' released).2
      (join k l' r' released).1 := by
  rw [isLeaf_slots] at hwalk
  rw [join]
  split
  · rename_i hnone
    obtain ⟨rfl, rfl⟩ := eq_absent_of_isAbsent_and hnone
    exact ⟨k.slot, k.generation, released, t', d + 1, rfl, rfl, Nat.succ_le_succ hd, hcell, hshrunk,
      fun n => (hwalk n).trans (if_pos hnone)⟩
  · rename_i hsome
    refine ⟨t', rfl, ⟨hcell, hl, hr⟩, hshrunk, fun n hn => ?_⟩
    obtain ⟨m, rfl⟩ : ∃ m, n = m + (d + 1) := ⟨n - (d + 1), by omega⟩
    exact (hwalk m).trans (if_neg hsome)

/-- The walk leaves the left half of a node. -/
theorem collapsed_left {l' : Tree} (hheld : (node k l r).Held t parent (o + 1) start)
    (hnodup : (node k l r).slots.Nodup)
    (h : Collapsed t l (some k.slot) o start key released l') :
    Collapsed t (node k l r) parent (o + 1) start key (join k l' r released).2
      (join k l' r released).1 := by
  obtain ⟨hcell, hl, hr⟩ := hheld
  change r.Held t (some k.slot) o (start + 2 ^ o) at hr
  obtain ⟨hkl, hkr, -, -, hlr⟩ := nodup_slots_node.mp hnodup
  have hout : ∀ j ∈ r.slots, j ∉ k.slot :: l.slots := fun j hj hmem =>
    (List.mem_cons.mp hmem).elim (fun hjk => hkr (hjk ▸ hj)) fun hjl => hlr hjl hj
  have hsub : k.slot :: l.slots ⊆ (node k l r).slots := by
    rw [slots_node]
    exact List.cons_subset_cons _ (List.subset_append_left _ _)
  cases l' with
  | node k' ll lr =>
    obtain ⟨t', hslot, hheld', hshrunk, hwalk⟩ := h
    refine ⟨t', rfl, ⟨?_, hheld', ?_⟩, hshrunk.mono fun j hj => hsub (List.mem_cons_of_mem _ hj),
      fun n hn => hwalk n (by omega)⟩
    · rw [hshrunk.frame _ hkl, hcell, hslot]
      rfl
    · exact held_congr hr fun j hj => hshrunk.frame j fun hjl => hlr hjl hj
  | absent =>
    obtain ⟨i, t', d, hi, hd, hcell', hshrunk, hwalk⟩ := h.up hcell hkl
    have hdrop : Cell.dropChild
        ⟨2 ^ (o + 1), start, k.generation, parent, l.slot?, r.slot?⟩ i =
          ⟨2 ^ (o + 1), start, k.generation, parent, none, r.slot?⟩ := by
      rw [Cell.dropChild, hi, if_pos rfl]
      rfl
    rw [hdrop] at hcell' hwalk
    have hr' : r.Held t' (some k.slot) o (start + 2 ^ o) :=
      held_congr hr fun j hj => hshrunk.frame j (hout j hj)
    have hl' : absent.Held t' (some k.slot) o start := trivial
    exact .joined hcell' hl' hr' (hshrunk.mono hsub) hd hwalk

/-- The walk leaves the right half of a node. -/
theorem collapsed_right {r' : Tree} (hheld : (node k l r).Held t parent (o + 1) start)
    (hnodup : (node k l r).slots.Nodup)
    (h : Collapsed t r (some k.slot) o (start + 2 ^ o) key released r') :
    Collapsed t (node k l r) parent (o + 1) start key (join k l r' released).2
      (join k l r' released).1 := by
  obtain ⟨hcell, hl, hr⟩ := hheld
  change l.Held t (some k.slot) o start at hl
  obtain ⟨hkl, hkr, -, -, hlr⟩ := nodup_slots_node.mp hnodup
  have hout : ∀ j ∈ l.slots, j ∉ k.slot :: r.slots := fun j hj hmem =>
    (List.mem_cons.mp hmem).elim (fun hjk => hkl (hjk ▸ hj)) fun hjr => hlr hj hjr
  have hsub : k.slot :: r.slots ⊆ (node k l r).slots := by
    rw [slots_node]
    exact List.cons_subset_cons _ (List.subset_append_right _ _)
  cases r' with
  | node k' rl rr =>
    obtain ⟨t', hslot, hheld', hshrunk, hwalk⟩ := h
    have hjoin : join k l (node k' rl rr) released = (node k l (node k' rl rr), released) :=
      if_neg (by simp)
    rw [hjoin]
    refine ⟨t', rfl, ⟨?_, ?_, hheld'⟩, hshrunk.mono fun j hj => hsub (List.mem_cons_of_mem _ hj),
      fun n hn => hwalk n (by omega)⟩
    · rw [hshrunk.frame _ hkr, hcell, hslot]
      rfl
    · exact held_congr hl fun j hj => hshrunk.frame j fun hjr => hlr hj hjr
  | absent =>
    obtain ⟨i, t', d, hi, hd, hcell', hshrunk, hwalk⟩ := h.up hcell hkr
    -- the left link is not the one that is dropped, since the halves share no slot
    have hleft : l.slot? ≠ some i := fun hli =>
      hlr (slot?_mem_slots hli) (slot?_mem_slots hi)
    have hdrop : Cell.dropChild
        ⟨2 ^ (o + 1), start, k.generation, parent, l.slot?, r.slot?⟩ i =
          ⟨2 ^ (o + 1), start, k.generation, parent, l.slot?, none⟩ := by
      rw [Cell.dropChild, if_neg hleft]
      rfl
    rw [hdrop] at hcell' hwalk
    have hl' : l.Held t' (some k.slot) o start :=
      held_congr hl fun j hj => hshrunk.frame j (hout j hj)
    have hr' : absent.Held t' (some k.slot) o (start + 2 ^ o) := trivial
    exact .joined hcell' hl' hr' (hshrunk.mono hsub) hd hwalk

end Halves

/-- **The walk from a block comes to what `Tree.prune` leaves.** -/
theorem collapse_collapsed {t : NodeTable} {tree tree' : Tree} {parent : Option Nat}
    {order start : Nat} {key : Key} {released : List Nat} (hfits : tree.Fits order)
    (hheld : tree.Held t parent order start) (hnodup : tree.slots.Nodup)
    (h : prune key tree = some (tree', released)) :
    Collapsed t tree parent order start key released tree' := by
  induction tree generalizing parent order start tree' released with
  | absent => rw [prune] at h; exact absurd h (by simp)
  | node k l r ihl ihr =>
    rw [prune] at h
    split at h
    · -- the block itself: nothing has happened yet
      rename_i hk
      split at h
      · rename_i hleaf
        obtain ⟨rfl, rfl⟩ := eq_absent_of_isAbsent_and hleaf
        obtain ⟨rfl, rfl⟩ := Prod.mk.inj (Option.some.inj h)
        exact ⟨k.slot, k.generation, [], t, 0, rfl, rfl, Nat.zero_le _, hheld.1,
          Shrunk.refl t _, fun n => by rw [hk, Nat.add_zero]⟩
      · exact absurd h (by simp)
    · cases order with
      | zero =>
        obtain ⟨rfl, rfl⟩ := hfits
        exact absurd h (by simp [prune])
      | succ o =>
        obtain ⟨-, -, hnl, hnr, -⟩ := nodup_slots_node.mp hnodup
        split at h
        · rename_i l' rel hl
          have hbelow := collapsed_left hheld hnodup (ihl hfits.1 hheld.2.1 hnl hl)
          rw [Option.some.inj h] at hbelow
          exact hbelow
        · split at h
          · rename_i r' rel hr
            have hbelow := collapsed_right hheld hnodup (ihr hfits.2 hheld.2.2 hnr hr)
            rw [Option.some.inj h] at hbelow
            exact hbelow
          · exact absurd h (by simp)

/-! ## Release -/

/-- Every key of a tree is that of the cell in its slot, which has no children just if the node can
be pruned. -/
theorem cell?_of_mem_keys {t : NodeTable} {tree : Tree} {parent : Option Nat} {order start : Nat}
    (h : tree.Held t parent order start) (hnodup : tree.keys.Nodup) {key : Key}
    (hk : key ∈ tree.keys) :
    ∃ c, t.cell? key.slot = some c ∧ c.generation = key.generation ∧
      c.isLeaf = (prune key tree).isSome := by
  induction tree generalizing parent order start with
  | absent => exact absurd hk List.not_mem_nil
  | node k l r ihl ihr =>
    obtain ⟨hcell, hl, hr⟩ := h
    rw [keys_node, List.nodup_cons, List.nodup_append] at hnodup
    obtain ⟨hroot, hnl, hnr, hlr⟩ := hnodup
    rw [keys_node, List.mem_cons] at hk
    rw [prune]
    by_cases hkey : k = key
    · refine ⟨_, hkey ▸ hcell, rfl, ?_⟩
      rw [if_pos hkey, isLeaf_slots]
      cases l.isAbsent && r.isAbsent <;> rfl
    · rw [if_neg hkey]
      rcases List.mem_append.mp (hk.resolve_left fun h => hkey h.symm) with hk | hk
      · obtain ⟨c, hc, hgen, hleaf⟩ := ihl hl hnl hk
        refine ⟨c, hc, hgen, hleaf.trans ?_⟩
        have hnone : prune key r = none := prune_eq_none fun hkr => hlr _ hk _ hkr rfl
        rw [hnone]
        cases prune key l <;> rfl
      · obtain ⟨c, hc, hgen, hleaf⟩ := ihr hr hnr hk
        refine ⟨c, hc, hgen, hleaf.trans ?_⟩
        have hnone : prune key l = none := prune_eq_none fun hkl => hlr _ hkl _ hk rfl
        rw [hnone]
        cases prune key r <;> rfl

/-- The cells of a table are those of the keys of its arena. -/
theorem Represents.exists_key {t : NodeTable} {b : Buddy} (h : t.Represents b) (hb : b.Sound)
    {i : Nat} {c : Cell} (hc : t.cell? i = some c) :
    ∃ key ∈ b.root.keys, key.slot = i ∧ c.generation = key.generation := by
  have hlt : i ∈ List.range b.supply.slots := by
    rw [List.mem_range, ← h.backs.slots]
    exact lt_of_cell? hc
  rcases List.mem_append.mp (hb.owns.slots.symm.subset hlt) with hmem | hmem
  · obtain ⟨key, hkey, rfl⟩ := List.mem_map.mp hmem
    obtain ⟨c', hc', hgen, -⟩ := cell?_of_mem_keys h.held hb.owns.nodup hkey
    rw [hc] at hc'
    exact ⟨key, hkey, rfl, Option.some.inj hc' ▸ hgen⟩
  · rw [h.backs.empty i hmem] at hc
    exact absurd hc (by simp)

/-- The slots that a table has after some have been emptied. -/
theorem Shrunk.backs {t t' : NodeTable} {gone touched : List Nat} (h : Shrunk t t' gone touched)
    {s : Supply} (hs : s.Backs t) : (s.release gone).Backs t' := by
  refine ⟨?_, h.slots.trans hs.slots, h.generation.trans hs.generation, ?_⟩
  · rw [h.released, hs.released]
    rfl
  · intro i hi
    rcases List.mem_append.mp hi with hi | hi
    · exact h.empty i hi
    · exact h.still i (hs.empty i hi)

/-- The walk from a block that can be pruned ends with the arena without the block. -/
theorem Represents.collapse {t : NodeTable} {b : Buddy} (h : t.Represents b) (hb : b.Sound)
    {key : Key} {tree : Tree} {released : List Nat}
    (hprune : prune key b.root = some (tree, released)) :
    ∃ t', NodeTable.collapse t.levels t key.slot = some t' ∧
      t'.Represents { b with root := tree, supply := b.supply.release released } := by
  have hwalk := collapse_collapsed hb.fits h.held hb.owns.nodup_slots hprune
  rw [h.levels_eq]
  cases tree with
  | absent =>
    obtain ⟨i, generation, rest, t₁, d, hi, rfl, hd, hcell, hshrunk, hstop⟩ := hwalk
    obtain ⟨n, hn⟩ : ∃ n, b.order + 1 = n + 1 + d := ⟨b.order - d, by omega⟩
    have hlast : Shrunk t (t₁.release i) (i :: rest) b.root.slots :=
      hshrunk.trans ((release_shrunk t₁ i).mono fun j hj => by
        rw [List.mem_singleton.mp hj]
        exact slot?_mem_slots hi)
    have hbacks := hlast.backs h.backs
    refine ⟨{ t₁.release i with root := none }, ?_, hlast.capacity.trans h.capacity, rfl,
      ⟨hbacks.released, hbacks.slots, hbacks.generation, hbacks.empty⟩, trivial⟩
    rw [hn, hstop]
    exact collapse_root hcell rfl
  | node k l r =>
    obtain ⟨t', hslot, hheld, hshrunk, hstop⟩ := hwalk
    refine ⟨t', hstop _ (Nat.lt_succ_self _), hshrunk.capacity.trans h.capacity, ?_,
      hshrunk.backs h.backs, hheld⟩
    rw [hshrunk.root, h.root, hslot]
    rfl

/-- **A release has a result, and it is the arena's**, whatever block is given back: one in use, one
that was given back before, or any other. -/
theorem Represents.free {t : NodeTable} {b : Buddy} (h : t.Represents b) (hb : b.Sound)
    (blk : Block) :
    ∃ t', t.free blk = some ((b.free blk).map fun _ => (), t') ∧
      t'.Represents ((b.free blk).toOption.getD b) := by
  unfold NodeTable.free
  by_cases hk : blk.key ∈ b.root.keys
  · obtain ⟨c, hc, hgen, hleaf⟩ := cell?_of_mem_keys h.held hb.owns.nodup hk
    have hfilter : (t.cell? blk.key.slot).filter (fun c => c.generation == blk.key.generation) =
        some c := by
      rw [hc]
      exact if_pos (by simpa using hgen)
    have hfind : find? blk.key b.root ≠ none := fun hnone => find?_eq_none_iff.mp hnone hk
    obtain ⟨found, hfind⟩ := Option.ne_none_iff_exists'.mp hfind
    rw [hfilter]
    simp only []
    unfold Buddy.free
    rw [hfind]
    simp only []
    cases hprune : prune blk.key b.root with
    | none =>
      rw [hprune] at hleaf
      refine ⟨t, ?_, h⟩
      rw [if_neg (by simp [hleaf])]
      rfl
    | some out =>
      obtain ⟨tree', released⟩ := out
      rw [hprune] at hleaf
      rw [if_pos (by simp [hleaf])]
      obtain ⟨t', hcollapse, hafter⟩ := h.collapse hb hprune
      exact ⟨t', by rw [hcollapse]; rfl, hafter⟩
  · have hfilter : (t.cell? blk.key.slot).filter (fun c => c.generation == blk.key.generation) =
        none := by
      cases hc : t.cell? blk.key.slot with
      | none => rfl
      | some c =>
        obtain ⟨key, hkey, hslot, hgen⟩ := h.exists_key hb hc
        refine if_neg fun heq => hk ?_
        have hsame : key = blk.key := by
          cases key
          cases hbk : blk.key
          simp_all
        exact hsame ▸ hkey
    rw [hfilter, free_of_notMem_keys hk]
    exact ⟨t, rfl, h⟩

/-! ## Listing -/

/-- The childless nodes below a node are its blocks. -/
theorem leaves_held {t : NodeTable} {tree : Tree} {parent : Option Nat} {order start n i : Nat}
    (hfits : tree.Fits order) (h : tree.Held t parent order start) (hi : tree.slot? = some i)
    (hn : order < n) : t.leaves n i = some ((tree.blocks order start).map Block.range) := by
  induction tree, order, hfits using fits_induction generalizing n start parent i with
  | absent order => exact absurd hi (by simp [Tree.slot?])
  | leaf k order =>
    obtain rfl := Option.some.inj hi
    obtain ⟨m, rfl⟩ : ∃ m, n = m + 1 := ⟨n - 1, by omega⟩
    rw [leaves, h.1, Option.bind_some]
    rfl
  | inner k l r o hfl hfr hleaf ihl ihr =>
    obtain rfl := Option.some.inj hi
    obtain ⟨m, rfl⟩ : ∃ m, n = m + 1 := ⟨n - 1, by omega⟩
    obtain ⟨hcell, hl, hr⟩ := h
    have hinner : Cell.isLeaf
        ⟨2 ^ (o + 1), start, k.generation, parent, l.slot?, r.slot?⟩ = false :=
      (isLeaf_slots ..).trans hleaf
    have hhalf : ∀ {child : Tree} {start' : Nat},
        (∀ j, child.slot? = some j →
          t.leaves m j = some ((child.blocks o start').map Block.range)) →
        child.slot?.elim (some []) (t.leaves m) =
          some ((child.blocks o start').map Block.range) := by
      intro child start' hchild
      cases child with
      | absent => rfl
      | node k' l' r' => exact hchild _ rfl
    have hbelow : l.slot?.elim (some []) (t.leaves m) =
        some ((l.blocks o start).map Block.range) :=
      hhalf fun j hj => ihl hl hj (by omega)
    have habove := hhalf fun j hj => ihr hr hj (by omega : o < m)
    rw [leaves, hcell, Option.bind_some, hinner, if_neg Bool.false_ne_true, blocks_node hleaf,
      List.map_append]
    simp only []
    rw [hbelow, Option.bind_some, habove, Option.map_some]
    rfl

/-- **The ranges in use are listed by the table as by the arena.** -/
theorem Represents.ranges? {t : NodeTable} {b : Buddy} (h : t.Represents b) (hb : b.Sound) :
    t.ranges? = some b.ranges := by
  unfold NodeTable.ranges? Buddy.ranges Buddy.blocks
  rw [h.root]
  cases hslot : b.root.slot? with
  | none =>
    have habsent : b.root = absent := by
      rw [← isAbsent_iff, ← isNone_slot?, hslot]
      rfl
    rw [habsent]
    rfl
  | some i =>
    have hlevels := h.levels_eq
    exact leaves_held hb.fits h.held hslot (by omega)

end NodeTable
end Buddy
end Uniprocessor
