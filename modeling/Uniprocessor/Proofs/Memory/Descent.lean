import Uniprocessor.Proofs.Memory.NodeTable

/-!
# Requests walk down

A table that holds a sound arena answers a request as the arena does, and meets no empty slot on the
way.

A placement only touches the slots of the tree it ends with; so the cells of the other nodes stay as
they are, and the links of the surrounding tree stay right.  `Step` says this of a change, and the
proofs below follow the recursion of the trees: making one child (`attach_step`), a row of left
children (`splitSpine_grafted`), and the search that decides where (`search_found`).

* `NodeTable.Represents.allocate?`: a request has a result, and it is the arena's.
-/

namespace Uniprocessor
namespace Buddy

open Buddy.Tree

namespace NodeTable

/-! ## Single cells -/

/-- An occupied slot exists. -/
theorem lt_of_cell? {t : NodeTable} {i : Nat} {c : Cell} (h : t.cell? i = some c) :
    i < t.cells.length := by
  by_contra hge
  rw [cell?, List.getElem?_eq_none (Nat.le_of_not_lt hge)] at h
  exact absurd h (by simp)

theorem cell?_put_self {t : NodeTable} {i : Nat} {c : Cell} (h : t.cell? i = some c) (c' : Cell) :
    (t.put i (some c')).cell? i = some c' := by
  rw [cell?, put, List.getElem?_set_self (lt_of_cell? h)]
  rfl

theorem cell?_put_of_ne {t : NodeTable} {i j : Nat} (h : j ≠ i) (x : Option Cell) :
    (t.put i x).cell? j = t.cell? j := by
  rw [cell?, put, List.getElem?_set_ne h.symm]
  rfl

/-- A change of a table that touches no other slots than the given ones, after which it has the
slots of a supply. -/
structure Step (t t' : NodeTable) (s : Supply) (touched : List Nat) : Prop where
  backs : s.Backs t'
  frame : ∀ j ∉ touched, t'.cell? j = t.cell? j
  capacity : t'.capacity = t.capacity
  root : t'.root = t.root

theorem Step.mono {t t' : NodeTable} {s : Supply} {js js' : List Nat} (h : Step t t' s js)
    (hsub : js ⊆ js') : Step t t' s js' :=
  ⟨h.backs, fun j hj => h.frame j fun hmem => hj (hsub hmem), h.capacity, h.root⟩

theorem Step.trans {t t' t'' : NodeTable} {s s' : Supply} {js : List Nat} (h : Step t t' s js)
    (h' : Step t' t'' s' js) : Step t t'' s' js :=
  ⟨h'.backs, fun j hj => (h'.frame j hj).trans (h.frame j hj), h'.capacity.trans h.capacity,
    h'.root.trans h.root⟩

/-- Overwriting an occupied slot leaves the slots of a table as they are. -/
theorem Step.put {t : NodeTable} {s : Supply} (hs : s.Backs t) {i : Nat} {c : Cell}
    (hc : t.cell? i = some c) (c' : Cell) : Step t (t.put i (some c')) s [i] := by
  refine ⟨⟨hs.released, ?_, hs.generation, ?_⟩, ?_, rfl, rfl⟩
  · rw [NodeTable.put, List.length_set]
    exact hs.slots
  · intro j hj
    have hne : j ≠ i := by
      rintro rfl
      rw [hs.empty j hj] at hc
      exact absurd hc (by simp)
    rw [cell?_put_of_ne hne]
    exact hs.empty j hj
  · intro j hj
    exact cell?_put_of_ne (fun h => hj (List.mem_singleton.mpr h)) _

/-- **A new node goes into the slot of the next key.** -/
theorem newNode_step {t : NodeTable} {s : Supply} {ks : List Key} (hs : s.Backs t)
    (ho : s.Owns ks) (size start : Nat) (parent : Option Nat) :
    (t.newNode size start parent).1 = s.take.1.slot ∧
      (t.newNode size start parent).2.cell? s.take.1.slot =
        some ⟨size, start, s.take.1.generation, parent, none, none⟩ ∧
      Step t (t.newNode size start parent).2 s.take.2 [s.take.1.slot] := by
  have hnodup : (ks.map Key.slot ++ s.released).Nodup := ho.slots.nodup_iff.mpr List.nodup_range
  have hgen := hs.generation
  unfold newNode Supply.take
  rw [hs.released]
  cases hrel : s.released with
  | nil =>
    have hlen := hs.slots
    refine ⟨hlen, ?_, ⟨rfl, ?_, congrArg (· + 1) hgen, fun j hj => absurd hj List.not_mem_nil⟩,
      ?_, rfl, rfl⟩
    · show (t.cells ++ [_])[s.slots]?.join = _
      rw [← hlen, List.getElem?_concat_length, hgen]
      rfl
    · show (t.cells ++ [_]).length = _
      rw [List.length_append, hlen]
      rfl
    · intro j hj
      have hne : j ≠ t.cells.length := fun h => hj (List.mem_singleton.mpr (h.trans hlen))
      show (t.cells ++ [_])[j]?.join = _
      rw [cell?, List.getElem?_append]
      by_cases hlt : j < t.cells.length
      · rw [if_pos hlt]
      · rw [if_neg hlt, List.getElem?_eq_none (by simp; omega), List.getElem?_eq_none (by omega)]
  | cons slot rest =>
    rw [hrel] at hnodup
    have hlt : slot < t.cells.length := by
      have hmem := ho.slots.subset (List.mem_append_right _ (hrel ▸ List.mem_cons_self))
      rw [hs.slots]
      exact List.mem_range.mp hmem
    have hrest : slot ∉ rest := (List.nodup_cons.mp (List.nodup_append.mp hnodup).2.1).1
    refine ⟨rfl, ?_, ⟨rfl, ?_, congrArg (· + 1) hgen, ?_⟩, ?_, rfl, rfl⟩
    · show (t.cells.set slot _)[slot]?.join = _
      rw [List.getElem?_set_self hlt, hgen]
      rfl
    · show (t.cells.set slot _).length = _
      rw [List.length_set]
      exact hs.slots
    · intro j hj
      have hne : j ≠ slot := fun h => hrest (h ▸ hj)
      refine (cell?_put_of_ne hne _).trans (hs.empty j ?_)
      rw [hrel]
      exact List.mem_cons_of_mem _ hj
    · intro j hj
      exact cell?_put_of_ne (fun h => hj (List.mem_singleton.mpr h)) _

/-! ## Trees in a table -/

@[simp] theorem slots_absent : Tree.absent.slots = [] := rfl

@[simp] theorem slots_node (k : Key) (l r : Tree) :
    (node k l r).slots = k.slot :: (l.slots ++ r.slots) := by
  rw [Tree.slots, keys_node, List.map_cons, List.map_append]
  rfl

/-- A tree stays in a table as long as its own cells are not touched. -/
theorem held_congr {t t' : NodeTable} {tree : Tree} {parent : Option Nat} {order start : Nat}
    (h : tree.Held t parent order start) (hsame : ∀ j ∈ tree.slots, t'.cell? j = t.cell? j) :
    tree.Held t' parent order start := by
  induction tree generalizing parent order start with
  | absent => exact trivial
  | node k l r ihl ihr =>
    obtain ⟨hcell, hl, hr⟩ := h
    rw [slots_node] at hsame
    refine ⟨?_, ihl hl ?_, ihr hr ?_⟩
    · rw [hsame _ List.mem_cons_self]
      exact hcell
    · intro j hj
      exact hsame j (List.mem_cons_of_mem _ (List.mem_append_left _ hj))
    · intro j hj
      exact hsame j (List.mem_cons_of_mem _ (List.mem_append_right _ hj))

theorem isNone_slot? (tree : Tree) : tree.slot?.isNone = tree.isAbsent := by
  cases tree <;> rfl

/-- The cell of a node has no children just if the node has none. -/
theorem isLeaf_slots (size start generation : Nat) (parent : Option Nat) (l r : Tree) :
    Cell.isLeaf ⟨size, start, generation, parent, l.slot?, r.slot?⟩ =
      (l.isAbsent && r.isAbsent) := by
  rw [Cell.isLeaf, isNone_slot?, isNone_slot?]

theorem slot?_mem_slots {tree : Tree} {i : Nat} (h : tree.slot? = some i) : i ∈ tree.slots := by
  cases tree with
  | absent => exact absurd h (by simp [Tree.slot?])
  | node k l r =>
    obtain rfl := Option.some.inj h
    rw [slots_node]
    exact List.mem_cons_self

/-! ## Placing -/

/-- The slot of the next key is not the slot of an owned one. -/
theorem take_slot_notMem {s : Supply} {ks : List Key} (ho : s.Owns ks) :
    s.take.1.slot ∉ ks.map Key.slot := by
  have hnodup := ho.take.nodup_slots
  rw [List.map_cons, List.nodup_cons] at hnodup
  exact hnodup.1

/-- The slots of a placed tree are not those of the nodes around it. -/
theorem slot_notMem_of_owns {s : Supply} {tree : Tree} {ks : List Key}
    (ho : s.Owns (tree.keys ++ ks)) {j : Nat} (hj : j ∈ ks.map Key.slot) : j ∉ tree.slots := by
  have hnodup := ho.nodup_slots
  rw [List.map_append, List.nodup_append] at hnodup
  exact fun h => hnodup.2.2 _ h _ hj rfl

/-- Making a child touches its slot and the slot of the parent. -/
theorem attach_step {t : NodeTable} {s : Supply} {ks : List Key} (hs : s.Backs t) (ho : s.Owns ks)
    {parent : Nat} {p : Cell} (hp : t.cell? parent = some p) (hmem : parent ∈ ks.map Key.slot)
    (side : Side) :
    ∃ t', t.attach parent side = some (s.take.1.slot, t') ∧
      t'.cell? s.take.1.slot =
        some ⟨p.size / 2, p.startOf side, s.take.1.generation, some parent, none, none⟩ ∧
      t'.cell? parent = some (p.setChild side (some s.take.1.slot)) ∧
      Step t t' s.take.2 [s.take.1.slot, parent] := by
  obtain ⟨hslot, hcell, hmade⟩ :=
    newNode_step hs ho (p.size / 2) (p.startOf side) (some parent)
  have hne : parent ≠ s.take.1.slot := by
    intro h
    exact take_slot_notMem ho (h ▸ hmem)
  have hp' : (t.newNode (p.size / 2) (p.startOf side) (some parent)).2.cell? parent = some p := by
    rw [hmade.frame parent fun h => hne (List.mem_singleton.mp h)]
    exact hp
  refine ⟨(t.newNode (p.size / 2) (p.startOf side) (some parent)).2.put parent
    (some (p.setChild side (some s.take.1.slot))), ?_, ?_, ?_, ?_⟩
  · rw [attach, hp, Option.bind_some]
    simp only []
    rw [hp', hslot]
    rfl
  · exact (cell?_put_of_ne hne.symm _).trans hcell
  · exact cell?_put_self hp' _
  · have hput := Step.put hmade.backs hp' (p.setChild side (some s.take.1.slot))
    exact (hmade.mono (by simp)).trans (hput.mono (by simp))

/-- What a table looks like once a tree has been put below a node on the given side: the tree hangs
below the node, the node links to it, and nothing else has been touched. -/
structure Grafted (t t' : NodeTable) (parent : Nat) (c : Cell) (side : Side) (order : Nat)
    (p : Placement) : Prop where
  held : p.tree.Held t' (some parent) order (c.startOf side)
  link : t'.cell? parent = some (c.setChild side p.tree.slot?)
  step : Step t t' p.supply (parent :: p.tree.slots)

/-- Making a child is the shortest way of breaking into a free half. -/
theorem attach_grafted {order : Nat} {t : NodeTable} {s : Supply} {ks : List Key}
    (hs : s.Backs t) (ho : s.Owns ks) {parent : Nat} {c : Cell} (hc : t.cell? parent = some c)
    (hmem : parent ∈ ks.map Key.slot) (side : Side) (hsize : c.size / 2 = 2 ^ order) :
    ∃ t', t.attach parent side = some (s.take.1.slot, t') ∧
      Grafted t t' parent c side order (spine order (c.startOf side) 0 s) := by
  obtain ⟨t', hattach, hchild, hparent, hstep⟩ := attach_step hs ho hc hmem side
  rw [hsize] at hchild
  refine ⟨t', hattach, ⟨hchild, trivial, trivial⟩, hparent, hstep.mono ?_⟩
  show [s.take.1.slot, parent] ⊆ [parent, s.take.1.slot]
  exact fun j hj => by simpa [or_comm] using hj

/-- **Breaking into the free half of a node** does to the table what `Tree.spine` does to the
tree. -/
theorem splitSpine_grafted {order depth n : Nat} {t : NodeTable} {s : Supply} {ks : List Key}
    (hs : s.Backs t) (ho : s.Owns ks) {parent : Nat} {c : Cell} (hc : t.cell? parent = some c)
    (hmem : parent ∈ ks.map Key.slot) (side : Side) (hsize : c.size / 2 = 2 ^ (order + depth))
    (hn : depth < n) :
    ∃ t', splitSpine (2 ^ order) n t parent side =
        some ((spine order (c.startOf side) depth s).block.key.slot, t') ∧
      Grafted t t' parent c side (order + depth) (spine order (c.startOf side) depth s) := by
  induction depth generalizing n t s ks parent c side with
  | zero =>
    obtain ⟨m, rfl⟩ : ∃ m, n = m + 1 := ⟨n - 1, by omega⟩
    obtain ⟨t', hattach, hgraft⟩ := attach_grafted hs ho hc hmem side hsize
    refine ⟨t', ?_, hgraft⟩
    rw [splitSpine, hattach, Option.bind_some]
    simp only []
    rw [hgraft.held.1, Option.bind_some]
    exact if_neg (Nat.lt_irrefl _)
  | succ depth ih =>
    obtain ⟨m, rfl⟩ : ∃ m, n = m + 1 := ⟨n - 1, by omega⟩
    obtain ⟨t₁, hattach, hchild, hparent, hstep⟩ := attach_step hs ho hc hmem side
    have hhalf : c.size / 2 / 2 = 2 ^ (order + depth) := by
      rw [hsize, ← Nat.add_assoc, Nat.pow_succ]
      omega
    have hlt : 2 ^ order < c.size / 2 := by
      rw [hsize]
      exact Nat.pow_lt_pow_right (by decide) (by omega)
    obtain ⟨t', hspine, hbelow⟩ := ih (n := m) hstep.backs ho.take hchild
      (by rw [List.map_cons]; exact List.mem_cons_self) .left hhalf (by omega)
    -- the parent's cell is not one of those below the new node
    have hout : parent ∉ s.take.1.slot ::
        (spine order (c.startOf side) depth s.take.2).tree.slots := by
      have howns := (spine_placed order (c.startOf side) depth s.take.2).owns _ ho.take
      rw [List.mem_cons, not_or]
      exact ⟨fun h => take_slot_notMem ho (h ▸ hmem),
        slot_notMem_of_owns howns (List.mem_cons_of_mem _ hmem)⟩
    have hslots : (spine order (c.startOf side) (depth + 1) s).tree.slots =
        s.take.1.slot :: (spine order (c.startOf side) depth s.take.2).tree.slots := by
      rw [spine, slots_node, slots_absent, List.append_nil]
    refine ⟨t', ?_, ⟨?_, hbelow.held, trivial⟩, ?_, ?_⟩
    · rw [splitSpine, hattach, Option.bind_some]
      simp only []
      rw [hchild, Option.bind_some]
      exact (if_pos hlt).trans hspine
    · have hlink := hbelow.link
      rw [hsize] at hlink
      exact hlink
    · rw [hbelow.step.frame parent hout]
      exact hparent
    · rw [hslots]
      refine (hstep.mono ?_).trans (hbelow.step.mono (List.subset_cons_self _ _))
      exact fun j hj => by
        rcases List.mem_cons.mp hj with rfl | hj
        · exact List.mem_cons_of_mem _ List.mem_cons_self
        · exact List.mem_cons.mpr (Or.inl (List.mem_singleton.mp hj))

/-- The slots of one half are neither that of the node nor those of the other half. -/
theorem sibling_notMem_of_owns {s : Supply} {k : Key} {tree sibling : Tree} {ks : List Key}
    (ho : s.Owns (tree.keys ++ (k :: (sibling.keys ++ ks)))) {j : Nat} (hj : j ∈ sibling.slots) :
    j ∉ k.slot :: tree.slots := by
  have hmem : j ∈ (sibling.keys ++ ks).map Key.slot := by
    rw [List.map_append]
    exact List.mem_append_left _ hj
  have hnodup := (ho.perm List.perm_append_comm).nodup_slots
  rw [List.cons_append, List.map_cons, List.nodup_cons, List.map_append] at hnodup
  rw [List.mem_cons, not_or]
  exact ⟨fun h => hnodup.1 (h ▸ List.mem_append_left _ hmem),
    slot_notMem_of_owns ho (List.mem_cons_of_mem _ hmem)⟩

section Halves

variable {t t' : NodeTable} {k : Key} {l r : Tree} {parent : Option Nat} {order start : Nat}
  {p : Placement} {ks : List Key}

/-- A new left half completes a node whose right half has not been touched. -/
theorem held_left (hcell : t'.cell? k.slot =
      some ⟨2 ^ (order + 1), start, k.generation, parent, p.tree.slot?, r.slot?⟩)
    (hp : p.tree.Held t' (some k.slot) order start)
    (hr : r.Held t (some k.slot) order (start + 2 ^ order))
    (ho : p.supply.Owns (p.tree.keys ++ (k :: (r.keys ++ ks))))
    (hstep : Step t t' p.supply (k.slot :: p.tree.slots)) :
    (node k p.tree r).Held t' parent (order + 1) start ∧
      Step t t' p.supply (node k p.tree r).slots := by
  refine ⟨⟨hcell, hp, held_congr hr fun j hj => hstep.frame j (sibling_notMem_of_owns ho hj)⟩,
    hstep.mono ?_⟩
  rw [slots_node]
  exact List.cons_subset_cons _ (List.subset_append_left _ _)

/-- A new right half completes a node whose left half has not been touched. -/
theorem held_right (hcell : t'.cell? k.slot =
      some ⟨2 ^ (order + 1), start, k.generation, parent, l.slot?, p.tree.slot?⟩)
    (hp : p.tree.Held t' (some k.slot) order (start + 2 ^ order))
    (hl : l.Held t (some k.slot) order start)
    (ho : p.supply.Owns (p.tree.keys ++ (k :: (l.keys ++ ks))))
    (hstep : Step t t' p.supply (k.slot :: p.tree.slots)) :
    (node k l p.tree).Held t' parent (order + 1) start ∧
      Step t t' p.supply (node k l p.tree).slots := by
  refine ⟨⟨hcell, held_congr hl fun j hj => hstep.frame j (sibling_notMem_of_owns ho hj), hp⟩,
    hstep.mono ?_⟩
  rw [slots_node]
  exact List.cons_subset_cons _ (List.subset_append_right _ _)

end Halves

/-- A node that is no larger than a block of the wanted order has no place for it. -/
theorem place_eq_none_of_le {want order : Nat} (h : order ≤ want) (tree : Tree) (start : Nat)
    (s : Supply) : place want tree order start s = none := by
  cases tree with
  | absent => rw [place]
  | node k l r =>
    cases order with
    | zero => rw [place]
    | succ n =>
      have hlt : n < want := h
      rw [place, if_pos (by simp [hlt])]

/-- What a search below a node comes to, where a placement comes to the given result. -/
def Found (want n : Nat) (t : NodeTable) (i : Nat) (parent : Option Nat) (order start : Nat) :
    Option Placement → Prop
  | none => search (2 ^ want) n t i = some (none, t)
  | some p => ∃ t', search (2 ^ want) n t i = some (some p.block.key.slot, t') ∧
      p.tree.slot? = some i ∧ p.tree.Held t' parent order start ∧ Step t t' p.supply p.tree.slots

section Search

variable {want m order start : Nat} {t : NodeTable} {k : Key} {l r : Tree} {parent : Option Nat}
  {s : Supply} {ks : List Key}

/-- A place found below the left child is one below the node. -/
theorem found_left (hcell : t.cell? k.slot =
      some ⟨2 ^ (order + 1), start, k.generation, parent, l.slot?, r.slot?⟩)
    (hr : r.Held t (some k.slot) order (start + 2 ^ order)) {p : Placement}
    (ho : p.supply.Owns (p.tree.keys ++ (k :: (r.keys ++ ks)))) {t' : NodeTable}
    (hslot : p.tree.slot? = l.slot?) (hp : p.tree.Held t' (some k.slot) order start)
    (hstep : Step t t' p.supply p.tree.slots) :
    (node k p.tree r).Held t' parent (order + 1) start ∧
      Step t t' p.supply (node k p.tree r).slots := by
  have hout : k.slot ∉ p.tree.slots := slot_notMem_of_owns ho List.mem_cons_self
  refine held_left ?_ hp hr ho (hstep.mono (List.subset_cons_self _ _))
  rw [hstep.frame _ hout, hslot]
  exact hcell

/-- A place found below the right child is one below the node. -/
theorem found_right (hcell : t.cell? k.slot =
      some ⟨2 ^ (order + 1), start, k.generation, parent, l.slot?, r.slot?⟩)
    (hl : l.Held t (some k.slot) order start) {p : Placement}
    (ho : p.supply.Owns (p.tree.keys ++ (k :: (l.keys ++ ks)))) {t' : NodeTable}
    (hslot : p.tree.slot? = r.slot?)
    (hp : p.tree.Held t' (some k.slot) order (start + 2 ^ order))
    (hstep : Step t t' p.supply p.tree.slots) :
    (node k l p.tree).Held t' parent (order + 1) start ∧
      Step t t' p.supply (node k l p.tree).slots := by
  have hout : k.slot ∉ p.tree.slots := slot_notMem_of_owns ho List.mem_cons_self
  refine held_right ?_ hp hl ho (hstep.mono (List.subset_cons_self _ _))
  rw [hstep.frame _ hout, hslot]
  exact hcell

theorem startOf_right (order start generation : Nat) (parent left right : Option Nat) :
    Cell.startOf ⟨2 ^ (order + 1), start, generation, parent, left, right⟩ .right =
      start + 2 ^ order := by
  rw [Cell.startOf, Nat.pow_succ, Nat.mul_div_cancel _ (by decide)]

theorem half_pow (order : Nat) : 2 ^ (order + 1) / 2 = 2 ^ order := by
  rw [Nat.pow_succ, Nat.mul_div_cancel _ (by decide)]

/-- A free left half is broken into. -/
theorem graft_left {d : Nat} (hd : want + d = order) {t' : NodeTable}
    (hr : r.Held t (some k.slot) order (start + 2 ^ order))
    (ho : s.Owns ((node k absent r).keys ++ ks))
    (hgraft : Grafted t t' k.slot
      ⟨2 ^ (order + 1), start, k.generation, parent, none, r.slot?⟩ .left (want + d)
      (spine want start d s)) :
    (node k (spine want start d s).tree r).Held t' parent (order + 1) start ∧
      Step t t' (spine want start d s).supply (node k (spine want start d s).tree r).slots := by
  have hown := (spine_placed want start d s).owns _ (ho.perm (perm_keys_left k absent r ks))
  have hheld := hgraft.held
  rw [hd] at hheld
  exact held_left hgraft.link hheld hr hown hgraft.step

/-- A free right half is broken into. -/
theorem graft_right {d : Nat} (hd : want + d = order) {t' : NodeTable}
    (hl : l.Held t (some k.slot) order start) (ho : s.Owns ((node k l absent).keys ++ ks))
    (hgraft : Grafted t t' k.slot
      ⟨2 ^ (order + 1), start, k.generation, parent, l.slot?, none⟩ .right (want + d)
      (spine want (start + 2 ^ order) d s)) :
    (node k l (spine want (start + 2 ^ order) d s).tree).Held t' parent (order + 1) start ∧
      Step t t' (spine want (start + 2 ^ order) d s).supply
        (node k l (spine want (start + 2 ^ order) d s).tree).slots := by
  have hown := (spine_placed want (start + 2 ^ order) d s).owns _
    (ho.perm (perm_keys_right k l absent ks))
  have hheld := hgraft.held
  rw [hd, startOf_right] at hheld
  exact held_right hgraft.link hheld hl hown hgraft.step

end Search

/-! ### Searching

A search looks at the two links of a node, and at how many times larger the node is than the block
that is wanted.  These are its equations for a node that is no block. -/

section Equations

variable {size n i : Nat} {t : NodeTable} {c : Cell}

theorem search_leaf (hc : t.cell? i = some c) (hleft : c.left = none) (hright : c.right = none) :
    search size (n + 1) t i = some (none, t) := by
  rw [search, hc, Option.bind_some, if_pos (by simp [Cell.isLeaf, hleft, hright])]

theorem search_small (hc : t.cell? i = some c) (hinner : c.isLeaf = false)
    (hsize : c.size < 2 * size) : search size (n + 1) t i = some (none, t) := by
  rw [search, hc, Option.bind_some, hinner, if_neg Bool.false_ne_true,
    if_neg (Nat.ne_of_lt hsize), if_pos hsize]

theorem search_exact (hc : t.cell? i = some c) (hinner : c.isLeaf = false)
    (hsize : c.size = 2 * size) :
    search size (n + 1) t i =
      if c.left = none then found (t.attach i .left)
      else if c.right = none then found (t.attach i .right) else some (none, t) := by
  rw [search, hc, Option.bind_some, hinner, if_neg Bool.false_ne_true, if_pos hsize]
  cases hl : c.left with
  | none => rfl
  | some left =>
    cases hr : c.right with
    | none => rfl
    | some right => rfl

theorem search_both (hc : t.cell? i = some c) (hsize : 2 * size < c.size) {left right : Nat}
    (hleft : c.left = some left) (hright : c.right = some right) :
    search size (n + 1) t i =
      orElse (search size n t left) fun t => search size n t right := by
  rw [search, hc, Option.bind_some, if_neg (by simp [Cell.isLeaf, hleft]),
    if_neg (Nat.ne_of_gt hsize), if_neg (Nat.not_lt.mpr (Nat.le_of_lt hsize)), hleft, hright]

theorem search_onlyLeft (hc : t.cell? i = some c) (hsize : 2 * size < c.size) {left : Nat}
    (hleft : c.left = some left) (hright : c.right = none) :
    search size (n + 1) t i =
      orElse (search size n t left) fun t => found (splitSpine size n t i .right) := by
  rw [search, hc, Option.bind_some, if_neg (by simp [Cell.isLeaf, hleft]),
    if_neg (Nat.ne_of_gt hsize), if_neg (Nat.not_lt.mpr (Nat.le_of_lt hsize)), hleft, hright]

theorem search_onlyRight (hc : t.cell? i = some c) (hsize : 2 * size < c.size) {right : Nat}
    (hleft : c.left = none) (hright : c.right = some right) :
    search size (n + 1) t i =
      orElse (search size n t right) fun t => found (splitSpine size n t i .left) := by
  rw [search, hc, Option.bind_some, if_neg (by simp [Cell.isLeaf, hright]),
    if_neg (Nat.ne_of_gt hsize), if_neg (Nat.not_lt.mpr (Nat.le_of_lt hsize)), hleft, hright]

end Equations

section Nodes

variable {want m o start : Nat} {t : NodeTable} {k : Key} {l r : Tree} {parent : Option Nat}
  {s : Supply} {ks : List Key}

/-- The search below a node whose halves are just as large as the block that is wanted. -/
theorem found_exact (hcell : t.cell? k.slot =
      some ⟨2 ^ (o + 1), start, k.generation, parent, l.slot?, r.slot?⟩)
    (hl : l.Held t (some k.slot) o start) (hr : r.Held t (some k.slot) o (start + 2 ^ o))
    (hs : s.Backs t) (ho : s.Owns ((node k l r).keys ++ ks))
    (hleaf : (l.isAbsent && r.isAbsent) = false) :
    Found o (m + 1) t k.slot parent (o + 1) start (place o (node k l r) (o + 1) start s) := by
  have hmem : k.slot ∈ ((node k l r).keys ++ ks).map Key.slot := by simp
  have hinner : Cell.isLeaf ⟨2 ^ (o + 1), start, k.generation, parent, l.slot?, r.slot?⟩ =
      false := (isLeaf_slots ..).trans hleaf
  have hsize : 2 ^ (o + 1) = 2 * 2 ^ o := by rw [Nat.pow_succ, Nat.mul_comm]
  have hsearch := search_exact (n := m) hcell hinner hsize
  have hnone := fun tree start => place_eq_none_of_le (Nat.le_refl o) tree start s
  rw [place, hleaf, hnone, hnone, Nat.sub_self, if_neg (by simp)]
  cases l with
  | absent =>
    obtain ⟨t', hattach, hgraft⟩ := attach_grafted hs ho hcell hmem .left (half_pow o)
    refine ⟨t', hsearch.trans ((if_pos rfl).trans ?_), rfl, graft_left rfl hr ho hgraft⟩
    rw [hattach]
    rfl
  | node kl ll lr =>
    cases r with
    | absent =>
      obtain ⟨t', hattach, hgraft⟩ := attach_grafted hs ho hcell hmem .right (half_pow o)
      rw [startOf_right] at hgraft
      refine ⟨t', hsearch.trans ((if_neg (Option.some_ne_none _)).trans ((if_pos rfl).trans ?_)),
        rfl, graft_right (d := 0) rfl hl ho hgraft⟩
      rw [hattach]
      rfl
    | node kr rl rr =>
      exact hsearch.trans ((if_neg (Option.some_ne_none _)).trans
        (if_neg (Option.some_ne_none _)))

theorem double_lt (hlt : want < o) : 2 * 2 ^ want < 2 ^ (o + 1) := by
  rw [Nat.mul_comm, ← Nat.pow_succ]
  exact Nat.pow_lt_pow_right (by decide) (Nat.succ_lt_succ hlt)

theorem half_spine (hlt : want < o) : 2 ^ (o + 1) / 2 = 2 ^ (want + (o - want)) := by
  rw [Nat.add_sub_cancel' (Nat.le_of_lt hlt), half_pow]

/-- The search below a node whose left half is free: this is broken into if there is no place in the
right one. -/
theorem found_onlyRight {kr : Key} {rl rr : Tree} (hcell : t.cell? k.slot =
      some ⟨2 ^ (o + 1), start, k.generation, parent, none, some kr.slot⟩)
    (hfits : (node k absent (node kr rl rr)).Fits (o + 1))
    (hr : (node kr rl rr).Held t (some k.slot) o (start + 2 ^ o))
    (hs : s.Backs t) (ho : s.Owns ((node k absent (node kr rl rr)).keys ++ ks))
    (hlt : want < o) (hm : o < m)
    (hright : Found want m t kr.slot (some k.slot) o (start + 2 ^ o)
      (place want (node kr rl rr) o (start + 2 ^ o) s)) :
    Found want (m + 1) t k.slot parent (o + 1) start
      (place want (node k absent (node kr rl rr)) (o + 1) start s) := by
  have hsearch := search_onlyRight (n := m) hcell (double_lt hlt) rfl rfl
  rw [place, if_neg (by simp [Nat.le_of_lt hlt]),
    show place want absent o start s = none by rw [place]]
  cases hp : place want (node kr rl rr) o (start + 2 ^ o) s with
  | some p =>
    rw [hp] at hright
    obtain ⟨t', hfound, hslot, hheld, hstep⟩ := hright
    have hown := (place_placed hfits.2 hp).owns _ (ho.perm (perm_keys_right k absent _ ks))
    refine ⟨t', hsearch.trans ?_, rfl,
      found_right (l := absent) (r := node kr rl rr) hcell trivial hown hslot hheld hstep⟩
    rw [hfound]
    rfl
  | none =>
    rw [hp] at hright
    have hmem : k.slot ∈ ((node k absent (node kr rl rr)).keys ++ ks).map Key.slot := by simp
    obtain ⟨t', hspine, hgraft⟩ :=
      splitSpine_grafted (n := m) hs ho hcell hmem .left (half_spine hlt) (by omega)
    refine ⟨t', hsearch.trans ?_, rfl, graft_left (by omega) hr ho hgraft⟩
    rw [hright]
    exact (congrArg found hspine)

/-- The search below a node whose right half is free. -/
theorem found_onlyLeft {kl : Key} {ll lr : Tree} (hcell : t.cell? k.slot =
      some ⟨2 ^ (o + 1), start, k.generation, parent, some kl.slot, none⟩)
    (hfits : (node k (node kl ll lr) absent).Fits (o + 1))
    (hl : (node kl ll lr).Held t (some k.slot) o start)
    (hs : s.Backs t) (ho : s.Owns ((node k (node kl ll lr) absent).keys ++ ks))
    (hlt : want < o) (hm : o < m)
    (hleft : Found want m t kl.slot (some k.slot) o start
      (place want (node kl ll lr) o start s)) :
    Found want (m + 1) t k.slot parent (o + 1) start
      (place want (node k (node kl ll lr) absent) (o + 1) start s) := by
  have hsearch := search_onlyLeft (n := m) hcell (double_lt hlt) rfl rfl
  rw [place, if_neg (by simp [Nat.le_of_lt hlt])]
  cases hp : place want (node kl ll lr) o start s with
  | some p =>
    rw [hp] at hleft
    obtain ⟨t', hfound, hslot, hheld, hstep⟩ := hleft
    have hown := (place_placed hfits.1 hp).owns _ (ho.perm (perm_keys_left k _ absent ks))
    refine ⟨t', hsearch.trans ?_, rfl,
      found_left (l := node kl ll lr) (r := absent) hcell trivial hown hslot hheld hstep⟩
    rw [hfound]
    rfl
  | none =>
    rw [hp] at hleft
    have hmem : k.slot ∈ ((node k (node kl ll lr) absent).keys ++ ks).map Key.slot := by simp
    obtain ⟨t', hspine, hgraft⟩ :=
      splitSpine_grafted (n := m) hs ho hcell hmem .right (half_spine hlt) (by omega)
    rw [startOf_right] at hspine hgraft
    rw [show place want absent o (start + 2 ^ o) s = none by rw [place]]
    refine ⟨t', hsearch.trans ?_, rfl, graft_right (by omega) hl ho hgraft⟩
    rw [hleft]
    exact (congrArg found hspine)

/-- The search below a node whose halves are both partly used: the left one comes first. -/
theorem found_both {kl kr : Key} {ll lr rl rr : Tree} (hcell : t.cell? k.slot =
      some ⟨2 ^ (o + 1), start, k.generation, parent, some kl.slot, some kr.slot⟩)
    (hfits : (node k (node kl ll lr) (node kr rl rr)).Fits (o + 1))
    (hl : (node kl ll lr).Held t (some k.slot) o start)
    (hr : (node kr rl rr).Held t (some k.slot) o (start + 2 ^ o))
    (ho : s.Owns ((node k (node kl ll lr) (node kr rl rr)).keys ++ ks)) (hlt : want < o)
    (hleft : Found want m t kl.slot (some k.slot) o start
      (place want (node kl ll lr) o start s))
    (hright : Found want m t kr.slot (some k.slot) o (start + 2 ^ o)
      (place want (node kr rl rr) o (start + 2 ^ o) s)) :
    Found want (m + 1) t k.slot parent (o + 1) start
      (place want (node k (node kl ll lr) (node kr rl rr)) (o + 1) start s) := by
  have hsearch := search_both (n := m) hcell (double_lt hlt) rfl rfl
  rw [place, if_neg (by simp [Nat.le_of_lt hlt])]
  cases hp : place want (node kl ll lr) o start s with
  | some p =>
    rw [hp] at hleft
    obtain ⟨t', hfound, hslot, hheld, hstep⟩ := hleft
    have hown := (place_placed hfits.1 hp).owns _ (ho.perm (perm_keys_left k _ _ ks))
    refine ⟨t', hsearch.trans ?_, rfl,
      found_left (l := node kl ll lr) hcell hr hown hslot hheld hstep⟩
    rw [hfound]
    rfl
  | none =>
    rw [hp] at hleft
    cases hp' : place want (node kr rl rr) o (start + 2 ^ o) s with
    | some p =>
      rw [hp'] at hright
      obtain ⟨t', hfound, hslot, hheld, hstep⟩ := hright
      have hown := (place_placed hfits.2 hp').owns _ (ho.perm (perm_keys_right k _ _ ks))
      refine ⟨t', hsearch.trans ?_, rfl,
        found_right (r := node kr rl rr) hcell hl hown hslot hheld hstep⟩
      rw [hleft]
      exact hfound
    | none =>
      rw [hp'] at hright
      refine hsearch.trans ?_
      rw [hleft]
      exact hright

/-- The search below a node whose halves are larger than the block that is wanted: a half that is
partly used comes before a free one, and the left one before the right one. -/
theorem found_below (hcell : t.cell? k.slot =
      some ⟨2 ^ (o + 1), start, k.generation, parent, l.slot?, r.slot?⟩)
    (hfits : (node k l r).Fits (o + 1))
    (hl : l.Held t (some k.slot) o start) (hr : r.Held t (some k.slot) o (start + 2 ^ o))
    (hs : s.Backs t) (ho : s.Owns ((node k l r).keys ++ ks))
    (hleaf : (l.isAbsent && r.isAbsent) = false) (hlt : want < o) (hm : o < m)
    (hfl : ∀ i, l.slot? = some i →
      Found want m t i (some k.slot) o start (place want l o start s))
    (hfr : ∀ i, r.slot? = some i →
      Found want m t i (some k.slot) o (start + 2 ^ o) (place want r o (start + 2 ^ o) s)) :
    Found want (m + 1) t k.slot parent (o + 1) start
      (place want (node k l r) (o + 1) start s) := by
  cases l with
  | absent =>
    cases r with
    | absent => exact absurd hleaf (by simp)
    | node kr rl rr => exact found_onlyRight hcell hfits hr hs ho hlt hm (hfr _ rfl)
  | node kl ll lr =>
    cases r with
    | absent => exact found_onlyLeft hcell hfits hl hs ho hlt hm (hfl _ rfl)
    | node kr rl rr => exact found_both hcell hfits hl hr ho hlt (hfl _ rfl) (hfr _ rfl)

end Nodes

/-- **A search finds the place that `Tree.place` finds**, and touches nothing if there is none. -/
theorem search_found {want n order start : Nat} {tree : Tree} (hfits : tree.Fits order)
    {t : NodeTable} {parent : Option Nat} (hheld : tree.Held t parent order start) {s : Supply}
    {ks : List Key} (hs : s.Backs t) (ho : s.Owns (tree.keys ++ ks)) {i : Nat}
    (hi : tree.slot? = some i) (hn : order < n) :
    Found want n t i parent order start (place want tree order start s) := by
  induction tree generalizing n order start parent ks i with
  | absent => exact absurd hi (by simp [Tree.slot?])
  | node k l r ihl ihr =>
    obtain rfl := Option.some.inj hi
    obtain ⟨m, rfl⟩ : ∃ m, n = m + 1 := ⟨n - 1, by omega⟩
    cases order with
    | zero =>
      obtain ⟨rfl, rfl⟩ := hfits
      exact search_leaf hheld.1 rfl rfl
    | succ o =>
      obtain ⟨hcell, hl, hr⟩ := hheld
      change l.Held t (some k.slot) o start at hl
      change r.Held t (some k.slot) o (start + 2 ^ o) at hr
      cases hleaf : l.isAbsent && r.isAbsent with
      | true =>
        obtain ⟨rfl, rfl⟩ := eq_absent_of_isAbsent_and hleaf
        rw [place, if_pos (by simp)]
        exact search_leaf hcell rfl rfl
      | false =>
        rcases Nat.lt_trichotomy o want with hlt | rfl | hgt
        · have hinner : Cell.isLeaf
              ⟨2 ^ (o + 1), start, k.generation, parent, l.slot?, r.slot?⟩ = false :=
            (isLeaf_slots ..).trans hleaf
          have hsize : 2 ^ (o + 1) < 2 * 2 ^ want := by
            rw [Nat.mul_comm, ← Nat.pow_succ]
            exact Nat.pow_lt_pow_right (by decide) (by omega)
          rw [place, if_pos (by simp [hlt])]
          exact search_small hcell hinner hsize
        · exact found_exact hcell hl hr hs ho hleaf
        · exact found_below hcell hfits hl hr hs ho hleaf hgt (by omega)
            (fun i h => ihl hfits.1 hl (ho.perm (perm_keys_left k l r ks)) h (by omega))
            (fun i h => ihr hfits.2 hr (ho.perm (perm_keys_right k l r ks)) h (by omega))

/-! ## Blocks in a table -/

/-- The cell of a block: it has no children, and is what the block says. -/
theorem cell?_of_mem_blocks {t : NodeTable} {tree : Tree} {parent : Option Nat}
    {order start : Nat} (hfits : tree.Fits order) (h : tree.Held t parent order start) {b : Block}
    (hb : b ∈ tree.blocks order start) :
    ∃ parent', t.cell? b.key.slot =
      some ⟨b.size, b.start, b.key.generation, parent', none, none⟩ := by
  induction tree, order, hfits using fits_induction generalizing parent start with
  | absent order => exact absurd hb List.not_mem_nil
  | leaf k order =>
    rw [blocks_leaf, List.mem_singleton] at hb
    subst hb
    exact ⟨parent, h.1⟩
  | inner k l r o hfl hfr hleaf ihl ihr =>
    obtain ⟨-, hl, hr⟩ := h
    rw [blocks_node hleaf, List.mem_append] at hb
    rcases hb with hb | hb
    · exact ihl hl hb
    · exact ihr hr hb

/-- The block of a cell is read off the table. -/
theorem blockAt_of_mem_blocks {t : NodeTable} {tree : Tree} {parent : Option Nat}
    {order start : Nat} (hfits : tree.Fits order) (h : tree.Held t parent order start) {b : Block}
    (hb : b ∈ tree.blocks order start) : t.blockAt b.key.slot = some b := by
  obtain ⟨parent', hcell⟩ := cell?_of_mem_blocks hfits h hb
  rw [blockAt, hcell, Option.map_some, Block.size, Nat.log2_two_pow]

/-! ## Allocation -/

/-- The root and what is below it are made as `Tree.spine` makes them. -/
theorem firstNode_held {want d : Nat} {t : NodeTable} {s : Supply} (hs : s.Backs t)
    (ho : s.Owns []) (hcap : t.capacity = 2 ^ (want + d)) :
    ∃ t', t.firstNode (2 ^ want) = some ((spine want 0 d s).block.key.slot, t') ∧
      (spine want 0 d s).tree.Held t' none (want + d) 0 ∧ (spine want 0 d s).supply.Backs t' ∧
      t'.capacity = t.capacity ∧ t'.root = (spine want 0 d s).tree.slot? := by
  obtain ⟨hslot, hcell, hstep⟩ := newNode_step hs ho t.capacity 0 none
  unfold firstNode
  simp only []
  rw [hslot]
  cases d with
  | zero =>
    rw [if_pos (show 2 ^ want = t.capacity from hcap.symm)]
    refine ⟨_, rfl, ⟨?_, trivial, trivial⟩, ?_, hstep.capacity, rfl⟩
    · exact hcell.trans (by rw [hcap]; rfl)
    · exact ⟨hstep.backs.released, hstep.backs.slots, hstep.backs.generation, hstep.backs.empty⟩
  | succ d =>
    have hne : 2 ^ want ≠ t.capacity := by
      rw [hcap]
      exact Nat.ne_of_lt (Nat.pow_lt_pow_right (by decide) (by omega))
    rw [if_neg hne]
    have hhalf : t.capacity / 2 = 2 ^ (want + d) := by
      rw [hcap]
      exact half_pow (want + d)
    have hlevels : d < t.levels := by
      rw [levels, hcap, Nat.log2_two_pow]
      omega
    have hbacks : s.take.2.Backs
        { (t.newNode t.capacity 0 none).2 with root := some s.take.1.slot } :=
      ⟨hstep.backs.released, hstep.backs.slots, hstep.backs.generation, hstep.backs.empty⟩
    obtain ⟨t', hspine, hgraft⟩ :=
      splitSpine_grafted hbacks ho.take hcell List.mem_cons_self .left hhalf hlevels
    refine ⟨t', hspine, ⟨?_, hgraft.held, trivial⟩, hgraft.step.backs,
      hgraft.step.capacity.trans hstep.capacity, hgraft.step.root⟩
    exact hgraft.link.trans (by rw [hcap]; rfl)

/-- The block of a placed tree is read off the table. -/
theorem blockAt_placed {want order start : Nat} {tree : Tree} {s : Supply} {p : Placement}
    (hp : Placed want tree order start s p) {t : NodeTable} {parent : Option Nat}
    (hheld : p.tree.Held t parent order start) : t.blockAt p.block.key.slot = some p.block :=
  blockAt_of_mem_blocks hp.fits hheld (hp.blocks.symm.subset List.mem_cons_self)

theorem Represents.levels_eq {t : NodeTable} {b : Buddy} (h : t.Represents b) :
    t.levels = b.order + 1 := by
  rw [levels, h.capacity, Buddy.capacity, Nat.log2_two_pow]

theorem Represents.capacity_lt_iff {t : NodeTable} {b : Buddy} (h : t.Represents b) {n : Nat} :
    t.capacity < 2 ^ n ↔ b.order < n := by
  rw [h.capacity, Buddy.capacity]
  exact Nat.pow_lt_pow_iff_right (by decide)

/-- A search from the root of a table. -/
theorem Represents.search_found {t : NodeTable} {b : Buddy} (h : t.Represents b) (hb : b.Sound)
    {i : Nat} (hroot : b.root.slot? = some i) (want : Nat) :
    Found want t.levels t i none b.order 0 (place want b.root b.order 0 b.supply) := by
  have hown : b.supply.Owns (b.root.keys ++ []) := by
    rw [List.append_nil]
    exact hb.owns
  have hlevels : b.order < t.levels := by
    rw [h.levels_eq]
    exact Nat.lt_succ_self _
  exact NodeTable.search_found hb.fits h.held h.backs hown hroot hlevels

/-- **A request is answered by the table as by the arena.** -/
theorem Represents.allocate? {t : NodeTable} {b : Buddy} (h : t.Represents b) (hb : b.Sound)
    (bytes : Nat) :
    ∃ t', t.allocate? bytes = some ((b.allocate? bytes).map Prod.fst, t') ∧
      t'.Represents (((b.allocate? bytes).map Prod.snd).getD b) := by
  have hcap : t.capacity = 2 ^ b.order := h.capacity
  unfold NodeTable.allocate? Buddy.allocate?
  simp only []
  by_cases hlt : b.order < orderFor bytes
  · rw [if_pos hlt, if_pos (h.capacity_lt_iff.mpr hlt)]
    exact ⟨t, rfl, h⟩
  · have hle : orderFor bytes ≤ b.order := Nat.le_of_not_lt hlt
    have hwant : orderFor bytes + (b.order - orderFor bytes) = b.order := Nat.add_sub_cancel' hle
    rw [if_neg hlt, if_neg (mt h.capacity_lt_iff.mp hlt), h.root]
    cases hroot : b.root with
    | absent =>
      have ho : b.supply.Owns [] := by
        have howns := hb.owns
        rw [hroot] at howns
        exact howns
      obtain ⟨t', hfirst, hheld, hbacks, hcap', hroot'⟩ :=
        firstNode_held h.backs ho (hcap.trans (congrArg (2 ^ ·) hwant.symm))
      have hplaced := spine_placed (orderFor bytes) 0 (b.order - orderFor bytes) b.supply
      refine ⟨t', ?_, hcap'.trans h.capacity, hroot', hbacks, ?_⟩
      · show ((t.firstNode (2 ^ orderFor bytes)).bind _) = _
        rw [hfirst, Option.bind_some, blockAt_placed hplaced hheld]
        rfl
      · rw [hwant] at hheld
        exact hheld
    | node k l r =>
      have hsearch := h.search_found hb (i := k.slot) (by rw [hroot]; rfl) (orderFor bytes)
      have hfits : (node k l r).Fits b.order := hroot ▸ hb.fits
      rw [hroot] at hsearch
      rw [if_neg (by simp)]
      cases hp : place (orderFor bytes) (node k l r) b.order 0 b.supply with
      | none =>
        rw [hp] at hsearch
        refine ⟨t, ?_, h⟩
        show ((search (2 ^ orderFor bytes) t.levels t k.slot).bind _) = _
        rw [hsearch]
        rfl
      | some p =>
        rw [hp] at hsearch
        obtain ⟨t', hfound, hslot, hheld, hstep⟩ := hsearch
        refine ⟨t', ?_, hstep.capacity.trans h.capacity, ?_, hstep.backs, hheld⟩
        · show ((search (2 ^ orderFor bytes) t.levels t k.slot).bind _) = _
          rw [hfound, Option.bind_some]
          simp only []
          rw [blockAt_placed (place_placed hfits hp) hheld]
          rfl
        · rw [hstep.root, h.root, hroot]
          exact hslot.symm

end NodeTable
end Buddy
end Uniprocessor
