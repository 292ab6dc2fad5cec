import Uniprocessor.Proofs.Memory.Sound

/-!
# Arenas that differ in generations

The slot of a node can be seen from outside, by which slots are given out next; its generation cannot,
since generations are only compared with each other.  So an arena behaves as before if from some
generation on all of them are higher by the same number, as they are once nodes have been made and taken
back.  It also makes no difference if slots that have not been given out yet are listed as released,
behind all others: they come up in the same order.

A `Guise` says how generations differ.  It has a delay as well, which is for ticks and means nothing
here: machines are compared under the same guise, and in them both occur.

* `Key.under`, `Block.under`, `Tree.under`: the same with generations renamed;
* `Buddy.Guised`: an arena is another one under a guise;
* `Buddy.Guised.allocate?`, `Buddy.Guised.free`: **then both answer the same requests alike**, and stay
  so.
-/

namespace Uniprocessor

/-- How a state differs from another one that nobody can tell from it: ticks are higher by `delay`, and
generations of nodes, from `since` on, by `burnt`. -/
structure Guise where
  delay : Nat
  since : Nat
  burnt : Nat

/-- The generation that stands for another one. -/
def Guise.generation (g : Guise) (n : Nat) : Nat :=
  if n < g.since then n else n + g.burnt

theorem Guise.generation_inj {g : Guise} {n n' : Nat} (h : g.generation n = g.generation n') :
    n = n' := by
  unfold Guise.generation at h
  split at h <;> split at h <;> omega

theorem Guise.generation_succ {g : Guise} {n : Nat} (h : g.since ≤ n) :
    g.generation (n + 1) = g.generation n + 1 := by
  unfold Guise.generation
  rw [if_neg (by omega), if_neg (by omega)]
  omega

namespace Buddy

variable {g : Guise}

/-- A key with its generation renamed. -/
def Key.under (g : Guise) (k : Key) : Key :=
  { k with generation := g.generation k.generation }

theorem Key.under_inj {k k' : Key} : k.under g = k'.under g ↔ k = k' := by
  constructor
  · rintro h
    have hslot : (k.under g).slot = (k'.under g).slot := congrArg Key.slot h
    have hgeneration := Guise.generation_inj (congrArg Key.generation h)
    cases k
    cases k'
    rw [Key.mk.injEq]
    exact ⟨hslot, hgeneration⟩
  · rintro rfl
    rfl

/-- A block with its generation renamed: it covers the same addresses. -/
def Block.under (g : Guise) (b : Block) : Block :=
  { b with key := b.key.under g }

/-! ## Supplies -/

/-- The supply `s'` gives out the same slots as `s`, in the same order, and keys of renamed generations:
slots that have not been given out yet may be listed as released. -/
structure Supply.Guised (g : Guise) (s s' : Supply) : Prop where
  since : g.since ≤ s.generation
  generation : s'.generation = g.generation s.generation
  spare : ∃ n, s'.released = s.released ++ List.range' s.slots n ∧ s'.slots = s.slots + n

namespace Supply.Guised

variable {s s' : Supply}

theorem take (h : s.Guised g s') :
    s'.take.1 = s.take.1.under g ∧ s.take.2.Guised g s'.take.2 := by
  obtain ⟨n, hreleased, hslots⟩ := h.spare
  have hsince := Nat.le_succ_of_le h.since
  have hgeneration : s'.generation + 1 = g.generation (s.generation + 1) := by
    rw [h.generation, Guise.generation_succ h.since]
  unfold Supply.take
  cases hs : s.released with
  | cons slot rest =>
    rw [hs, List.cons_append] at hreleased
    rw [hreleased]
    exact ⟨by rw [h.generation]; rfl, hsince, hgeneration, n, rfl, hslots⟩
  | nil =>
    rw [hs, List.nil_append] at hreleased
    cases n with
    | zero =>
      rw [hreleased, List.range'_zero]
      refine ⟨?_, hsince, hgeneration, 0, by simp, congrArg (· + 1) hslots⟩
      rw [h.generation, hslots]
      rfl
    | succ n =>
      rw [hreleased, List.range'_succ]
      refine ⟨by rw [h.generation]; rfl, hsince, hgeneration, n, by simp, ?_⟩
      show s'.slots = s.slots + 1 + n
      omega

theorem release (h : s.Guised g s') (slots : List Nat) :
    (s.release slots).Guised g (s'.release slots) := by
  obtain ⟨n, hreleased, hslots⟩ := h.spare
  refine ⟨h.since, h.generation, n, ?_, hslots⟩
  show slots ++ s'.released = slots ++ s.released ++ _
  rw [hreleased, List.append_assoc]
  rfl

/-- As many slots hold a node. -/
theorem inUse (h : s.Guised g s') :
    s'.slots - s'.released.length = s.slots - s.released.length := by
  obtain ⟨n, hreleased, hslots⟩ := h.spare
  rw [hreleased, hslots, List.length_append, List.length_range', Nat.add_sub_add_right]

end Supply.Guised

/-! ## Trees -/

namespace Tree

/-- A tree with its generations renamed. -/
def under (g : Guise) : Tree → Tree
  | absent => absent
  | node key left right => node (key.under g) (left.under g) (right.under g)

@[simp] theorem isAbsent_under (t : Tree) : (t.under g).isAbsent = t.isAbsent := by
  cases t <;> rfl

theorem find?_under (key : Key) (t : Tree) :
    find? (key.under g) (t.under g) = (find? key t).map (under g) := by
  induction t with
  | absent => rfl
  | node k left right ihl ihr =>
    simp only [under, find?, Key.under_inj]
    by_cases hk : k = key
    · rw [if_pos hk, if_pos hk]
      rfl
    · rw [if_neg hk, if_neg hk, ihl, ihr]
      cases find? key left <;> rfl

theorem join_under (key : Key) (left right : Tree) (released : List Nat) :
    join (key.under g) (left.under g) (right.under g) released =
      ((join key left right released).1.under g, (join key left right released).2) := by
  unfold join
  rw [isAbsent_under, isAbsent_under]
  cases left.isAbsent && right.isAbsent <;> rfl

theorem prune_under (key : Key) (t : Tree) :
    prune (key.under g) (t.under g) =
      (prune key t).map fun (t', released) => (t'.under g, released) := by
  induction t with
  | absent => rfl
  | node k left right ihl ihr =>
    simp only [under, prune, Key.under_inj, isAbsent_under]
    by_cases hk : k = key
    · rw [if_pos hk, if_pos hk]
      cases left.isAbsent && right.isAbsent <;> rfl
    · rw [if_neg hk, if_neg hk, ihl, ihr]
      cases prune key left with
      | some out => exact congrArg some (join_under k out.1 right out.2)
      | none =>
        cases prune key right with
        | some out => exact congrArg some (join_under k left out.1 out.2)
        | none => rfl

theorem blocks_under (t : Tree) (order start : Nat) :
    (t.under g).blocks order start = (t.blocks order start).map (Block.under g) := by
  induction t generalizing order start with
  | absent => rfl
  | node k left right ihl ihr =>
    simp only [under, blocks, isAbsent_under]
    cases left.isAbsent && right.isAbsent with
    | true => rfl
    | false =>
      rw [if_neg Bool.false_ne_true, if_neg Bool.false_ne_true, ihl, ihr, List.map_append]

/-- A tree whose keys are all too old to be renamed. -/
theorem under_of_older {t : Tree} (h : ∀ k ∈ t.keys, k.generation < g.since) : t.under g = t := by
  induction t with
  | absent => rfl
  | node k left right ihl ihr =>
    rw [keys_node, List.forall_mem_cons] at h
    obtain ⟨hk, hothers⟩ := h
    have hkey : k.under g = k :=
      congrArg (Key.mk k.slot) (if_pos hk : g.generation k.generation = k.generation)
    rw [under, hkey, ihl fun k hk => hothers k (List.mem_append_left _ hk),
      ihr fun k hk => hothers k (List.mem_append_right _ hk)]

/-- A placement is another one under a guise. -/
structure Placement.Guised (g : Guise) (p p' : Placement) : Prop where
  tree : p'.tree = p.tree.under g
  block : p'.block = p.block.under g
  supply : p.supply.Guised g p'.supply

theorem spine_guised {s s' : Supply} (h : s.Guised g s') (order start depth : Nat) :
    (spine order start depth s).Guised g (spine order start depth s') := by
  induction depth generalizing s s' with
  | zero =>
    obtain ⟨hkey, hsupply⟩ := h.take
    refine ⟨?_, ?_, hsupply⟩
    · rw [spine, hkey]
      rfl
    · rw [spine, hkey]
      rfl
  | succ depth ih =>
    obtain ⟨hkey, hsupply⟩ := h.take
    have hbelow := ih hsupply
    refine ⟨?_, hbelow.block, hbelow.supply⟩
    rw [spine, hkey, hbelow.tree]
    rfl

/-- **A place is found in a tree exactly if one is found in the same tree with its generations renamed**,
and it is the same place. -/
theorem place_guised {s s' : Supply} (h : s.Guised g s') (want : Nat) (t : Tree)
    (order start : Nat) :
    Option.Rel (Placement.Guised g) (place want t order start s)
      (place want (t.under g) order start s') := by
  induction t generalizing order start with
  | absent => exact .none
  | node key left right ihl ihr =>
    cases order with
    | zero => exact .none
    | succ order =>
      have hleft := ihl order start
      have hright := ihr order (start + 2 ^ order)
      simp only [place, under, isAbsent_under]
      by_cases hsmall : ((left.isAbsent && right.isAbsent) || decide (order < want)) = true
      · rw [if_pos hsmall, if_pos hsmall]
        exact .none
      rw [if_neg hsmall, if_neg hsmall]
      generalize place want left order start s = x at hleft ⊢
      generalize place want (left.under g) order start s' = x' at hleft ⊢
      generalize place want right order (start + 2 ^ order) s = y at hright ⊢
      generalize place want (right.under g) order (start + 2 ^ order) s' = y' at hright ⊢
      cases hleft with
      | @some p p' hp => exact .some ⟨by rw [under, hp.tree], hp.block, hp.supply⟩
      | none =>
        cases hright with
        | @some p p' hp => exact .some ⟨by rw [under, hp.tree], hp.block, hp.supply⟩
        | none =>
          have hspine := fun start => spine_guised h want start (order - want)
          cases left.isAbsent with
          | true => exact .some ⟨by rw [under, (hspine start).tree], (hspine start).block,
              (hspine start).supply⟩
          | false =>
            cases right.isAbsent with
            | true => exact .some ⟨by rw [under, (hspine _).tree], (hspine _).block,
                (hspine _).supply⟩
            | false => exact .none

end Tree

/-! ## Arenas -/

/-- The arena `b'` is `b` under a guise. -/
structure Guised (g : Guise) (b b' : Buddy) : Prop where
  order : b'.order = b.order
  root : b'.root = b.root.under g
  supply : b.supply.Guised g b'.supply

namespace Guised

variable {b b' : Buddy}

/-- The same blocks are in use. -/
theorem blocks (h : b.Guised g b') : b'.blocks = b.blocks.map (Block.under g) := by
  rw [Buddy.blocks, h.root, h.order, Tree.blocks_under]
  rfl

theorem ranges (h : b.Guised g b') : b'.ranges = b.ranges := by
  rw [Buddy.ranges, h.blocks, List.map_map]
  rfl

theorem nodeCount (h : b.Guised g b') : b'.nodeCount = b.nodeCount :=
  h.supply.inUse

/-- **A request for memory is answered alike.** -/
theorem allocate? (h : b.Guised g b') (size : Nat) :
    Option.Rel (fun x x' => x'.1 = x.1.under g ∧ x.2.Guised g x'.2) (b.allocate? size)
      (b'.allocate? size) := by
  unfold Buddy.allocate?
  rw [h.order, h.root, Tree.isAbsent_under]
  by_cases hlarge : b.order < orderFor size
  · rw [if_pos hlarge, if_pos hlarge]
    exact .none
  rw [if_neg hlarge, if_neg hlarge]
  cases b.root.isAbsent with
  | true =>
    have hp := Tree.spine_guised h.supply (orderFor size) 0 (b.order - orderFor size)
    exact .some ⟨hp.block, rfl, hp.tree, hp.supply⟩
  | false =>
    have hplaced := Tree.place_guised h.supply (orderFor size) b.root b.order 0
    simp only [Bool.false_eq_true, if_false]
    generalize b.root.place (orderFor size) b.order 0 b.supply = x at hplaced ⊢
    generalize (b.root.under g).place (orderFor size) b.order 0 b'.supply = x' at hplaced ⊢
    cases hplaced with
    | @some p p' hp => exact .some ⟨hp.block, rfl, hp.tree, hp.supply⟩
    | none => exact .none

/-- **A block is taken back by both, or refused by both for the same reason.** -/
theorem free (h : b.Guised g b') (block : Block) :
    (∃ cause, b.free block = .error (.memory cause) ∧
        b'.free (block.under g) = .error (.memory cause)) ∨
      ∃ m m', b.free block = .ok m ∧ b'.free (block.under g) = .ok m' ∧ m.Guised g m' := by
  unfold Buddy.free
  rw [h.root]
  simp only [Block.under, Tree.find?_under, Tree.prune_under]
  cases b.root.find? block.key with
  | none => exact Or.inl ⟨_, rfl, rfl⟩
  | some t =>
    cases b.root.prune block.key with
    | none => exact Or.inl ⟨_, rfl, rfl⟩
    | some out =>
      exact Or.inr ⟨_, _, rfl, rfl, h.order, rfl, h.supply.release out.2⟩

end Guised

end Buddy
end Uniprocessor
