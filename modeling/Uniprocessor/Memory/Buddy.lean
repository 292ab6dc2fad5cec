import Uniprocessor.Failure
import Uniprocessor.Memory.Range

/-!
# Buddy allocation

An arena of `2^order` bytes is halved again and again down to the sizes that are asked for.  The
halvings in use form a binary tree: a node covers an aligned power of two of bytes, its children
the two halves of it.  A node without children is a block in use; every other node has at least one
child, and a missing child is a free half.  The tree exists only while something is in use.

## Where a block goes

A request is rounded up to a power of two.  Starting at the root, a half that is partly used is
searched before a free half is broken into, the left one before the right one; so small blocks fill
up the gaps between others first.  A free half is broken into along its left edge.

## What a block carries

Nodes have a slot number and a generation.  Slot numbers are reused, the one released last first;
generations are counted up and never repeat.  A block quotes both, so that releasing it a second
time, or after its slot has been given to another node, is noticed.

* `Buddy.Tree` --- the tree, `place` and `prune` its two operations;
* `Buddy` --- an arena; `allocate?` and `free`;
* `Buddy.blocks` --- the blocks in use, in address order.
-/

namespace Uniprocessor

namespace Buddy

/-- What identifies a node: its slot, and the number of nodes made before it. -/
structure Key where
  slot : Nat
  generation : Nat
  deriving Repr, DecidableEq

/-- A block in use or formerly in use: its node, the binary logarithm of its size, and its first
address. -/
structure Block where
  key : Key
  order : Nat
  start : Nat
  deriving Repr, DecidableEq

namespace Block

/-- Number of bytes. -/
def size (b : Block) : Nat :=
  2 ^ b.order

/-- The last address. -/
def last (b : Block) : Nat :=
  b.start + b.size - 1

/-- The addresses of a block. -/
def range (b : Block) : Range :=
  ⟨b.size, b.start, b.last⟩

end Block

/-- The keys that new nodes get: released slots, the last one first, then fresh slots. -/
structure Supply where
  released : List Nat
  slots : Nat
  generation : Nat
  deriving Repr, DecidableEq

/-- The key of the next node. -/
def Supply.take (s : Supply) : Key × Supply :=
  match s.released with
  | slot :: rest =>
    (⟨slot, s.generation⟩, { s with released := rest, generation := s.generation + 1 })
  | [] => (⟨s.slots, s.generation⟩, { s with slots := s.slots + 1, generation := s.generation + 1 })

/-- The halvings in use below a node, which may itself be missing. -/
inductive Tree where
  | absent
  | node (key : Key) (left right : Tree)
  deriving Repr, DecidableEq

namespace Tree

/-- Whether there is no node. -/
def isAbsent : Tree → Bool
  | absent => true
  | node .. => false

/-- A tree with a new block in it, the block, and the keys that are left. -/
structure Placement where
  tree : Tree
  block : Block
  supply : Supply

/-- Breaks into a free stretch that is `depth` halvings larger than a block of the given order,
along its left edge.  Nodes get their keys from the top down. -/
def spine (order start : Nat) : Nat → Supply → Placement
  | 0, supply => ⟨node supply.take.1 absent absent, ⟨supply.take.1, order, start⟩, supply.take.2⟩
  | depth + 1, supply =>
    let below := spine order start depth supply.take.2
    { below with tree := node supply.take.1 below.tree absent }

/-- Puts a block of order `want` into the tree of a node of the given order that starts at `start`.
A missing node, a block, and a node too small to hold it in one half have no place. -/
def place (want : Nat) : Tree → Nat → Nat → Supply → Option Placement
  | absent, _, _, _ => none
  | node _ _ _, 0, _, _ => none
  | node key left right, order + 1, start, supply =>
    if (left.isAbsent && right.isAbsent) || order < want then none
    else
      match place want left order start supply with
      | some p => some { p with tree := node key p.tree right }
      | none =>
        match place want right order (start + 2 ^ order) supply with
        | some p => some { p with tree := node key left p.tree }
        | none =>
          if left.isAbsent then
            let p := spine want start (order - want) supply
            some { p with tree := node key p.tree right }
          else if right.isAbsent then
            let p := spine want (start + 2 ^ order) (order - want) supply
            some { p with tree := node key left p.tree }
          else none

/-- The node with a key, with everything below it. -/
def find? (key : Key) : Tree → Option Tree
  | absent => none
  | node k left right =>
    if k = key then some (node k left right)
    else
      match find? key left with
      | some t => some t
      | none => find? key right

/-- A node after something below it was taken out: it goes too if nothing is left below it.  The
released slots are listed with the last one first. -/
def join (key : Key) (left right : Tree) (released : List Nat) : Tree × List Nat :=
  if left.isAbsent && right.isAbsent then (absent, key.slot :: released)
  else (node key left right, released)

/-- Takes out the block with a key, and the nodes above it that have no other child. -/
def prune (key : Key) : Tree → Option (Tree × List Nat)
  | absent => none
  | node k left right =>
    if k = key then
      if left.isAbsent && right.isAbsent then some (absent, [k.slot]) else none
    else
      match prune key left with
      | some (t, released) => some (join k t right released)
      | none =>
        match prune key right with
        | some (t, released) => some (join k left t released)
        | none => none

/-- The blocks in the tree of a node of the given order that starts at `start`, in address
order. -/
def blocks : Tree → Nat → Nat → List Block
  | absent, _, _ => []
  | node key left right, order, start =>
    if left.isAbsent && right.isAbsent then [⟨key, order, start⟩]
    else
      blocks left (order - 1) start ++ blocks right (order - 1) (start + 2 ^ (order - 1))

end Tree

end Buddy

/-- An arena of `2^order` bytes. -/
structure Buddy where
  order : Nat
  root : Buddy.Tree
  supply : Buddy.Supply
  deriving Repr, DecidableEq

namespace Buddy

/-- An arena with nothing in use. -/
def ofOrder (order : Nat) : Buddy :=
  ⟨order, .absent, ⟨[], 0, 0⟩⟩

/-- An arena of the given number of bytes, which must be a power of two. -/
def ofCapacity (capacity : Nat) : Except Failure Buddy :=
  if isPowerOfTwo capacity then .ok (ofOrder capacity.log2)
  else .error (.memory (.badCapacity capacity))

/-- The arena that is used where no size is given. -/
def standard : Buddy :=
  ofOrder 10

/-- Number of bytes of the arena. -/
def capacity (b : Buddy) : Nat :=
  2 ^ b.order

/-- Whether nothing is in use. -/
def isEmpty (b : Buddy) : Bool :=
  b.root.isAbsent

/-- The order of the least block that holds `size` bytes; no request is smaller than one byte. -/
def orderFor (size : Nat) : Nat :=
  if size ≤ 1 then 0 else (size - 1).log2 + 1

/-- The size of the least block that holds `size` bytes, if it fits a word. -/
def blockSize? (size : Nat) : Option Nat :=
  if orderFor size < 64 then some (2 ^ orderFor size) else none

/-- The keys of the arena after released slots have come back. -/
def Supply.release (s : Supply) (released : List Nat) : Supply :=
  { s with released := released ++ s.released }

/-- Reserves a block for `size` bytes, if there is a place for one. -/
def allocate? (b : Buddy) (size : Nat) : Option (Block × Buddy) :=
  let want := orderFor size
  if b.order < want then none
  else
    let placed :=
      if b.root.isAbsent then some (Tree.spine want 0 (b.order - want) b.supply)
      else b.root.place want b.order 0 b.supply
    placed.map fun p => (p.block, { b with root := p.tree, supply := p.supply })

/-- Gives a block back.  It must still be the one that its key belongs to. -/
def free (b : Buddy) (block : Block) : Except Failure Buddy :=
  match b.root.find? block.key with
  | none => .error (.memory (.notAllocated block.start block.last))
  | some _ =>
    match b.root.prune block.key with
    | none => .error (.memory (.split block.start block.last))
    | some (root, released) =>
      .ok { b with root := root, supply := b.supply.release released }

/-- The blocks in use, in address order. -/
def blocks (b : Buddy) : List Block :=
  b.root.blocks b.order 0

/-- The address ranges in use, in address order. -/
def ranges (b : Buddy) : List Range :=
  b.blocks.map Block.range

/-- Number of bytes in use. -/
def allocatedBytes (b : Buddy) : Nat :=
  (b.blocks.map Block.size).sum

/-- Number of slots that hold a node. -/
def nodeCount (b : Buddy) : Nat :=
  b.supply.slots - b.supply.released.length

end Buddy

end Uniprocessor
