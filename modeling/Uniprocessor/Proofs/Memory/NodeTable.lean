import Uniprocessor.Proofs.Memory.Sound

/-!
# Halving trees in numbered slots

The halving tree of an arena, stored the way a machine stores it: a table of cells, each of which
names its parent and its children by slot number.  Nothing in the type says that a slot named by a
link holds a cell.  So every look-up may fail, and an operation that follows a link into an empty
slot has no result at all.

The operations are those of `Buddy`, link by link: a request walks down from the root, a release
walks up from the block.  Walks are bounded by the number of levels of the arena; a walk that is
longer has no result either.

* `NodeTable.allocate?`, `free`, `ranges?` --- the operations; the outer option is `none` where a
  link dangles;
* `Tree.Held` --- a table holds a tree below a given parent;
* `Supply.Backs` --- a table has the slots that a supply says it has;
* `NodeTable.Represents` --- a table holds an arena.
-/

namespace Uniprocessor
namespace Buddy

/-- A node in a slot: what it covers, its generation, and its links. -/
structure Cell where
  size : Nat
  start : Nat
  generation : Nat
  parent : Option Nat
  left : Option Nat
  right : Option Nat
  deriving Repr, DecidableEq

/-- Which half of a node. -/
inductive Side where
  | left
  | right
  deriving Repr, DecidableEq

namespace Cell

/-- Whether there is nothing below a node, so that it is a block. -/
def isLeaf (c : Cell) : Bool :=
  c.left.isNone && c.right.isNone

/-- The link to a child. -/
def child (c : Cell) : Side → Option Nat
  | .left => c.left
  | .right => c.right

/-- Changes the link to a child. -/
def setChild (c : Cell) (side : Side) (link : Option Nat) : Cell :=
  match side with
  | .left => { c with left := link }
  | .right => { c with right := link }

/-- Where a half of a node starts. -/
def startOf (c : Cell) : Side → Nat
  | .left => c.start
  | .right => c.start + c.size / 2

end Cell

/-- The nodes of an arena in numbered slots. -/
structure NodeTable where
  capacity : Nat
  cells : List (Option Cell)
  /-- The empty slots, the one released last first. -/
  released : List Nat
  root : Option Nat
  generation : Nat
  deriving Repr, DecidableEq

namespace NodeTable

/-- The table without nodes. -/
def ofOrder (order : Nat) : NodeTable :=
  ⟨2 ^ order, [], [], none, 0⟩

/-- The node in a slot. -/
def cell? (t : NodeTable) (i : Nat) : Option Cell :=
  t.cells[i]?.join

/-- Overwrites a slot. -/
def put (t : NodeTable) (i : Nat) (c : Option Cell) : NodeTable :=
  { t with cells := t.cells.set i c }

/-- How many nodes there can be one below the other. -/
def levels (t : NodeTable) : Nat :=
  t.capacity.log2 + 1

/-- Makes a node without children, in the slot released last or else in a new one. -/
def newNode (t : NodeTable) (size start : Nat) (parent : Option Nat) : Nat × NodeTable :=
  let cell : Cell := ⟨size, start, t.generation, parent, none, none⟩
  match t.released with
  | slot :: rest =>
    (slot, { t.put slot (some cell) with released := rest, generation := t.generation + 1 })
  | [] =>
    (t.cells.length, { t with cells := t.cells ++ [some cell], generation := t.generation + 1 })

/-- Makes a child of a node. -/
def attach (t : NodeTable) (parent : Nat) (side : Side) : Option (Nat × NodeTable) :=
  (t.cell? parent).bind fun p =>
    let made := t.newNode (p.size / 2) (p.startOf side) (some parent)
    (made.2.cell? parent).map fun p =>
      (made.1, made.2.put parent (some (p.setChild side (some made.1))))

/-- Makes a child of a node, and goes on halving it along its left edge down to a size. -/
def splitSpine (size : Nat) : Nat → NodeTable → Nat → Side → Option (Nat × NodeTable)
  | 0, _, _, _ => none
  | n + 1, t, parent, side =>
    (t.attach parent side).bind fun (child, t) =>
      (t.cell? child).bind fun c =>
        if size < c.size then splitSpine size n t child .left else some (child, t)

/-- A search that has found a node. -/
def found (x : Option (Nat × NodeTable)) : Option (Option Nat × NodeTable) :=
  x.map fun (child, t) => (some child, t)

/-- Goes on with another search where the first one has found nothing. -/
def orElse (x : Option (Option Nat × NodeTable))
    (next : NodeTable → Option (Option Nat × NodeTable)) : Option (Option Nat × NodeTable) :=
  x.bind fun (child?, t) =>
    match child? with
    | some child => some (some child, t)
    | none => next t

/-- Looks below a node for a free stretch of a size, and makes a node there. -/
def search (size : Nat) : Nat → NodeTable → Nat → Option (Option Nat × NodeTable)
  | 0, _, _ => none
  | n + 1, t, i =>
    (t.cell? i).bind fun c =>
      if c.isLeaf then some (none, t)
      else if c.size = 2 * size then
        match c.left, c.right with
        | none, _ => found (t.attach i .left)
        | _, none => found (t.attach i .right)
        | _, _ => some (none, t)
      else if c.size < 2 * size then some (none, t)
      else
        match c.left, c.right with
        | some left, some right => orElse (search size n t left) fun t => search size n t right
        | some left, none =>
          orElse (search size n t left) fun t => found (splitSpine size n t i .right)
        | none, some right =>
          orElse (search size n t right) fun t => found (splitSpine size n t i .left)
        | none, none => some (none, t)

/-- The block of the node in a slot. -/
def blockAt (t : NodeTable) (i : Nat) : Option Block :=
  (t.cell? i).map fun c => ⟨⟨i, c.generation⟩, c.size.log2, c.start⟩

/-- Makes the root, and below it a node of a size. -/
def firstNode (t : NodeTable) (size : Nat) : Option (Nat × NodeTable) :=
  let made := t.newNode t.capacity 0 none
  let rooted := { made.2 with root := some made.1 }
  if size = t.capacity then some (made.1, rooted)
  else splitSpine size t.levels rooted made.1 .left

/-- Reserves a block for a number of bytes, if there is a place for one. -/
def allocate? (t : NodeTable) (bytes : Nat) : Option (Option Block × NodeTable) :=
  let size := 2 ^ orderFor bytes
  if t.capacity < size then some (none, t)
  else
    match t.root with
    | none =>
      (t.firstNode size).bind fun (i, t) => (t.blockAt i).map fun b => (some b, t)
    | some root =>
      (search size t.levels t root).bind fun (found, t) =>
        match found with
        | some i => (t.blockAt i).map fun b => (some b, t)
        | none => some (none, t)

/-- Empties a slot. -/
def release (t : NodeTable) (i : Nat) : NodeTable :=
  { t.put i none with released := i :: t.released }

/-- Releases a node, and then its parent if that has no other child, and so on upwards. -/
def collapse : Nat → NodeTable → Nat → Option NodeTable
  | 0, _, _ => none
  | n + 1, t, i =>
    (t.cell? i).bind fun c =>
      let t := t.release i
      match c.parent with
      | none => some { t with root := none }
      | some parent =>
        (t.cell? parent).bind fun p =>
          let p := if p.left = some i then p.setChild .left none else p.setChild .right none
          let t := t.put parent (some p)
          if p.isLeaf then collapse n t parent else some t

/-- Gives a block back. -/
def free (t : NodeTable) (b : Block) : Option (Except Failure Unit × NodeTable) :=
  match (t.cell? b.key.slot).filter fun c => c.generation == b.key.generation with
  | none => some (.error (.memory (.notAllocated b.start b.last)), t)
  | some c =>
    if c.isLeaf then (collapse t.levels t b.key.slot).map fun t => (.ok (), t)
    else some (.error (.memory (.split b.start b.last)), t)

/-- The address ranges of the blocks below a node, in address order. -/
def leaves (t : NodeTable) : Nat → Nat → Option (List Range)
  | 0, _ => none
  | n + 1, i =>
    (t.cell? i).bind fun c =>
      if c.isLeaf then some [⟨c.size, c.start, c.start + c.size - 1⟩]
      else
        (c.left.elim (some []) (t.leaves n)).bind fun below =>
          (c.right.elim (some []) (t.leaves n)).map fun above => below ++ above

/-- The address ranges in use, in address order. -/
def ranges? (t : NodeTable) : Option (List Range) :=
  t.root.elim (some []) (t.leaves t.levels)

end NodeTable

/-! ## What a table holds -/

/-- The slot of the node a tree starts with. -/
def Tree.slot? : Tree → Option Nat
  | .absent => none
  | .node k _ _ => some k.slot

/-- The slots of the nodes of a tree. -/
def Tree.slots (t : Tree) : List Nat :=
  t.keys.map Key.slot

/-- A table holds a tree of a node of the given order that starts at `start`: every node has a cell
in its slot, which links it to the given parent and to its children. -/
def Tree.Held (table : NodeTable) : Tree → Option Nat → Nat → Nat → Prop
  | .absent, _, _, _ => True
  | .node k l r, parent, order, start =>
    table.cell? k.slot = some ⟨2 ^ order, start, k.generation, parent, l.slot?, r.slot?⟩ ∧
      l.Held table (some k.slot) (order - 1) start ∧
      r.Held table (some k.slot) (order - 1) (start + 2 ^ (order - 1))

/-- A table has as many slots as a supply says, and the released ones are empty. -/
structure Supply.Backs (s : Supply) (t : NodeTable) : Prop where
  released : t.released = s.released
  slots : t.cells.length = s.slots
  generation : t.generation = s.generation
  empty : ∀ i ∈ s.released, t.cell? i = none

/-- A table holds an arena. -/
structure NodeTable.Represents (t : NodeTable) (b : Buddy) : Prop where
  capacity : t.capacity = b.capacity
  root : t.root = b.root.slot?
  backs : b.supply.Backs t
  held : b.root.Held t none b.order 0

end Buddy
end Uniprocessor
