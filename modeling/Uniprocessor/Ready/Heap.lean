import Uniprocessor.Failure

/-!
# Bounded priority heaps

A binary heap in an array: the entry at `i` is not after the entries at `2 * i + 1` and
`2 * i + 2`.  Entries are ordered by key, and entries of equal keys by the order they were put in,
for which each carries a sequence number; so the heap is stable.

* `push`, `pop?`, `peek?` --- a bounded priority queue;
* `decreaseKey`, `position?` --- access by array index.
-/

namespace Uniprocessor

/-- An entry of a heap. -/
structure HeapEntry (α : Type) where
  key : Nat
  sequence : Nat
  item : α
  deriving Repr, DecidableEq

/-- Whether an entry comes before another: by key, then by sequence number. -/
def HeapEntry.before {α : Type} (x y : HeapEntry α) : Bool :=
  x.key < y.key || (x.key == y.key && x.sequence < y.sequence)

/-- A heap of at most `capacity` entries. -/
structure PriorityHeap (α : Type) where
  entries : Array (HeapEntry α)
  capacity : Nat
  /-- The sequence number of the next entry. -/
  next : Nat
  deriving Repr

namespace PriorityHeap

variable {α : Type}

/-- The heap without entries. -/
def empty (capacity : Nat) : PriorityHeap α :=
  ⟨#[], capacity, 0⟩

/-- Number of entries. -/
def size (h : PriorityHeap α) : Nat :=
  h.entries.size

/-- Whether there is no room for another entry. -/
def isFull (h : PriorityHeap α) : Bool :=
  h.capacity ≤ h.size

/-- Swaps the entry at `i` with its parent until the parent is not after it. -/
def siftUp (a : Array (HeapEntry α)) (i : Nat) : Array (HeapEntry α) :=
  if h : 0 < i ∧ i < a.size then
    if a[i].before a[(i - 1) / 2] then siftUp (a.swap ((i - 1) / 2) i) ((i - 1) / 2) else a
  else a
termination_by i

/-- Of the entries at `i` and `j` the index of the one that comes first; `i` if there is none
at `j`. -/
def earlier (a : Array (HeapEntry α)) (i j : Nat) : Nat :=
  match a[i]?, a[j]? with
  | some x, some y => if y.before x then j else i
  | _, _ => i

/-- The index of the first of an entry and its children. -/
def first (a : Array (HeapEntry α)) (i : Nat) : Nat :=
  earlier a (earlier a i (2 * i + 1)) (2 * i + 2)

theorem earlier_eq (a : Array (HeapEntry α)) (i j : Nat) :
    earlier a i j = i ∨ (earlier a i j = j ∧ j < a.size) := by
  unfold earlier
  split
  · rename_i x y hx hy
    split
    · exact .inr ⟨rfl, (Array.getElem?_eq_some_iff.1 hy).1⟩
    · exact .inl rfl
  · exact .inl rfl

/-- A first entry other than the parent is a child of it, so inside the array. -/
theorem first_eq (a : Array (HeapEntry α)) (i : Nat) :
    first a i = i ∨ (i < first a i ∧ first a i < a.size) := by
  unfold first
  rcases earlier_eq a i (2 * i + 1) with h | ⟨h, hlt⟩ <;>
    rcases earlier_eq a (earlier a i (2 * i + 1)) (2 * i + 2) with h' | ⟨h', hlt'⟩ <;> omega

/-- Swaps the entry at `i` with the first of its children until it comes first. -/
def siftDown (a : Array (HeapEntry α)) (i : Nat) : Array (HeapEntry α) :=
  if h : first a i = i then a
  else
    have hlt : i < first a i ∧ first a i < a.size := (first_eq a i).resolve_left h
    siftDown (a.swap i (first a i) (by omega) hlt.2) (first a i)
termination_by a.size - i
decreasing_by simp only [Array.size_swap]; omega

/-- Puts an entry in. -/
def push (h : PriorityHeap α) (key : Nat) (item : α) : Except Failure (PriorityHeap α) :=
  if h.isFull then .error (.full h.capacity)
  else
    .ok { h with
      entries := siftUp (h.entries.push ⟨key, h.next, item⟩) h.entries.size
      next := h.next + 1 }

/-- The entries without the one at the root, whose place the last one takes. -/
def dropRoot (a : Array (HeapEntry α)) : Array (HeapEntry α) :=
  match a.back? with
  | some last => siftDown (a.pop.setIfInBounds 0 last) 0
  | none => a

/-- Takes the first entry out. -/
def pop? (h : PriorityHeap α) : Option (HeapEntry α × PriorityHeap α) :=
  h.entries[0]?.map fun x => (x, { h with entries := dropRoot h.entries })

/-- The first entry. -/
def peek? (h : PriorityHeap α) : Option (HeapEntry α) :=
  h.entries[0]?

/-- Lowers the key of the entry at an array index. -/
def decreaseKey (h : PriorityHeap α) (i key : Nat) : Except Failure (PriorityHeap α) :=
  match h.entries[i]? with
  | none => .error (.protocol (.noHeapIndex i))
  | some x =>
    if x.key < key then .error (.protocol (.largerKey key x.key))
    else .ok { h with entries := siftUp (h.entries.setIfInBounds i { x with key := key }) i }

/-- The items in array order. -/
def items (h : PriorityHeap α) : List α :=
  h.entries.toList.map HeapEntry.item

/-- The least array index of an item with a property. -/
def position? (h : PriorityHeap α) (p : α → Bool) : Option Nat :=
  h.items.findIdx? p

end PriorityHeap

end Uniprocessor
