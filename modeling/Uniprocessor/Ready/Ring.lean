import Uniprocessor.Failure

/-!
# Ring buffers

A first-in first-out queue of bounded length, in a circular buffer.  The items occupy `length`
slots from `front` on, past the end of the buffer from its start again; all other slots are empty.
-/

namespace Uniprocessor

/-- A queue in a circular buffer. -/
structure Ring (α : Type) where
  slots : Array (Option α)
  front : Nat
  length : Nat
  deriving Repr

namespace Ring

variable {α : Type}

/-- The queue without items. -/
def empty (capacity : Nat) : Ring α :=
  ⟨Array.replicate capacity none, 0, 0⟩

/-- Number of items there is room for. -/
def capacity (r : Ring α) : Nat :=
  r.slots.size

/-- Whether there are no items. -/
def isEmpty (r : Ring α) : Bool :=
  r.length == 0

/-- Whether there is no room for another item. -/
def isFull (r : Ring α) : Bool :=
  r.length == r.capacity

/-- The slot of the item that has `i` items before it. -/
def place (r : Ring α) (i : Nat) : Nat :=
  (r.front + i) % r.capacity

/-- Puts an item at the rear. -/
def enqueue (r : Ring α) (item : α) : Except Failure (Ring α) :=
  if r.isFull then .error (.full r.capacity)
  else
    .ok { r with
      slots := r.slots.setIfInBounds (r.place r.length) (some item)
      length := r.length + 1 }

/-- Takes the item at the front. -/
def dequeue? (r : Ring α) : Option (α × Ring α) :=
  if r.isEmpty then none
  else
    r.slots[r.front]?.join.map fun item =>
      (item, ⟨r.slots.setIfInBounds r.front none, r.place 1, r.length - 1⟩)

/-- The items from front to rear. -/
def toList (r : Ring α) : List α :=
  (List.range r.length).filterMap fun i => r.slots[r.place i]?.join

end Ring

end Uniprocessor
