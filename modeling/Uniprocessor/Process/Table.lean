import Uniprocessor.Process.ControlBlock

/-!
# Process tables

The control blocks of the live processes, in numbered slots.  A slot whose process has gone is
vacant and is given out again, the one vacated last first; a new slot is made only when none is
vacant.
-/

namespace Uniprocessor

/-- A place in a process table. -/
abbrev Slot := Nat

/-- The control blocks of the live processes. -/
structure ProcessTable where
  slots : Array (Option ControlBlock)
  /-- The vacant slots, the one vacated last first. -/
  vacant : List Slot
  deriving Repr

namespace ProcessTable

/-- The table without slots. -/
def empty : ProcessTable :=
  ⟨#[], []⟩

/-- The control block in a slot. -/
def get? (t : ProcessTable) (slot : Slot) : Option ControlBlock :=
  t.slots[slot]?.join

/-- Puts a control block into a slot and gives the slot. -/
def insert (t : ProcessTable) (b : ControlBlock) : Slot × ProcessTable :=
  match t.vacant with
  | slot :: rest => (slot, ⟨t.slots.setIfInBounds slot (some b), rest⟩)
  | [] => (t.slots.size, ⟨t.slots.push (some b), []⟩)

/-- Replaces the control block of a slot that is not vacant. -/
def set (t : ProcessTable) (slot : Slot) (b : ControlBlock) : ProcessTable :=
  match t.get? slot with
  | some _ => { t with slots := t.slots.setIfInBounds slot (some b) }
  | none => t

/-- Vacates a slot and gives the control block that was in it. -/
def remove? (t : ProcessTable) (slot : Slot) : Option (ControlBlock × ProcessTable) :=
  (t.get? slot).map fun b => (b, ⟨t.slots.setIfInBounds slot none, slot :: t.vacant⟩)

/-- The control blocks in slot order. -/
def toList (t : ProcessTable) : List ControlBlock :=
  t.slots.toList.filterMap id

/-- Number of slots that are not vacant. -/
def size (t : ProcessTable) : Nat :=
  t.slots.size - t.vacant.length

end ProcessTable

end Uniprocessor
