import Uniprocessor.Policy
import Uniprocessor.Process.Table
import Uniprocessor.Ready.Heap
import Uniprocessor.Ready.Ring

/-!
# Ready structures

Where admitted processes wait for the processor: ordered by key where the policy compares
processes, in turn where it does not.
-/

namespace Uniprocessor

/-- The waiting processes, by their slots. -/
inductive ReadyQueue where
  | heap (heap : PriorityHeap Slot)
  | ring (ring : Ring Slot)
  deriving Repr

namespace ReadyQueue

/-- The empty structure that a policy uses. -/
def ofPolicy (policy : Policy) (capacity : Nat) : ReadyQueue :=
  if policy.usesHeap then .heap (.empty capacity) else .ring (.empty capacity)

/-- Number of waiting processes. -/
def size : ReadyQueue → Nat
  | heap h => h.size
  | ring r => r.length

/-- Whether no process waits. -/
def isEmpty (q : ReadyQueue) : Bool :=
  q.size == 0

/-- Lets a process wait; the key is used only where the structure is ordered by key. -/
def insert (q : ReadyQueue) (key : Nat) (slot : Slot) : Except Failure ReadyQueue :=
  match q with
  | heap h => (h.push key slot).map .heap
  | ring r => (r.enqueue slot).map .ring

/-- Takes the next process. -/
def take? : ReadyQueue → Option (Slot × ReadyQueue)
  | heap h => h.pop?.map fun (x, rest) => (x.item, .heap rest)
  | ring r => r.dequeue?.map fun (slot, rest) => (slot, .ring rest)

/-- The least key, where there are keys. -/
def leastKey? : ReadyQueue → Option Nat
  | heap h => h.peek?.map HeapEntry.key
  | ring _ => none

/-- The waiting processes, in the order they are stored. -/
def toList : ReadyQueue → List Slot
  | heap h => h.items
  | ring r => r.toList

/-- Whether a process waits. -/
def contains (q : ReadyQueue) (slot : Slot) : Bool :=
  q.toList.contains slot

end ReadyQueue

end Uniprocessor
