import Uniprocessor.Proofs.Attempt
import Uniprocessor.Proofs.Ready.Heap
import Uniprocessor.Proofs.Ready.Ring
import Uniprocessor.Ready.Queue

/-!
# Who waits

Whichever structure a policy uses, the waiting processes are a list of slots of bounded length, to
which `insert` adds one and from which `take?` takes one.  The order they come out in is the
policy's business, and nothing here depends on it.

* `ReadyQueue.Sound`: the structure is in order and not beyond its capacity;
* `ReadyQueue.insert_ok`, `ReadyQueue.insert_full`: whether a process finds room;
* `ReadyQueue.take_some`: if any process waits, there is a next one;
* `ReadyQueue.insert_heap`, `take_heap`, `insert_ring`, `take_ring`: what was done to the structure.
-/

namespace Uniprocessor
namespace ReadyQueue

/-- Number of processes there is room for. -/
def capacity : ReadyQueue → Nat
  | heap h => h.capacity
  | ring r => r.capacity

/-- No more processes wait than there is room for, and a ring is in order. -/
def Sound : ReadyQueue → Prop
  | heap h => h.size ≤ h.capacity
  | ring r => r.Sound

theorem sound_ofPolicy (policy : Policy) {n : Nat} (h : 0 < n) : (ofPolicy policy n).Sound := by
  unfold ofPolicy
  split
  · exact Nat.zero_le _
  · exact Ring.sound_empty h

@[simp] theorem toList_ofPolicy (policy : Policy) (n : Nat) : (ofPolicy policy n).toList = [] := by
  unfold ofPolicy
  split <;> rfl

variable {q : ReadyQueue}

theorem length_toList (h : q.Sound) : q.toList.length = q.size := by
  cases q with
  | heap q => exact q.length_items
  | ring q => exact Ring.length_toList h

theorem isEmpty_iff (h : q.Sound) : q.isEmpty = true ↔ q.toList = [] := by
  rw [isEmpty, beq_iff_eq, ← length_toList h, List.length_eq_zero_iff]

theorem size_le_capacity (h : q.Sound) : q.size ≤ q.capacity := by
  cases q with
  | heap q => exact h
  | ring q => exact Ring.Sound.length h

/-- A structure with room takes a process. -/
theorem insert_ok (h : q.Sound) (hroom : q.size < q.capacity) (key : Nat) (slot : Slot) :
    ∃ q', q.insert key slot = .ok q' ∧ q'.Sound ∧ q'.capacity = q.capacity ∧
      q'.toList.Perm (slot :: q.toList) := by
  cases q with
  | heap q =>
    obtain ⟨q', hpush, hcap, hperm⟩ := PriorityHeap.push_ok hroom key slot
    refine ⟨.heap q', by rw [insert, hpush]; rfl, ?_, hcap, hperm⟩
    have hlen := hperm.length_eq
    rw [PriorityHeap.length_items, List.length_cons, PriorityHeap.length_items] at hlen
    show q'.size ≤ q'.capacity
    rw [hlen, hcap]
    exact hroom
  | ring q =>
    obtain ⟨q', hput, hsound, hcap, hlist⟩ := Ring.enqueue_ok h hroom slot
    refine ⟨.ring q', by rw [insert, hput]; rfl, hsound, hcap, ?_⟩
    show q'.toList.Perm (slot :: q.toList)
    rw [hlist]
    exact List.perm_append_singleton slot q.toList

/-- A structure without room refuses a process. -/
theorem insert_full (h : q.Sound) (hfull : q.capacity ≤ q.size) (key : Nat) (slot : Slot) :
    q.insert key slot = .error (.full q.capacity) := by
  cases q with
  | heap q => rw [insert, PriorityHeap.push_full hfull]; rfl
  | ring q => rw [insert, Ring.enqueue_full h hfull]; rfl

/-- A structure in which processes wait gives one of them. -/
theorem take_some (h : q.Sound) (hne : q.toList ≠ []) :
    ∃ slot q', q.take? = some (slot, q') ∧ q'.Sound ∧ q'.capacity = q.capacity ∧
      q.toList.Perm (slot :: q'.toList) := by
  have hpos : 0 < q.size := by
    rw [← length_toList h]
    exact List.length_pos_iff.mpr hne
  cases q with
  | heap q =>
    obtain ⟨x, q', hpop, hcap, hperm⟩ := PriorityHeap.pop_some hpos
    refine ⟨x.item, .heap q', by rw [take?, hpop]; rfl, ?_, hcap, hperm⟩
    have hlen := hperm.length_eq
    rw [PriorityHeap.length_items, List.length_cons, PriorityHeap.length_items] at hlen
    have hle : q.size ≤ q.capacity := h
    show q'.size ≤ q'.capacity
    omega
  | ring q =>
    obtain ⟨slot, q', hget, hsound, hcap, hlist⟩ := Ring.dequeue_some h hpos
    exact ⟨slot, .ring q', by rw [take?, hget]; rfl, hsound, hcap, List.Perm.of_eq hlist⟩

/-- A structure from which a process was taken has room for one. -/
theorem size_lt_of_perm {q' : ReadyQueue} {slot : Slot} (h : q.Sound) (h' : q'.Sound)
    (hcap : q'.capacity = q.capacity) (hperm : q.toList.Perm (slot :: q'.toList)) :
    q'.size < q'.capacity := by
  have hlen := hperm.length_eq
  rw [length_toList h, List.length_cons, length_toList h'] at hlen
  have hle := size_le_capacity h
  omega

@[simp] theorem capacity_ofPolicy (policy : Policy) (n : Nat) : (ofPolicy policy n).capacity = n := by
  unfold ofPolicy
  split
  · rfl
  · exact Array.size_replicate

/-! ## Which structure it was -/

variable {q' : ReadyQueue} {key : Nat} {slot : Slot} {h : PriorityHeap Slot} {r : Ring Slot}

theorem insert_heap (hq : (heap h).insert key slot = .ok q') :
    ∃ h', h.push key slot = .ok h' ∧ q' = .heap h' := by
  obtain ⟨h', hpush, rfl⟩ := ok_of_map hq
  exact ⟨h', hpush, rfl⟩

theorem insert_ring (hq : (ring r).insert key slot = .ok q') :
    ∃ r', r.enqueue slot = .ok r' ∧ q' = .ring r' := by
  obtain ⟨r', hput, rfl⟩ := ok_of_map hq
  exact ⟨r', hput, rfl⟩

theorem take_heap (hq : (heap h).take? = some (slot, q')) :
    ∃ x h', h.pop? = some (x, h') ∧ x.item = slot ∧ q' = .heap h' := by
  obtain ⟨⟨x, h'⟩, hpop, hpair⟩ := Option.map_eq_some_iff.mp hq
  obtain ⟨hslot, hrest⟩ := Prod.mk.inj hpair
  exact ⟨x, h', hpop, hslot, hrest.symm⟩

theorem take_ring (hq : (ring r).take? = some (slot, q')) :
    ∃ r', r.dequeue? = some (slot, r') ∧ q' = .ring r' := by
  obtain ⟨⟨x, r'⟩, hget, hpair⟩ := Option.map_eq_some_iff.mp hq
  obtain ⟨rfl, rfl⟩ := Prod.mk.inj hpair
  exact ⟨r', hget, rfl⟩

/-- Putting a process in makes no room. -/
theorem capacity_insert (hq : q.insert key slot = .ok q') : q'.capacity = q.capacity := by
  cases q with
  | heap h =>
    obtain ⟨h', hpush, rfl⟩ := insert_heap hq
    obtain rfl := PriorityHeap.eq_of_push hpush
    rfl
  | ring r =>
    obtain ⟨r', hput, rfl⟩ := insert_ring hq
    obtain ⟨-, rfl⟩ := Ring.eq_of_enqueue hput
    exact Ring.capacity_extend

/-- Nor does taking one out. -/
theorem capacity_take (hq : q.take? = some (slot, q')) : q'.capacity = q.capacity := by
  cases q with
  | heap h =>
    obtain ⟨x, h', hpop, -, rfl⟩ := take_heap hq
    obtain ⟨-, rfl⟩ := PriorityHeap.eq_of_pop hpop
    rfl
  | ring r =>
    obtain ⟨r', hget, rfl⟩ := take_ring hq
    obtain ⟨-, -, rfl⟩ := Ring.eq_of_dequeue hget
    exact Ring.capacity_drop

theorem Sound.take (h : q.Sound) (hq : q.take? = some (slot, q')) : q'.Sound := by
  cases q with
  | heap q =>
    obtain ⟨x, q', hpop, -, rfl⟩ := take_heap hq
    have hlen := (PriorityHeap.perm_of_pop hpop).length_eq
    rw [List.length_cons, Array.length_toList, Array.length_toList] at hlen
    have hle : q.entries.size ≤ q.capacity := h
    show q'.entries.size ≤ q'.capacity
    rw [show q'.capacity = q.capacity from capacity_take hq]
    omega
  | ring q =>
    obtain ⟨q', hget, rfl⟩ := take_ring hq
    obtain ⟨-, -, rfl⟩ := Ring.eq_of_dequeue hget
    exact Ring.Sound.drop h

/-- A process is refused for want of room only. -/
theorem eq_full_of_insert {e : Failure} (hq : q.insert key slot = .error e) :
    e = .full q.capacity := by
  cases q with
  | heap h => exact PriorityHeap.eq_full_of_push (error_of_map hq)
  | ring r => exact Ring.eq_full_of_enqueue (error_of_map hq)

end ReadyQueue
end Uniprocessor
