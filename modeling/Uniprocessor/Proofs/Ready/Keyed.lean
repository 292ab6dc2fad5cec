import Uniprocessor.Proofs.Ready.Order
import Uniprocessor.Proofs.Ready.Queue

/-!
# Processes that wait in the order of a key

Where a policy compares processes, the ready structure is a heap, and the next process is one with
the least key.  A key that is kept in the heap has to be the key of the process as it is now; nothing
that waits changes, so it remains so.

* `ReadyQueue.Keyed`: the waiting processes are in the order of a key;
* `Keyed.insert`, `Keyed.take`: they stay so;
* `Keyed.take_le`: **the next process has the least key**, which is what `leastKey?` says.
-/

namespace Uniprocessor
namespace ReadyQueue

/-- The waiting processes are in the order of a key. -/
def Keyed (q : ReadyQueue) (key : Slot → Nat) : Prop :=
  ∃ h, q = .heap h ∧ PriorityHeap.Ordered h.entries ∧ ∀ x ∈ h.entries, x.key = key x.item

variable {q q' : ReadyQueue} {key key' : Slot → Nat} {slot : Slot} {k : Nat}

theorem keyed_ofPolicy {policy : Policy} (h : policy.usesHeap = true) (n : Nat)
    (key : Slot → Nat) : (ofPolicy policy n).Keyed key := by
  exact ⟨.empty n, by rw [ofPolicy, if_pos h], PriorityHeap.ordered_empty,
    fun x hx => absurd hx (Array.not_mem_empty x)⟩

/-- Only the keys of those who wait matter. -/
theorem Keyed.congr (h : q.Keyed key) (hsame : ∀ s ∈ q.toList, key' s = key s) :
    q.Keyed key' := by
  obtain ⟨q, rfl, hordered, hkeys⟩ := h
  refine ⟨q, rfl, hordered, fun x hx => (hkeys x hx).trans (hsame x.item ?_).symm⟩
  exact List.mem_map_of_mem (Array.mem_toList_iff.mpr hx)

theorem Keyed.insert (h : q.Keyed key) (hq : q.insert k slot = .ok q') (hk : key slot = k) :
    q'.Keyed key := by
  obtain ⟨q, rfl, hordered, hkeys⟩ := h
  obtain ⟨q', hpush, rfl⟩ := insert_heap hq
  refine ⟨q', rfl, hordered.of_push hpush, fun x hx => ?_⟩
  have hmem := (PriorityHeap.perm_of_push hpush).subset (Array.mem_toList_iff.mpr hx)
  rcases List.mem_append.mp hmem with hx | hx
  · exact hkeys x (Array.mem_toList_iff.mp hx)
  · obtain rfl := List.mem_singleton.mp hx
    exact hk.symm

theorem Keyed.take (h : q.Keyed key) (hq : q.take? = some (slot, q')) : q'.Keyed key := by
  obtain ⟨g, rfl, hordered, hkeys⟩ := h
  obtain ⟨x, g', hpop, -, rfl⟩ := take_heap hq
  refine ⟨g', rfl, hordered.of_pop hpop, fun y hy => hkeys y ?_⟩
  have hmem := (PriorityHeap.perm_of_pop hpop).symm.subset
    (List.mem_cons_of_mem x (Array.mem_toList_iff.mpr hy))
  exact Array.mem_toList_iff.mp hmem

/-- **The next process has the least key.** -/
theorem Keyed.take_le (h : q.Keyed key) (hq : q.take? = some (slot, q')) :
    q.leastKey? = some (key slot) ∧ ∀ s ∈ q.toList, key slot ≤ key s := by
  obtain ⟨g, rfl, hordered, hkeys⟩ := h
  obtain ⟨x, g', hpop, rfl, -⟩ := take_heap hq
  have hroot := (PriorityHeap.eq_of_pop hpop).1
  have hkey := hkeys x (Array.mem_of_getElem? hroot)
  refine ⟨?_, List.forall_mem_map.mpr fun y hy => ?_⟩
  · rw [leastKey?, PriorityHeap.peek?, hroot, Option.map_some, hkey]
  · have hy' : y ∈ g.entries := Array.mem_toList_iff.mp hy
    rw [← hkey, ← hkeys y hy']
    exact (hordered.root_precedes hroot hy').key_le

end ReadyQueue
end Uniprocessor
