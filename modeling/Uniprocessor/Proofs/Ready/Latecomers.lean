import Uniprocessor.Proofs.Ready.Keyed

/-!
# Latecomers

Take a heap in which no key is below a bound, and put items in.  As long as nothing is taken out, an
entry below the bound is among those that were put in since; and if it is the root, then it has the
least key of them, and no other one with that key was put in before it, because the entries bear
numbers.

* `PriorityHeap.Latecomers`: what has been put in since no key was below a bound;
* `Latecomers.root`: **a root below the bound is the first of the least of the latecomers**;
* `ReadyQueue.Latecomers`: the same of those who wait.
-/

namespace Uniprocessor
namespace PriorityHeap

variable {α : Type} {h h' : PriorityHeap α} {bound key : Nat} {late : List (Nat × α)} {item : α}
  {x : HeapEntry α}

/-- The keys and items that have been put in, in this order, since no key was below a bound. -/
structure Latecomers (h : PriorityHeap α) (bound : Nat) (late : List (Nat × α)) : Prop where
  ordered : Ordered h.entries
  numbered : ∃ xs : List (HeapEntry α), xs.map (fun x => (x.key, x.item)) = late ∧
    (xs.Pairwise fun x y => x.sequence < y.sequence) ∧
    (∀ x ∈ xs, x ∈ h.entries ∧ x.sequence < h.next) ∧
    ∀ x ∈ h.entries, x.key < bound → x ∈ xs

/-- An item that is put in is the last of the latecomers. -/
theorem Latecomers.push (hlate : h.Latecomers bound late) (hpush : h.push key item = .ok h') :
    h'.Latecomers bound (late ++ [(key, item)]) := by
  obtain ⟨hordered, xs, rfl, hnumbered, hmem, hbelow⟩ := hlate
  have hiff : ∀ {x}, x ∈ h'.entries ↔ x ∈ h.entries ∨ x = ⟨key, h.next, item⟩ := by
    intro x
    rw [← Array.mem_toList_iff, (perm_of_push hpush).mem_iff, List.mem_append, List.mem_singleton,
      Array.mem_toList_iff]
  have hnext : h'.next = h.next + 1 := congrArg PriorityHeap.next (eq_of_push hpush)
  refine ⟨hordered.of_push hpush, xs ++ [⟨key, h.next, item⟩], List.map_append, ?_, fun x hx => ?_,
    fun x hx hlt => ?_⟩
  · refine List.pairwise_append.mpr ⟨hnumbered, List.pairwise_singleton _ _, fun x hx y hy => ?_⟩
    obtain rfl := List.mem_singleton.mp hy
    exact (hmem x hx).2
  · rw [hnext]
    rcases List.mem_append.mp hx with hx | hx
    · exact ⟨hiff.mpr (Or.inl (hmem x hx).1), Nat.lt_succ_of_lt (hmem x hx).2⟩
    · obtain rfl := List.mem_singleton.mp hx
      exact ⟨hiff.mpr (Or.inr rfl), Nat.lt_succ_self _⟩
  · rcases hiff.mp hx with hx | rfl
    · exact List.mem_append_left _ (hbelow x hx hlt)
    · exact List.mem_append_right _ (List.mem_singleton_self _)

/-- **A root below the bound is the first of the least of the latecomers.** -/
theorem Latecomers.root (hlate : h.Latecomers bound late) (hroot : h.entries[0]? = some x)
    (hlt : x.key < bound) :
    ∃ before after, late = before ++ (x.key, x.item) :: after ∧ (∀ y ∈ before, x.key < y.1) ∧
      ∀ y ∈ after, x.key ≤ y.1 := by
  obtain ⟨hordered, xs, rfl, hnumbered, hmem, hbelow⟩ := hlate
  have hfirst : ∀ y ∈ xs, x.Precedes y := fun y hy => hordered.root_precedes hroot (hmem y hy).1
  obtain ⟨before, after, rfl⟩ :=
    List.append_of_mem (hbelow x (Array.mem_of_getElem? hroot) hlt)
  obtain ⟨hbefore, hafter⟩ := HeapEntry.first_of_least hnumbered hfirst
  exact ⟨_, _, List.map_append, List.forall_mem_map.mpr hbefore, List.forall_mem_map.mpr hafter⟩

end PriorityHeap

namespace ReadyQueue

variable {q q' : ReadyQueue} {bound k : Nat} {late : List (Nat × Slot)} {slot : Slot}

/-- Those who have come, in this order and with their keys, since no key was below a bound. -/
def Latecomers (q : ReadyQueue) (bound : Nat) (late : List (Nat × Slot)) : Prop :=
  ∃ h, q = .heap h ∧ h.Latecomers bound late

/-- At first there are no latecomers. -/
theorem Keyed.latecomers {key : Slot → Nat} (h : q.Keyed key)
    (hbound : ∀ s ∈ q.toList, bound ≤ key s) : q.Latecomers bound [] := by
  obtain ⟨q, rfl, hordered, hkeys⟩ := h
  refine ⟨q, rfl, hordered, [], rfl, List.Pairwise.nil, fun x hx => absurd hx List.not_mem_nil,
    fun x hx hlt => absurd hlt (Nat.not_lt.mpr ?_)⟩
  rw [hkeys x hx]
  exact hbound _ (List.mem_map_of_mem (Array.mem_toList_iff.mpr hx))

theorem Latecomers.insert (h : q.Latecomers bound late) (hq : q.insert k slot = .ok q') :
    q'.Latecomers bound (late ++ [(k, slot)]) := by
  obtain ⟨q, rfl, hlate⟩ := h
  obtain ⟨q', hpush, rfl⟩ := insert_heap hq
  exact ⟨q', rfl, hlate.push hpush⟩

/-- **Whoever goes next, if the least key is below the bound, is the first of the least of the
latecomers.** -/
theorem Latecomers.take (h : q.Latecomers bound late) (htake : q.take? = some (slot, q'))
    (hlt : ∀ k, q.leastKey? = some k → k < bound) :
    ∃ k before after, k < bound ∧ late = before ++ (k, slot) :: after ∧ (∀ y ∈ before, k < y.1) ∧
      ∀ y ∈ after, k ≤ y.1 := by
  obtain ⟨q, rfl, hlate⟩ := h
  obtain ⟨x, q', hpop, rfl, rfl⟩ := take_heap htake
  have hroot := (PriorityHeap.eq_of_pop hpop).1
  have hbelow : x.key < bound := hlt x.key (by
    rw [leastKey?, PriorityHeap.peek?, hroot, Option.map_some])
  exact ⟨x.key, (hlate.root hroot hbelow).imp fun _ h => h.imp fun _ h => ⟨hbelow, h⟩⟩

end ReadyQueue
end Uniprocessor
