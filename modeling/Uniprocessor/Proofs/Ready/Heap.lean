import Uniprocessor.Ready.Heap

/-!
# What is in a heap

Sifting only swaps entries, so a heap holds what was put in and not taken out, whatever the order of
its array.  This is all that the bookkeeping of the scheduler asks of it.

* `PriorityHeap.siftUp_perm`, `siftDown_perm`: sifting permutes the entries;
* `PriorityHeap.perm_of_push`, `perm_of_pop`: what a call does to the entries;
* `PriorityHeap.push_ok`: a heap with room takes an item, and nothing leaves it;
* `PriorityHeap.pop_some`: a heap with entries gives one, and nothing else leaves it.
-/

namespace Uniprocessor
namespace PriorityHeap

variable {α : Type}

theorem siftUp_perm (a : Array (HeapEntry α)) (i : Nat) :
    (siftUp a i).toList.Perm a.toList := by
  induction a, i using siftUp.induct with
  | case1 a i h hbefore ih =>
    rw [siftUp, dif_pos h, if_pos hbefore]
    exact ih.trans (Array.swap_perm _ _).toList
  | case2 a i h hbefore => rw [siftUp, dif_pos h, if_neg hbefore]
  | case3 a i h => rw [siftUp, dif_neg h]

theorem siftDown_perm (a : Array (HeapEntry α)) (i : Nat) :
    (siftDown a i).toList.Perm a.toList := by
  induction a, i using siftDown.induct with
  | case1 a i h => rw [siftDown, dif_pos h]
  | case2 a i h hlt ih =>
    rw [siftDown, dif_neg h]
    exact ih.trans (Array.swap_perm _ _).toList

/-- Without its root a heap holds all the other entries. -/
theorem dropRoot_perm {a : Array (HeapEntry α)} {x : HeapEntry α} (h : a[0]? = some x) :
    a.toList.Perm (x :: (dropRoot a).toList) := by
  obtain ⟨l, rfl⟩ : ∃ l : List (HeapEntry α), a = l.toArray := ⟨a.toList, rfl⟩
  cases l with
  | nil => exact absurd h (by simp)
  | cons y rest =>
    obtain rfl : y = x := by simpa using h
    rcases List.eq_nil_or_concat rest with rfl | ⟨init, last, rfl⟩
    · have hdrop : (dropRoot [y].toArray).toList.Perm [] := siftDown_perm _ 0
      exact hdrop.symm.cons y
    · -- the last entry takes the place of the root before it sinks
      have hback : (y :: init.concat last).toArray.back? = some last := by
        rw [List.back?_toArray, List.concat_eq_append, ← List.cons_append, List.getLast?_concat]
      have hset : ((y :: init.concat last).toArray.pop.setIfInBounds 0 last).toList =
          last :: init := by
        simp [List.dropLast_cons_of_ne_nil]
      have hdrop : (dropRoot (y :: init.concat last).toArray).toList.Perm (last :: init) := by
        rw [dropRoot, hback]
        exact (siftDown_perm _ 0).trans (List.Perm.of_eq hset)
      refine List.Perm.cons y (List.Perm.trans ?_ hdrop.symm)
      rw [List.concat_eq_append]
      exact List.perm_append_singleton _ _

variable {h h' : PriorityHeap α} {key : Nat} {item : α} {x : HeapEntry α}

theorem eq_of_push (hpush : h.push key item = .ok h') :
    h' = { h with
      entries := siftUp (h.entries.push ⟨key, h.next, item⟩) h.entries.size
      next := h.next + 1 } := by
  rw [push] at hpush
  split at hpush
  · exact absurd hpush (by simp)
  · exact (Except.ok.inj hpush).symm

theorem eq_full_of_push {e : Failure} (hpush : h.push key item = .error e) :
    e = .full h.capacity := by
  rw [push] at hpush
  split at hpush
  · exact (Except.error.inj hpush).symm
  · exact absurd hpush (by simp)

/-- What is put in is an entry with the next number. -/
theorem perm_of_push (hpush : h.push key item = .ok h') :
    h'.entries.toList.Perm (h.entries.toList ++ [⟨key, h.next, item⟩]) := by
  rw [eq_of_push hpush, ← Array.toList_push]
  exact siftUp_perm _ _

theorem eq_of_pop (hpop : h.pop? = some (x, h')) :
    h.entries[0]? = some x ∧ h' = { h with entries := dropRoot h.entries } := by
  obtain ⟨y, hroot, hpair⟩ := Option.map_eq_some_iff.mp hpop
  obtain ⟨rfl, rfl⟩ := Prod.mk.inj hpair
  exact ⟨hroot, rfl⟩

/-- What is taken out is an entry. -/
theorem perm_of_pop (hpop : h.pop? = some (x, h')) :
    h.entries.toList.Perm (x :: h'.entries.toList) := by
  obtain ⟨hroot, rfl⟩ := eq_of_pop hpop
  exact dropRoot_perm hroot

/-- A heap with room takes an item; one without keeps what it has. -/
theorem push_ok (hroom : h.size < h.capacity) (key : Nat) (item : α) :
    ∃ h', h.push key item = .ok h' ∧ h'.capacity = h.capacity ∧
      h'.items.Perm (item :: h.items) := by
  have hfull : h.isFull = false := decide_eq_false (Nat.not_le.mpr hroom)
  have hpush : h.push key item = .ok { h with
      entries := siftUp (h.entries.push ⟨key, h.next, item⟩) h.entries.size
      next := h.next + 1 } := by
    rw [push, hfull, if_neg Bool.false_ne_true]
  refine ⟨_, hpush, rfl, ?_⟩
  have hperm := (perm_of_push hpush).map HeapEntry.item
  rw [List.map_append] at hperm
  exact hperm.trans (List.perm_append_singleton _ _)

theorem push_full (hfull : h.capacity ≤ h.size) (key : Nat) (item : α) :
    h.push key item = .error (.full h.capacity) := by
  rw [push, show h.isFull = true from decide_eq_true hfull, if_pos rfl]

/-- A heap with entries gives one of them. -/
theorem pop_some (hsize : 0 < h.size) :
    ∃ x h', h.pop? = some (x, h') ∧ h'.capacity = h.capacity ∧
      h.items.Perm (x.item :: h'.items) := by
  have hpop : h.pop? = some (h.entries[0], { h with entries := dropRoot h.entries }) := by
    rw [pop?, Array.getElem?_eq_getElem hsize, Option.map_some]
  exact ⟨_, _, hpop, rfl, (perm_of_pop hpop).map HeapEntry.item⟩

theorem length_items (h : PriorityHeap α) : h.items.length = h.size := by
  rw [items, List.length_map, Array.length_toList]
  rfl

end PriorityHeap
end Uniprocessor
