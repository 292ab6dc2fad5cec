import Uniprocessor.Proofs.Ready.Keyed

/-!
# Heaps that remember the order of insertion

The entries of a heap bear numbers, and of two entries with one key the one with the less number comes
first.  So a heap can be taken for the list of what has been put in and not been taken out yet, in the
order in which it was put in: whatever is put in goes to the end of the list, and what is taken out is
the first item of the list whose key no other one's is less than.

* `PriorityHeap.Holds`: the keys and items of a heap, in the order in which they were put in;
* `Holds.push`, `Holds.pop`: **what is put in is the last one, and what is taken out is the first of the
  least**;
* `ReadyQueue.Holds`: the same of those who wait.
-/

namespace Uniprocessor
namespace PriorityHeap

variable {α : Type} {h h' : PriorityHeap α} {key : Nat} {held : List (Nat × α)} {item : α}
  {x : HeapEntry α}

/-- A heap holds these keys and items, which were put in in this order. -/
structure Holds (h : PriorityHeap α) (held : List (Nat × α)) : Prop where
  ordered : Ordered h.entries
  older : ∀ x ∈ h.entries.toList, x.sequence < h.next
  numbered : ∃ xs, h.entries.toList.Perm xs ∧ (xs.Pairwise fun x y => x.sequence < y.sequence) ∧
    xs.map (fun x => (x.key, x.item)) = held

theorem holds_empty (n : Nat) : (empty n : PriorityHeap α).Holds [] where
  ordered := ordered_empty
  older := fun _ hx => absurd hx List.not_mem_nil
  numbered := ⟨[], List.Perm.refl _, List.Pairwise.nil, rfl⟩

theorem Holds.perm (hheld : h.Holds held) : h.items.Perm (held.map Prod.snd) := by
  obtain ⟨xs, hperm, -, rfl⟩ := hheld.numbered
  rw [List.map_map]
  exact hperm.map _

/-- **What is put in is the last one.** -/
theorem Holds.push (hheld : h.Holds held) (hpush : h.push key item = .ok h') :
    h'.Holds (held ++ [(key, item)]) := by
  obtain ⟨hordered, holder, xs, hperm, hnumbered, rfl⟩ := hheld
  have hentries := perm_of_push hpush
  refine ⟨hordered.of_push hpush, fun x hx => ?_, xs ++ [⟨key, h.next, item⟩],
    hentries.trans (hperm.append_right _), ?_, List.map_append⟩
  · rw [eq_of_push hpush]
    rcases List.mem_append.mp (hentries.subset hx) with hx | hx
    · exact Nat.lt_succ_of_lt (holder x hx)
    · obtain rfl := List.mem_singleton.mp hx
      exact Nat.lt_succ_self _
  · refine List.pairwise_append.mpr ⟨hnumbered, List.pairwise_singleton _ _, fun x hx y hy => ?_⟩
    obtain rfl := List.mem_singleton.mp hy
    exact holder x (hperm.symm.subset hx)

/-- **What is taken out is the first of the least.** -/
theorem Holds.pop (hheld : h.Holds held) (hpop : h.pop? = some (x, h')) :
    ∃ before after, held = before ++ (x.key, x.item) :: after ∧ h'.Holds (before ++ after) ∧
      (∀ y ∈ before, x.key < y.1) ∧ ∀ y ∈ after, x.key ≤ y.1 := by
  obtain ⟨hordered, holder, xs, hperm, hnumbered, rfl⟩ := hheld
  obtain ⟨hroot, hrest⟩ := eq_of_pop hpop
  have hdrop := perm_of_pop hpop
  have hfirst : ∀ z ∈ xs, x.Precedes z := fun z hz =>
    hordered.root_precedes hroot (Array.mem_toList_iff.mp (hperm.symm.subset hz))
  have hmem : x ∈ xs := hperm.subset (hdrop.symm.subset List.mem_cons_self)
  obtain ⟨before, after, rfl⟩ := List.append_of_mem hmem
  obtain ⟨hbefore, hafter⟩ := HeapEntry.first_of_least hnumbered hfirst
  have hsub : (before ++ after).Sublist (before ++ x :: after) :=
    (List.Sublist.refl before).append (List.sublist_cons_self x after)
  have hholds : h'.Holds ((before ++ after).map fun x => (x.key, x.item)) := {
    ordered := hordered.of_pop hpop
    older := fun z hz => by
      rw [hrest]
      exact holder z (hdrop.symm.subset (List.mem_cons_of_mem x hz))
    numbered := ⟨before ++ after, ((hdrop.symm.trans hperm).trans List.perm_middle).cons_inv,
      hnumbered.sublist hsub, rfl⟩ }
  rw [List.map_append] at hholds
  exact ⟨_, _, List.map_append, hholds, List.forall_mem_map.mpr hbefore,
    List.forall_mem_map.mpr hafter⟩

end PriorityHeap

namespace ReadyQueue

variable {q q' : ReadyQueue} {key : Nat} {held : List (Nat × Slot)} {slot : Slot}

/-- Those who wait, with their keys, in the order in which they came. -/
def Holds (q : ReadyQueue) (held : List (Nat × Slot)) : Prop :=
  ∃ h, q = .heap h ∧ h.Holds held

theorem holds_ofPolicy {policy : Policy} (h : policy.usesHeap = true) (n : Nat) :
    (ofPolicy policy n).Holds [] :=
  ⟨.empty n, by rw [ofPolicy, if_pos h], PriorityHeap.holds_empty n⟩

theorem Holds.perm (hheld : q.Holds held) : q.toList.Perm (held.map Prod.snd) := by
  obtain ⟨h, rfl, hheld⟩ := hheld
  exact hheld.perm

theorem Holds.insert (hheld : q.Holds held) (hq : q.insert key slot = .ok q') :
    q'.Holds (held ++ [(key, slot)]) := by
  obtain ⟨h, rfl, hheld⟩ := hheld
  obtain ⟨h', hpush, rfl⟩ := insert_heap hq
  exact ⟨h', rfl, hheld.push hpush⟩

/-- **Whoever goes next is the first of the least.** -/
theorem Holds.take (hheld : q.Holds held) (hq : q.take? = some (slot, q')) :
    ∃ k before after, held = before ++ (k, slot) :: after ∧ q'.Holds (before ++ after) ∧
      (∀ y ∈ before, k < y.1) ∧ ∀ y ∈ after, k ≤ y.1 := by
  obtain ⟨h, rfl, hheld⟩ := hheld
  obtain ⟨x, h', hpop, rfl, rfl⟩ := take_heap hq
  obtain ⟨before, after, hsplit, hrest, hbefore, hafter⟩ := hheld.pop hpop
  exact ⟨x.key, before, after, hsplit, ⟨h', rfl, hrest⟩, hbefore, hafter⟩

end ReadyQueue
end Uniprocessor
