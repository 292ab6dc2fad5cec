import Uniprocessor.Proofs.Ready.Stable

/-!
# Waiting in line

A ring is left in the order in which it was entered.  So is a heap in which all keys are equal: what
is taken out of a heap is the first of the least, and there all are the least.  Then it makes no
difference which of the two structures a policy uses.

* `PriorityHeap.Level`: a heap of equal keys, and its items in the order they were put in;
* `PriorityHeap.level_iff`: it is a heap that holds the items, each of them with this key;
* `ReadyQueue.Line`: who waits, in the order they came;
* `Line.insert`, `Line.take`: **who comes goes to the end, and who came first goes next**;
* `ReadyQueue.InTurn`: a ring, where this is all that there is to say.
-/

namespace Uniprocessor
namespace PriorityHeap

variable {α : Type} {h h' : PriorityHeap α} {key : Nat} {items : List α} {item : α} {x : HeapEntry α}

/-- A heap in which all keys are `key`, and the items were put in in the order of a list. -/
structure Level (h : PriorityHeap α) (key : Nat) (items : List α) : Prop where
  ordered : Ordered h.entries
  keys : ∀ x ∈ h.entries.toList, x.key = key
  older : ∀ x ∈ h.entries.toList, x.sequence < h.next
  numbered : ∃ xs, h.entries.toList.Perm xs ∧ (xs.Pairwise fun x y => x.sequence < y.sequence) ∧
    xs.map HeapEntry.item = items

theorem level_empty (n key : Nat) : (empty n : PriorityHeap α).Level key [] where
  ordered := ordered_empty
  keys := fun _ hx => absurd hx List.not_mem_nil
  older := fun _ hx => absurd hx List.not_mem_nil
  numbered := ⟨[], List.Perm.refl _, List.Pairwise.nil, rfl⟩

theorem Level.perm (hlevel : h.Level key items) : h.items.Perm items := by
  obtain ⟨xs, hperm, -, rfl⟩ := hlevel.numbered
  exact hperm.map _

theorem level_iff : h.Level key items ↔ h.Holds (items.map fun item => (key, item)) := by
  constructor
  · rintro ⟨hordered, hkeys, holder, xs, hperm, hnumbered, rfl⟩
    refine ⟨hordered, holder, xs, hperm, hnumbered, ?_⟩
    rw [List.map_map]
    exact List.map_congr_left fun x hx =>
      congrArg (·, x.item) (hkeys x (hperm.symm.subset hx))
  · rintro ⟨hordered, holder, xs, hperm, hnumbered, hheld⟩
    refine ⟨hordered, fun x hx => ?_, holder, xs, hperm, hnumbered, ?_⟩
    · have hmem : (x.key, x.item) ∈ items.map fun item => (key, item) :=
        hheld ▸ List.mem_map_of_mem (hperm.subset hx)
      obtain ⟨item, -, heq⟩ := List.mem_map.mp hmem
      exact (Prod.mk.inj heq).1.symm
    · have hitems := congrArg (List.map Prod.snd) hheld
      rw [List.map_map, List.map_map] at hitems
      exact hitems.trans (List.map_id items)

/-- An item that is put in is the last one. -/
theorem Level.push (hlevel : h.Level key items) (hpush : h.push key item = .ok h') :
    h'.Level key (items ++ [item]) := by
  rw [level_iff, List.map_append]
  exact (level_iff.mp hlevel).push hpush

/-- The item that is taken out is the one that was put in first. -/
theorem Level.pop (hlevel : h.Level key items) (hpop : h.pop? = some (x, h')) :
    ∃ rest, items = x.item :: rest ∧ h'.Level key rest := by
  obtain ⟨before, after, hsplit, hrest, hbefore, -⟩ := (level_iff.mp hlevel).pop hpop
  obtain ⟨first, rest, rfl, rfl, hlast⟩ := List.map_eq_append_iff.mp hsplit
  obtain ⟨y, rest, rfl, hy, rfl⟩ := List.map_eq_cons_iff.mp hlast
  obtain ⟨rfl, rfl⟩ := Prod.mk.inj hy
  cases first with
  | nil => exact ⟨rest, rfl, level_iff.mpr hrest⟩
  | cons z zs => exact absurd (hbefore _ List.mem_cons_self) (Nat.lt_irrefl _)

end PriorityHeap

namespace ReadyQueue

variable {q q' : ReadyQueue} {key : Nat} {l : List Slot} {slot : Slot}

/-- The waiting processes in the order they came; if they have keys, the keys are all `key`. -/
def Line (q : ReadyQueue) (key : Nat) (l : List Slot) : Prop :=
  match q with
  | heap h => h.Level key l
  | ring r => r.toList = l

theorem line_ofPolicy (policy : Policy) (n key : Nat) : (ofPolicy policy n).Line key [] := by
  unfold ofPolicy
  split
  · exact PriorityHeap.level_empty n key
  · rfl

theorem Line.perm (hline : q.Line key l) : q.toList.Perm l := by
  cases q with
  | heap h => exact PriorityHeap.Level.perm hline
  | ring r => exact List.Perm.of_eq hline

theorem Line.size_eq (hline : q.Line key l) (h : q.Sound) : q.size = l.length := by
  rw [← length_toList h, hline.perm.length_eq]

/-- Where there are keys, the least one is that of everybody. -/
theorem Line.leastKey_eq (hline : q.Line key l) {k : Nat} (hleast : q.leastKey? = some k) :
    k = key := by
  cases q with
  | ring r => exact absurd hleast (by simp [leastKey?])
  | heap h =>
    obtain ⟨x, hroot, rfl⟩ := Option.map_eq_some_iff.mp hleast
    exact PriorityHeap.Level.keys hline x (Array.mem_toList_iff.mpr (Array.mem_of_getElem? hroot))

/-- **Who comes goes to the end of the line.** -/
theorem Line.insert (hline : q.Line key l) (h : q.Sound) (hq : q.insert key slot = .ok q') :
    q'.Line key (l ++ [slot]) := by
  cases q with
  | heap g =>
    obtain ⟨g', hpush, rfl⟩ := insert_heap hq
    exact PriorityHeap.Level.push hline hpush
  | ring r =>
    obtain ⟨r', hput, rfl⟩ := insert_ring hq
    obtain ⟨hroom, rfl⟩ := Ring.eq_of_enqueue hput
    have hlist := Ring.toList_extend h (Nat.lt_of_le_of_ne (Ring.Sound.length h) hroom) slot
    exact hlist.trans (congrArg (· ++ [slot]) hline)

/-- **Who came first goes next.** -/
theorem Line.take (hline : q.Line key l) (h : q.Sound) (hq : q.take? = some (slot, q')) :
    ∃ rest, l = slot :: rest ∧ q'.Line key rest := by
  cases q with
  | heap g =>
    obtain ⟨x, g', hpop, rfl, rfl⟩ := take_heap hq
    exact PriorityHeap.Level.pop hline hpop
  | ring r =>
    obtain ⟨r', hget, rfl⟩ := take_ring hq
    obtain ⟨y, r₁, hget', -, -, hlist⟩ := Ring.dequeue_some h (Ring.eq_of_dequeue hget).1
    obtain ⟨rfl, rfl⟩ := Prod.mk.inj (Option.some.inj (hget'.symm.trans hget))
    exact ⟨r₁.toList, hline.symm.trans hlist, rfl⟩

/-! ## In turn -/

/-- The waiting processes are served in turn, and have no keys. -/
def InTurn (q : ReadyQueue) : Prop :=
  ∃ r, q = .ring r

theorem inTurn_ofPolicy (quantum n : Nat) : (ofPolicy (.roundRobin quantum) n).InTurn :=
  ⟨.empty n, rfl⟩

theorem InTurn.insert (hturn : q.InTurn) (h : q.Sound) (hq : q.insert key slot = .ok q') :
    q'.InTurn ∧ q'.toList = q.toList ++ [slot] := by
  obtain ⟨r, rfl⟩ := hturn
  obtain ⟨r', -, rfl⟩ := insert_ring hq
  have hring : (ring r).Line key r.toList := rfl
  exact ⟨⟨r', rfl⟩, hring.insert h hq⟩

theorem InTurn.take (hturn : q.InTurn) (h : q.Sound) (hq : q.take? = some (slot, q')) :
    q'.InTurn ∧ q.toList = slot :: q'.toList := by
  obtain ⟨r, rfl⟩ := hturn
  obtain ⟨r', -, rfl⟩ := take_ring hq
  have hring : (ring r).Line 0 r.toList := rfl
  obtain ⟨rest, hlist, hline⟩ := hring.take h hq
  exact ⟨⟨r', rfl⟩, hlist.trans (congrArg (slot :: ·) hline.symm)⟩

end ReadyQueue
end Uniprocessor
