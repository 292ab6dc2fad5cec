import Mathlib.Data.List.Basic
import Mathlib.Data.Nat.ModEq
import Uniprocessor.Ready.Ring

/-!
# What is in a ring

A ring is sound if its items fit it and no slot between the first and the last of them is empty.
Then it behaves as its list of items: an item is put in at the end of the list, and taken out at the
beginning.  The arithmetic is that of places: items that are less than a whole turn apart have
different places (`Ring.place_inj`).

* `Ring.sound_empty`: a new ring is sound;
* `Ring.enqueue_ok`, `Ring.enqueue_full`: a ring takes an item exactly if there is room;
* `Ring.dequeue_some`: a ring with items gives the first one.
-/

namespace Uniprocessor
namespace Ring

variable {α : Type}

/-- The item that has `i` items before it. -/
def item? (r : Ring α) (i : Nat) : Option α :=
  r.slots[r.place i]?.join

/-- The items fit the buffer, and none is missing between the first and the last one. -/
structure Sound (r : Ring α) : Prop where
  front : r.front < r.capacity
  length : r.length ≤ r.capacity
  filled : ∀ i < r.length, ∃ x, r.item? i = some x

theorem toList_eq (r : Ring α) : r.toList = (List.range r.length).filterMap r.item? := rfl

@[simp] theorem capacity_empty (n : Nat) : (empty n : Ring α).capacity = n :=
  Array.size_replicate

theorem sound_empty {n : Nat} (h : 0 < n) : (empty n : Ring α).Sound :=
  ⟨by rw [capacity_empty]; exact h, Nat.zero_le _, fun _ hi => absurd hi (Nat.not_lt_zero _)⟩

theorem place_lt {r : Ring α} (h : r.Sound) (i : Nat) : r.place i < r.capacity :=
  Nat.mod_lt _ (Nat.zero_lt_of_lt h.front)

/-- The slot of an item is there. -/
theorem getElem?_place {r : Ring α} (h : r.Sound) (i : Nat) :
    r.slots[r.place i]? = some (r.item? i) := by
  rw [item?, Array.getElem?_eq_getElem (place_lt h i)]
  rfl

/-- Items that are less than a turn apart have different places. -/
theorem place_inj {r : Ring α} {i j : Nat} (hi : i < r.capacity) (hj : j < r.capacity)
    (h : r.place i = r.place j) : i = j := by
  have hmod : i % r.capacity = j % r.capacity := Nat.ModEq.add_left_cancel' r.front h
  rw [Nat.mod_eq_of_lt hi, Nat.mod_eq_of_lt hj] at hmod
  exact hmod

/-- A sound ring lists the items at its places. -/
theorem map_some_toList {r : Ring α} (h : r.Sound) :
    r.toList.map some = (List.range r.length).map r.item? := by
  have hall : ∀ n ≤ r.length,
      ((List.range n).filterMap r.item?).map some = (List.range n).map r.item? := by
    intro n
    induction n with
    | zero => intro _; rfl
    | succ n ih =>
      intro hn
      obtain ⟨x, hx⟩ := h.filled n (by omega)
      rw [List.range_succ, List.filterMap_append, List.map_append, ih (by omega),
        List.filterMap_cons_some hx, List.map_append, List.map_singleton, hx]
      rfl
  exact hall r.length (Nat.le_refl _)

/-- A sound ring lists as many items as it has. -/
theorem length_toList {r : Ring α} (h : r.Sound) : r.toList.length = r.length := by
  have hlength := congrArg List.length (map_some_toList h)
  rwa [List.length_map, List.length_map, List.length_range] at hlength

theorem getElem?_toList {r : Ring α} (h : r.Sound) {i : Nat} (hi : i < r.length) :
    r.toList[i]? = r.item? i := by
  obtain ⟨x, hx⟩ := h.filled i hi
  have hmap : (r.toList.map some)[i]? = some (some x) := by
    rw [map_some_toList h, List.getElem?_map, List.getElem?_range hi, ← hx]
    rfl
  rw [List.getElem?_map, Option.map_eq_some_iff] at hmap
  obtain ⟨y, hy, heq⟩ := hmap
  rw [hy, hx, heq]

section Enqueue

/-- The ring with an item written behind the last one. -/
def extend (r : Ring α) (x : α) : Ring α :=
  { r with
    slots := r.slots.setIfInBounds (r.place r.length) (some x)
    length := r.length + 1 }

variable {r : Ring α} {x : α}

theorem capacity_extend : (r.extend x).capacity = r.capacity :=
  Array.size_setIfInBounds

theorem place_extend (i : Nat) : (r.extend x).place i = r.place i :=
  congrArg ((r.front + i) % ·) capacity_extend

theorem item?_extend_self (h : r.Sound) : (r.extend x).item? r.length = some x := by
  rw [item?, place_extend]
  show (r.slots.setIfInBounds (r.place r.length) (some x))[r.place r.length]?.join = some x
  rw [Array.getElem?_setIfInBounds_self_of_lt (place_lt h r.length)]
  rfl

theorem item?_extend_of_lt (hroom : r.length < r.capacity) {i : Nat} (hi : i < r.length) :
    (r.extend x).item? i = r.item? i := by
  have hne : r.place r.length ≠ r.place i := fun heq =>
    absurd (place_inj hroom (by omega) heq) (by omega)
  rw [item?, place_extend]
  show (r.slots.setIfInBounds (r.place r.length) (some x))[r.place i]?.join = r.item? i
  rw [Array.getElem?_setIfInBounds_ne hne]
  rfl

theorem enqueue_eq (hroom : r.length < r.capacity) (x : α) : r.enqueue x = .ok (r.extend x) := by
  have hfull : r.isFull = false := beq_eq_false_iff_ne.mpr (Nat.ne_of_lt hroom)
  rw [enqueue, hfull, if_neg Bool.false_ne_true]
  rfl

theorem Sound.extend (h : r.Sound) (hroom : r.length < r.capacity) (x : α) : (r.extend x).Sound where
  front := by
    rw [capacity_extend]
    exact h.front
  length := by
    rw [capacity_extend]
    exact hroom
  filled := by
    intro i hi
    rcases Nat.lt_succ_iff_lt_or_eq.mp hi with hi | rfl
    · rw [item?_extend_of_lt hroom hi]
      exact h.filled i hi
    · exact ⟨x, item?_extend_self h⟩

theorem toList_extend (h : r.Sound) (hroom : r.length < r.capacity) (x : α) :
    (r.extend x).toList = r.toList ++ [x] := by
  show (List.range (r.length + 1)).filterMap (r.extend x).item? = _
  rw [List.range_succ, List.filterMap_append,
    List.filterMap_congr fun i hi => item?_extend_of_lt hroom (List.mem_range.mp hi),
    List.filterMap_cons_some (item?_extend_self h)]
  rfl

theorem eq_of_enqueue {r' : Ring α} (h : r.enqueue x = .ok r') :
    r.length ≠ r.capacity ∧ r' = r.extend x := by
  rw [enqueue] at h
  split at h
  · exact absurd h (by simp)
  · rename_i hfull
    exact ⟨fun heq => hfull (beq_iff_eq.mpr heq), (Except.ok.inj h).symm⟩

theorem eq_full_of_enqueue {e : Failure} (h : r.enqueue x = .error e) : e = .full r.capacity := by
  rw [enqueue] at h
  split at h
  · exact (Except.error.inj h).symm
  · exact absurd h (by simp)

/-- A ring with room takes an item at the rear. -/
theorem enqueue_ok (h : r.Sound) (hroom : r.length < r.capacity) (x : α) :
    ∃ r', r.enqueue x = .ok r' ∧ r'.Sound ∧ r'.capacity = r.capacity ∧
      r'.toList = r.toList ++ [x] :=
  ⟨r.extend x, enqueue_eq hroom x, h.extend hroom x, capacity_extend, toList_extend h hroom x⟩

theorem enqueue_full (h : r.Sound) (hfull : r.capacity ≤ r.length) (x : α) :
    r.enqueue x = .error (.full r.capacity) := by
  have heq : r.isFull = true := beq_iff_eq.mpr (Nat.le_antisymm h.length hfull)
  rw [enqueue, heq, if_pos rfl]

end Enqueue

section Dequeue

/-- The ring without its first item. -/
def drop (r : Ring α) : Ring α :=
  ⟨r.slots.setIfInBounds r.front none, r.place 1, r.length - 1⟩

variable {r : Ring α}

theorem capacity_drop : r.drop.capacity = r.capacity :=
  Array.size_setIfInBounds

theorem place_drop (i : Nat) : r.drop.place i = r.place (i + 1) := by
  show ((r.front + 1) % r.capacity + i) % r.drop.capacity = (r.front + (i + 1)) % r.capacity
  rw [capacity_drop, Nat.mod_add_mod, Nat.add_assoc, Nat.add_comm 1 i]

theorem place_zero (h : r.Sound) : r.place 0 = r.front :=
  Nat.mod_eq_of_lt h.front

theorem item?_drop (h : r.Sound) {i : Nat} (hi : i + 1 < r.length) :
    r.drop.item? i = r.item? (i + 1) := by
  have hle := h.length
  have hne : r.front ≠ r.place (i + 1) := by
    rw [← place_zero h]
    exact fun heq => absurd (place_inj (by omega) (by omega) heq) (by omega)
  rw [item?, place_drop]
  show (r.slots.setIfInBounds r.front none)[r.place (i + 1)]?.join = r.item? (i + 1)
  rw [Array.getElem?_setIfInBounds_ne hne]
  rfl

theorem Sound.drop (h : r.Sound) : r.drop.Sound where
  front := by
    rw [capacity_drop]
    exact place_lt h 1
  length := by
    rw [capacity_drop]
    exact (Nat.sub_le _ _).trans h.length
  filled := by
    intro i hi
    have hi' : i + 1 < r.length := Nat.add_lt_of_lt_sub hi
    rw [item?_drop h hi']
    exact h.filled (i + 1) hi'

/-- A ring with items has one in the slot it begins with, and that is the first one. -/
theorem exists_first (h : r.Sound) (hpos : 0 < r.length) :
    ∃ x, r.slots[r.front]? = some (some x) ∧ r.toList = x :: r.drop.toList := by
  obtain ⟨x, hx⟩ := h.filled 0 hpos
  refine ⟨x, ?_, ?_⟩
  · rw [item?, place_zero h] at hx
    exact Option.join_eq_some_iff.mp hx
  · obtain ⟨n, hn⟩ : ∃ n, r.length = n + 1 := ⟨r.length - 1, by omega⟩
    have hlen : r.drop.length = n := by
      show r.length - 1 = n
      omega
    rw [toList_eq, toList_eq, hn, hlen, List.range_succ_eq_map, List.filterMap_cons_some hx,
      List.filterMap_map]
    refine congrArg (x :: ·) (List.filterMap_congr fun i hi => (item?_drop h ?_).symm)
    have hlt := List.mem_range.mp hi
    omega

theorem dequeue?_eq {x : α} (hpos : 0 < r.length) (hx : r.slots[r.front]? = some (some x)) :
    r.dequeue? = some (x, r.drop) := by
  have hempty : r.isEmpty = false := beq_eq_false_iff_ne.mpr (Nat.ne_of_gt hpos)
  rw [dequeue?, hempty, if_neg Bool.false_ne_true, hx]
  rfl

theorem eq_of_dequeue {x : α} {r' : Ring α} (h : r.dequeue? = some (x, r')) :
    0 < r.length ∧ r.slots[r.front]? = some (some x) ∧ r' = r.drop := by
  rw [dequeue?] at h
  split at h
  · exact absurd h (by simp)
  · rename_i hempty
    obtain ⟨y, hy, hpair⟩ := Option.map_eq_some_iff.mp h
    obtain ⟨rfl, rfl⟩ := Prod.mk.inj hpair
    exact ⟨Nat.pos_of_ne_zero fun hzero => hempty (beq_iff_eq.mpr hzero),
      Option.join_eq_some_iff.mp hy, rfl⟩

/-- A ring with items gives the first one. -/
theorem dequeue_some (h : r.Sound) (hpos : 0 < r.length) :
    ∃ x r', r.dequeue? = some (x, r') ∧ r'.Sound ∧ r'.capacity = r.capacity ∧
      r.toList = x :: r'.toList := by
  obtain ⟨x, hx, hlist⟩ := exists_first h hpos
  exact ⟨x, r.drop, dequeue?_eq hpos hx, h.drop, capacity_drop, hlist⟩

end Dequeue

end Ring
end Uniprocessor
