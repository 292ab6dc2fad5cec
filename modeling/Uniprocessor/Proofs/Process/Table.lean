import Mathlib.Data.List.Nodup
import Mathlib.Data.List.Perm.Basic
import Uniprocessor.Process.Table

/-!
# Slots of a process table

A table is sound if its vacant slots are exactly the slots that hold nothing, each listed once.
Then a new process never gets a slot that is taken, and the operations are those of a finite map
from slots to control blocks.

The map is what most proofs look at: `get?_insert`, `get?_set`, `get?_remove`.  Where the control
blocks are counted or collected, `toList` is needed as well; the operations change one entry of it,
and `exists_rest` gives all the others a name.

* `ProcessTable.Sound`, `sound_empty`, `Sound.insert`, `Sound.set`, `Sound.vacate`;
* `toList_insert`, `exists_rest`: the list of control blocks;
* `map_get?_taken`, `Sound.length_vacant`: the slots that are taken, and how many are not.
-/

namespace Uniprocessor
namespace ProcessTable

/-- The vacant slots are those that hold nothing, each listed once. -/
structure Sound (t : ProcessTable) : Prop where
  nodup : t.vacant.Nodup
  vacant_iff : ∀ s, s ∈ t.vacant ↔ s < t.slots.size ∧ t.get? s = none

theorem sound_empty : empty.Sound :=
  ⟨List.nodup_nil, fun s => by simp [empty]⟩

@[simp] theorem get?_empty (s : Slot) : empty.get? s = none := rfl

@[simp] theorem toList_empty : empty.toList = [] := rfl

variable {t : ProcessTable} {slot : Slot} {b : ControlBlock}

/-- A slot that is taken exists. -/
theorem lt_size_of_get? (h : t.get? slot = some b) : slot < t.slots.size := by
  by_contra hge
  rw [get?, Array.getElem?_eq_none (Nat.le_of_not_lt hge)] at h
  exact absurd h (by simp)

/-- What the slots hold after one of them was written. -/
theorem join_setIfInBounds (a : Array (Option ControlBlock)) {i : Nat} (hi : i < a.size)
    (x : Option ControlBlock) (j : Nat) :
    (a.setIfInBounds i x)[j]?.join = if j = i then x else a[j]?.join := by
  by_cases h : j = i
  · rw [h, Array.getElem?_setIfInBounds_self_of_lt hi, if_pos rfl]
    rfl
  · rw [Array.getElem?_setIfInBounds_ne (Ne.symm h), if_neg h]

/-! ## As a map -/

/-- A new process gets the slot vacated last. -/
theorem insert_vacant {rest : List Slot} (h : t.vacant = slot :: rest) :
    t.insert b = (slot, ⟨t.slots.setIfInBounds slot (some b), rest⟩) := by
  rw [insert, h]

/-- It gets a new slot if none is vacant. -/
theorem insert_fresh (h : t.vacant = []) :
    t.insert b = (t.slots.size, ⟨t.slots.push (some b), []⟩) := by
  rw [insert, h]

/-- A new process gets a slot that was not taken. -/
theorem get?_new (h : t.Sound) (b : ControlBlock) : t.get? (t.insert b).1 = none := by
  cases hvac : t.vacant with
  | nil =>
    rw [insert_fresh hvac, get?, Array.getElem?_eq_none (Nat.le_refl _)]
    rfl
  | cons slot rest =>
    rw [insert_vacant hvac]
    exact ((h.vacant_iff slot).mp (hvac ▸ List.mem_cons_self)).2

theorem get?_insert (h : t.Sound) (b : ControlBlock) (s : Slot) :
    (t.insert b).2.get? s = if s = (t.insert b).1 then some b else t.get? s := by
  cases hvac : t.vacant with
  | nil =>
    rw [insert_fresh hvac]
    show (t.slots.push (some b))[s]?.join = _
    rw [Array.getElem?_push]
    split <;> rfl
  | cons slot rest =>
    rw [insert_vacant hvac]
    exact join_setIfInBounds t.slots ((h.vacant_iff slot).mp (hvac ▸ List.mem_cons_self)).1 _ s

/-- A live process stays in its slot when another one comes. -/
theorem get?_insert_of_live (h : t.Sound) {s : Slot} {d : ControlBlock} (hd : t.get? s = some d)
    (b : ControlBlock) : (t.insert b).2.get? s = some d := by
  rw [get?_insert h, if_neg fun heq => ?_]
  · exact hd
  · rw [heq, get?_new h] at hd
    exact absurd hd (by simp)

theorem Sound.insert (h : t.Sound) (b : ControlBlock) : (t.insert b).2.Sound := by
  have hget := get?_insert h b
  have hnodup := h.nodup
  cases hvac : t.vacant with
  | nil =>
    rw [insert_fresh hvac] at hget ⊢
    refine ⟨List.nodup_nil, ?_⟩
    intro s
    have hiff := h.vacant_iff s
    rw [hvac] at hiff
    rw [hget, Array.size_push]
    constructor
    · exact fun hs => absurd hs List.not_mem_nil
    · rintro ⟨hlt, hnone⟩
      split at hnone
      · exact absurd hnone (by simp)
      · rename_i hne
        exact hiff.mpr ⟨Nat.lt_of_le_of_ne (Nat.lt_succ_iff.mp hlt) hne, hnone⟩
  | cons slot rest =>
    rw [insert_vacant hvac] at hget ⊢
    rw [hvac, List.nodup_cons] at hnodup
    refine ⟨hnodup.2, ?_⟩
    intro s
    have hiff := h.vacant_iff s
    rw [hvac, List.mem_cons] at hiff
    rw [hget, Array.size_setIfInBounds]
    constructor
    · intro hs
      have hne : s ≠ slot := fun heq => hnodup.1 (heq ▸ hs)
      rw [if_neg hne]
      exact hiff.mp (Or.inr hs)
    · rintro ⟨hlt, hnone⟩
      split at hnone
      · exact absurd hnone (by simp)
      · rename_i hne
        exact (hiff.mpr ⟨hlt, hnone⟩).resolve_left hne

/-- The slot that is given out is the only one that is no longer vacant. -/
theorem mem_vacant_insert (h : t.Sound) (b : ControlBlock) (s : Slot) :
    s ∈ (t.insert b).2.vacant ↔ s ∈ t.vacant ∧ s ≠ (t.insert b).1 := by
  cases hvac : t.vacant with
  | nil => simp [insert_fresh hvac]
  | cons slot rest =>
    have hnodup := h.nodup
    rw [hvac, List.nodup_cons] at hnodup
    rw [insert_vacant hvac, List.mem_cons]
    show s ∈ rest ↔ (s = slot ∨ s ∈ rest) ∧ s ≠ slot
    constructor
    · exact fun hs => ⟨Or.inr hs, fun heq => hnodup.1 (heq ▸ hs)⟩
    · exact fun hs => hs.1.resolve_left hs.2

theorem set_eq (h : t.get? slot = some b) (b' : ControlBlock) :
    t.set slot b' = { t with slots := t.slots.setIfInBounds slot (some b') } := by
  rw [set, h]

theorem get?_set (h : t.get? slot = some b) (b' : ControlBlock) (s : Slot) :
    (t.set slot b').get? s = if s = slot then some b' else t.get? s := by
  rw [set_eq h]
  exact join_setIfInBounds t.slots (lt_size_of_get? h) (some b') s

theorem get?_set_self (h : t.get? slot = some b) (b' : ControlBlock) :
    (t.set slot b').get? slot = some b' :=
  (get?_set h b' slot).trans (if_pos rfl)

theorem get?_set_of_ne (h : t.get? slot = some b) (b' : ControlBlock) {s : Slot} (hs : s ≠ slot) :
    (t.set slot b').get? s = t.get? s :=
  (get?_set h b' s).trans (if_neg hs)

theorem Sound.set (h : t.Sound) (hslot : t.get? slot = some b) (b' : ControlBlock) :
    (t.set slot b').Sound := by
  have hget := get?_set hslot b'
  rw [set_eq hslot] at hget ⊢
  refine ⟨h.nodup, ?_⟩
  intro s
  rw [hget, Array.size_setIfInBounds]
  refine (h.vacant_iff s).trans (and_congr_right ?_)
  intro _
  split
  · rename_i heq
    rw [heq, hslot]
    simp
  · exact Iff.rfl

/-- The table without the process in a slot. -/
def vacate (t : ProcessTable) (slot : Slot) : ProcessTable :=
  ⟨t.slots.setIfInBounds slot none, slot :: t.vacant⟩

theorem remove?_eq (h : t.get? slot = some b) : t.remove? slot = some (b, t.vacate slot) := by
  rw [remove?, h]
  rfl

theorem get?_vacate (h : t.get? slot = some b) (s : Slot) :
    (t.vacate slot).get? s = if s = slot then none else t.get? s :=
  join_setIfInBounds t.slots (lt_size_of_get? h) none s

theorem get?_vacate_of_ne (h : t.get? slot = some b) {s : Slot} (hs : s ≠ slot) :
    (t.vacate slot).get? s = t.get? s :=
  (get?_vacate h s).trans (if_neg hs)

theorem Sound.vacate (h : t.Sound) (hslot : t.get? slot = some b) : (t.vacate slot).Sound := by
  constructor
  · refine List.nodup_cons.mpr ⟨?_, h.nodup⟩
    intro hmem
    rw [((h.vacant_iff slot).mp hmem).2] at hslot
    exact absurd hslot (by simp)
  · intro s
    have hiff := h.vacant_iff s
    have hlt := lt_size_of_get? hslot
    rw [get?_vacate hslot]
    show s ∈ slot :: t.vacant ↔ s < (t.slots.setIfInBounds slot none).size ∧ _
    rw [List.mem_cons, Array.size_setIfInBounds]
    by_cases heq : s = slot
    · rw [if_pos heq, heq]
      exact ⟨fun _ => ⟨hlt, rfl⟩, fun _ => Or.inl rfl⟩
    · rw [if_neg heq, ← hiff]
      exact ⟨fun hs => hs.resolve_left heq, Or.inr⟩

theorem get?_insert_self (h : t.Sound) (b : ControlBlock) :
    (t.insert b).2.get? (t.insert b).1 = some b := by
  rw [get?_insert h, if_pos rfl]

/-- A new process that is taken out again leaves every slot as it was. -/
theorem get?_vacate_insert (h : t.Sound) (b : ControlBlock) (s : Slot) :
    ((t.insert b).2.vacate (t.insert b).1).get? s = t.get? s := by
  rw [get?_vacate (get?_insert_self h b), get?_insert h]
  by_cases hs : s = (t.insert b).1
  · rw [if_pos hs, hs, get?_new h]
  · rw [if_neg hs, if_neg hs]

/-! ## As a list -/

/-- Writing into an empty slot adds one item to those listed. -/
theorem filterMap_set_perm {α : Type} {l : List (Option α)} {i : Nat} (h : l[i]? = some none)
    (x : α) : ((l.set i (some x)).filterMap id).Perm (x :: l.filterMap id) := by
  induction l generalizing i with
  | nil => exact absurd h (by simp)
  | cons y l ih =>
    cases i with
    | zero =>
      obtain rfl : y = none := by simpa using h
      exact List.Perm.refl _
    | succ i =>
      have hperm := ih (i := i) (by simpa using h)
      rw [List.set_cons_succ]
      cases y with
      | none => exact hperm
      | some y => exact (hperm.cons y).trans (List.Perm.swap x y _)

theorem mem_toList : b ∈ t.toList ↔ ∃ s, t.get? s = some b := by
  rw [toList, List.mem_filterMap]
  constructor
  · rintro ⟨x, hx, rfl⟩
    obtain ⟨s, hs⟩ := List.mem_iff_getElem?.mp hx
    exact ⟨s, by rw [get?, ← Array.getElem?_toList, hs]; rfl⟩
  · rintro ⟨s, hs⟩
    rw [get?, Option.join_eq_some_iff] at hs
    refine ⟨some b, ?_, rfl⟩
    rw [← Array.getElem?_toList] at hs
    exact List.mem_of_getElem? hs

/-- The processes are those in the slots, in the order of the slots. -/
theorem toList_eq (t : ProcessTable) {n : Nat} (h : t.slots.size ≤ n) :
    t.toList = (List.range n).filterMap t.get? := by
  obtain ⟨k, rfl⟩ := Nat.exists_eq_add_of_le h
  have hslots : (List.range t.slots.size).filterMap t.get? = t.toList := by
    have hget : t.slots.toList = (List.range t.slots.size).map fun i => t.slots[i]?.join := by
      refine List.ext_getElem (by simp) fun i hi _ => ?_
      simp [Array.getElem?_eq_getElem (by simpa using hi : i < t.slots.size)]
    rw [toList, hget, List.filterMap_map]
    rfl
  have hbeyond : ((List.range k).map (t.slots.size + ·)).filterMap t.get? = [] := by
    refine List.filterMap_eq_nil_iff.mpr fun slot hslot => ?_
    obtain ⟨i, -, rfl⟩ := List.mem_map.mp hslot
    exact congrArg Option.join (Array.getElem?_eq_none (Nat.le_add_right _ _))
  rw [List.range_add, List.filterMap_append, hslots, hbeyond, List.append_nil]

/-- Slots in which nobody is do not count. -/
theorem toList_congr {t' : ProcessTable} (hsize : t.slots.size ≤ t'.slots.size)
    (h : ∀ s, t'.get? s = t.get? s) : t'.toList = t.toList := by
  rw [toList_eq t' (Nat.le_refl _), funext h, ← toList_eq t hsize]

/-- The slots that are taken, in order. -/
def taken (t : ProcessTable) : List Slot :=
  (List.range t.slots.size).filter fun s => (t.get? s).isSome

theorem mem_taken : slot ∈ t.taken ↔ ∃ b, t.get? slot = some b := by
  rw [taken, List.mem_filter, List.mem_range, Option.isSome_iff_exists]
  constructor
  · exact And.right
  · rintro ⟨b, hb⟩
    exact ⟨lt_size_of_get? hb, b, hb⟩

theorem nodup_taken (t : ProcessTable) : t.taken.Nodup :=
  List.nodup_range.filter _

/-- The control blocks are listed by the slots that are taken. -/
theorem map_get?_taken (t : ProcessTable) : t.taken.map t.get? = t.toList.map some := by
  have htaken : t.taken.filterMap t.get? = t.toList := by
    rw [toList_eq t (Nat.le_refl _), taken, List.filterMap_filter]
    refine List.filterMap_congr fun s _ => ?_
    split
    · rfl
    · rename_i hnone
      exact (Option.not_isSome_iff_eq_none.mp hnone).symm
  rw [← htaken, List.map_filterMap, eq_comm, List.filterMap_eq_map_iff_forall_eq_some]
  intro s hs
  obtain ⟨b, hb⟩ := mem_taken.mp hs
  rw [hb]
  rfl

/-- **Every slot is either vacant or taken.** -/
theorem Sound.length_vacant (h : t.Sound) :
    t.vacant.length + t.toList.length = t.slots.size := by
  have htaken := congrArg List.length (map_get?_taken t)
  rw [List.length_map, List.length_map] at htaken
  have hvacant : t.vacant.Perm ((List.range t.slots.size).filter fun s => !(t.get? s).isSome) := by
    refine (List.perm_ext_iff_of_nodup h.nodup (List.nodup_range.filter _)).mpr fun s => ?_
    rw [h.vacant_iff, List.mem_filter, List.mem_range, Bool.not_eq_true', Option.isSome_eq_false_iff,
      Option.isNone_iff_eq_none]
  have hslots := List.length_eq_length_filter_add (l := List.range t.slots.size)
    fun s => (t.get? s).isSome
  rw [List.length_range] at hslots
  rw [hvacant.length_eq, ← htaken, taken, Nat.add_comm]
  exact hslots.symm

theorem toList_insert (h : t.Sound) (b : ControlBlock) :
    (t.insert b).2.toList.Perm (b :: t.toList) := by
  cases hvac : t.vacant with
  | nil =>
    rw [insert_fresh hvac, toList, Array.toList_push, List.filterMap_append]
    exact List.perm_append_singleton b _
  | cons slot rest =>
    obtain ⟨hlt, hnone⟩ := (h.vacant_iff slot).mp (hvac ▸ List.mem_cons_self)
    have hslot : t.slots.toList[slot]? = some none := by
      rw [get?, Array.getElem?_eq_getElem hlt] at hnone
      rw [Array.getElem?_toList, Array.getElem?_eq_getElem hlt]
      exact congrArg some hnone
    rw [insert_vacant hvac, toList, Array.toList_setIfInBounds]
    exact filterMap_set_perm hslot b

/-- The control blocks besides the one in a slot stay when that one is replaced or removed. -/
theorem exists_rest (h : t.get? slot = some b) :
    ∃ rest, t.toList.Perm (b :: rest) ∧ (∀ b', (t.set slot b').toList.Perm (b' :: rest)) ∧
      (t.vacate slot).toList.Perm rest := by
  have hlt := lt_size_of_get? h
  have hslot : t.slots.toList[slot]? = some (some b) := by
    rw [Array.getElem?_toList]
    exact Option.join_eq_some_iff.mp h
  have hempty : (t.slots.toList.set slot none)[slot]? = some none :=
    List.getElem?_set_self (by rw [Array.length_toList]; exact hlt)
  refine ⟨(t.slots.toList.set slot none).filterMap id, ?_, ?_, ?_⟩
  · obtain ⟨hlt', heq⟩ := List.getElem?_eq_some_iff.mp hslot
    have hsame : t.slots.toList.set slot (some b) = t.slots.toList := by
      rw [← heq, List.set_getElem_self]
    have hperm := filterMap_set_perm hempty b
    rw [List.set_set, hsame] at hperm
    exact hperm
  · intro b'
    have hperm := filterMap_set_perm hempty b'
    rw [List.set_set] at hperm
    rw [set_eq h, toList, Array.toList_setIfInBounds]
    exact hperm
  · rw [vacate, toList, Array.toList_setIfInBounds]

theorem length_set (h : t.get? slot = some b) (b' : ControlBlock) :
    (t.set slot b').toList.length = t.toList.length := by
  obtain ⟨rest, hlist, hset, -⟩ := exists_rest h
  rw [(hset b').length_eq, hlist.length_eq, List.length_cons, List.length_cons]

theorem length_vacate (h : t.get? slot = some b) :
    (t.vacate slot).toList.length + 1 = t.toList.length := by
  obtain ⟨rest, hlist, -, hrest⟩ := exists_rest h
  rw [hrest.length_eq, hlist.length_eq, List.length_cons]

end ProcessTable
end Uniprocessor
