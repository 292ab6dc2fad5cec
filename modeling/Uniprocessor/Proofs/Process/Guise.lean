import Uniprocessor.Proofs.Memory.Guise
import Uniprocessor.Proofs.Process.Table
import Uniprocessor.Proofs.Units.Later

/-!
# Process tables under a guise

A control block has ticks in it and a block of memory, so it can be seen under a guise: its ticks are
later, and its block has its generation renamed.  The times it is asked for are differences of ticks, and
stay what they are.

A table under a guise has the same processes in the same slots.  It may have more slots, if these are
vacant and listed behind all other vacant ones, in order: that is how they come up if they are made when
they are needed.

* `ControlBlock.under`: a control block under a guise, and what becomes of it;
* `ProcessTable.Guised`: a table is another one under a guise;
* `Guised.insert`, `Guised.set`, `Guised.remove?`: **then both give out the same slots**, and stay so;
* `Sound.undone`: a table from which a new process has been taken again.
-/

namespace Uniprocessor

variable {g : Guise}

namespace ControlBlock

/-- A control block under a guise. -/
def under (g : Guise) (b : ControlBlock) : ControlBlock :=
  { b with
    arrival := b.arrival + g.delay
    waitStart := b.waitStart + g.delay
    memory := b.memory.under g }

variable (b : ControlBlock) (tick : Tick)

@[simp] theorem unit_under : (b.under g).unit = b.unit := rfl

theorem ofProcess_under (p : Process) (block : Buddy.Block) :
    ofProcess (p.later g.delay) (block.under g) = (ofProcess p block).under g := rfl

theorem started_under (unit : UnitId) :
    (b.under g).started (tick + g.delay) unit = (b.started tick unit).under g := by
  have hwaiting : tick + g.delay - (b.arrival + g.delay) = tick - b.arrival :=
    Nat.add_sub_add_right ..
  simp only [started, under, hwaiting]

theorem stopped_under : (b.under g).stopped (tick + g.delay) = (b.stopped tick).under g := rfl

theorem resumed_under : (b.under g).resumed (tick + g.delay) = (b.resumed tick).under g := by
  have hwaiting : tick + g.delay - (b.waitStart + g.delay) = tick - b.waitStart :=
    Nat.add_sub_add_right ..
  simp only [resumed, under, hwaiting]

theorem turnaround_under : (b.under g).turnaround (tick + g.delay) = b.turnaround tick :=
  Nat.add_sub_add_right ..

theorem weightedTurnaround_under :
    (b.under g).weightedTurnaround (tick + g.delay) = b.weightedTurnaround tick := by
  unfold weightedTurnaround
  rw [turnaround_under]
  rfl

/-- A control block to which nothing happens later, and whose block is too old to be renamed. -/
theorem under_of_older {b : ControlBlock} (hdelay : g.delay = 0)
    (hmemory : b.memory.key.generation < g.since) : b.under g = b := by
  have hkey : b.memory.under g = b.memory := by
    have hgeneration : g.generation b.memory.key.generation = b.memory.key.generation :=
      if_pos hmemory
    rw [Buddy.Block.under, Buddy.Key.under, hgeneration]
  rw [under, hdelay, hkey]
  rfl

end ControlBlock

namespace ProcessTable

variable {t t' : ProcessTable}

/-- The table `t'` is `t` under a guise: it has the same processes in the same slots, and gives out the
same slots from then on. -/
structure Guised (g : Guise) (t t' : ProcessTable) : Prop where
  sound : t.Sound
  sound' : t'.Sound
  get? : ∀ slot, t'.get? slot = (t.get? slot).map (ControlBlock.under g)
  spare : ∃ n, t'.vacant = t.vacant ++ List.range' t.slots.size n ∧
    t'.slots.size = t.slots.size + n

namespace Guised

/-- The same processes are live, in the same order. -/
theorem toList (h : t.Guised g t') : t'.toList = t.toList.map (ControlBlock.under g) := by
  obtain ⟨n, -, hsize⟩ := h.spare
  have hget : t'.get? = fun slot => (t.get? slot).map (ControlBlock.under g) := funext h.get?
  rw [toList_eq t' (Nat.le_refl _), toList_eq t (hsize ▸ Nat.le_add_right _ n), hget,
    List.map_filterMap]

/-- **A new process gets the same slot.** -/
theorem insert (h : t.Guised g t') (b : ControlBlock) :
    (t'.insert (b.under g)).1 = (t.insert b).1 ∧
      (t.insert b).2.Guised g (t'.insert (b.under g)).2 := by
  obtain ⟨n, hvacant, hsize⟩ := h.spare
  have hslot : (t'.insert (b.under g)).1 = (t.insert b).1 ∧
      ∃ n, (t'.insert (b.under g)).2.vacant =
          (t.insert b).2.vacant ++ List.range' (t.insert b).2.slots.size n ∧
        (t'.insert (b.under g)).2.slots.size = (t.insert b).2.slots.size + n := by
    cases hv : t.vacant with
    | cons slot rest =>
      rw [hv, List.cons_append] at hvacant
      rw [insert_vacant hv, insert_vacant hvacant]
      refine ⟨rfl, n, ?_, ?_⟩
      · rw [Array.size_setIfInBounds]
      · rw [Array.size_setIfInBounds, Array.size_setIfInBounds, hsize]
    | nil =>
      rw [hv, List.nil_append] at hvacant
      rw [insert_fresh hv]
      cases n with
      | zero =>
        rw [insert_fresh hvacant]
        refine ⟨hsize, 0, rfl, ?_⟩
        rw [Array.size_push, Array.size_push, hsize]
      | succ n =>
        rw [List.range'_succ] at hvacant
        rw [insert_vacant hvacant]
        refine ⟨rfl, n, ?_, ?_⟩
        · rw [Array.size_push, List.nil_append]
        · rw [Array.size_setIfInBounds, Array.size_push, hsize]
          omega
  refine ⟨hslot.1, h.sound.insert b, h.sound'.insert _, fun slot => ?_, hslot.2⟩
  rw [get?_insert h.sound, get?_insert h.sound', hslot.1, h.get?]
  split <;> rfl

theorem set (h : t.Guised g t') (slot : Slot) (b : ControlBlock) :
    (t.set slot b).Guised g (t'.set slot (b.under g)) := by
  have hget := h.get? slot
  cases hslot : t.get? slot with
  | none =>
    rw [hslot] at hget
    rw [ProcessTable.set, hslot, ProcessTable.set, hget]
    exact h
  | some d =>
    rw [hslot] at hget
    obtain ⟨n, hvacant, hsize⟩ := h.spare
    refine ⟨h.sound.set hslot b, h.sound'.set hget _, fun s => ?_, n, ?_, ?_⟩
    · rw [get?_set hslot, get?_set hget, h.get?]
      split <;> rfl
    · rw [set_eq hslot, set_eq hget, Array.size_setIfInBounds]
      exact hvacant
    · rw [set_eq hslot, set_eq hget, Array.size_setIfInBounds, Array.size_setIfInBounds]
      exact hsize

/-- **The same process is taken out of a slot**, or none is. -/
theorem remove? (h : t.Guised g t') (slot : Slot) :
    Option.Rel (fun x x' => x'.1 = x.1.under g ∧ x.2.Guised g x'.2) (t.remove? slot)
      (t'.remove? slot) := by
  have hget := h.get? slot
  cases hslot : t.get? slot with
  | none =>
    rw [hslot] at hget
    rw [ProcessTable.remove?, hslot, ProcessTable.remove?, hget]
    exact .none
  | some d =>
    rw [hslot] at hget
    obtain ⟨n, hvacant, hsize⟩ := h.spare
    rw [remove?_eq hslot, remove?_eq hget]
    refine .some ⟨rfl, h.sound.vacate hslot, h.sound'.vacate hget, fun s => ?_, n, ?_, ?_⟩
    · rw [get?_vacate hslot, get?_vacate hget, h.get?]
      split <;> rfl
    · rw [vacate, vacate, Array.size_setIfInBounds, hvacant]
      rfl
    · rw [vacate, vacate, Array.size_setIfInBounds, Array.size_setIfInBounds]
      exact hsize

end Guised

/-- **A new process can be taken out again without a trace**, if no process looks different under the
guise. -/
theorem Sound.undone (h : t.Sound) (hsame : ∀ slot b, t.get? slot = some b → b.under g = b)
    (b : ControlBlock) : t.Guised g ((t.insert b).2.vacate (t.insert b).1) := by
  refine ⟨h, (h.insert b).vacate (get?_insert_self h b), fun s => ?_, ?_⟩
  · rw [get?_vacate_insert h]
    cases hs : t.get? s with
    | none => rfl
    | some d => exact congrArg some (hsame s d hs).symm
  · cases hv : t.vacant with
    | cons slot rest =>
      rw [insert_vacant hv]
      refine ⟨0, (List.append_nil _).symm, ?_⟩
      rw [ProcessTable.vacate, Array.size_setIfInBounds, Array.size_setIfInBounds]
      rfl
    | nil =>
      rw [insert_fresh hv]
      refine ⟨1, rfl, ?_⟩
      rw [ProcessTable.vacate, Array.size_setIfInBounds, Array.size_push]

end ProcessTable

end Uniprocessor
