import Uniprocessor.Proofs.Backlog
import Uniprocessor.Proofs.Machine.Timing

/-!
# What the live processes have to go

A tick that finds the processor taken burns a tick of the running process, and of no other one.
Moving processes about at the end of a tick burns nothing.  So whatever is asked of the work that is
left, depends on the policy only through the process that is burnt.

* `Machine.backlog`: the ticks that each live process has to go;
* `Timely.backlog_reported`: **a tick burns a tick of the running process**;
* `Turn.perm_map`: what the end of a tick does not change of any process;
* `Timely.backlog_turn`: **the end of a tick burns nothing.**
-/

namespace Uniprocessor
namespace Machine

variable {m m' : Machine} {slot : Slot} {b d : ControlBlock} {u : UnitId} {tick f : Tick}

/-- The ticks that each live process has to go. -/
def backlog (m : Machine) : List Nat :=
  m.table.toList.map ControlBlock.remaining

/-- Nobody who is live has nothing to go. -/
theorem Timely.backlog_pos (h : m.Timely f) : ∀ x ∈ m.backlog, 0 < x := by
  intro x hx
  obtain ⟨b, hb, rfl⟩ := List.mem_map.mp hx
  obtain ⟨slot, hslot⟩ := ProcessTable.mem_toList.mp hb
  exact (h slot b hslot).left_pos

/-- The backlog of a process and of the others, whatever becomes of the one. -/
theorem exists_others (hslot : m.table.get? slot = some b) :
    ∃ others, m.backlog.Perm (b.remaining :: others) ∧
      (∀ b', ((m.table.set slot b').toList.map ControlBlock.remaining).Perm
        (b'.remaining :: others)) ∧
      ((m.table.vacate slot).toList.map ControlBlock.remaining).Perm others := by
  obtain ⟨rest, hlist, hset, hrest⟩ := ProcessTable.exists_rest hslot
  exact ⟨rest.map ControlBlock.remaining, hlist.map _, fun b' => (hset b').map _, hrest.map _⟩

/-- A process that is written down anew looks as before to whoever asks for `f` only. -/
theorem perm_map_set {α : Type} {f : ControlBlock → α} (hslot : m.table.get? slot = some b)
    (hf : f d = f b) : ((m.table.set slot d).toList.map f).Perm (m.table.toList.map f) := by
  obtain ⟨rest, hlist, hset, -⟩ := ProcessTable.exists_rest hslot
  have hafter := (hset d).map f
  rw [List.map_cons, hf, ← List.map_cons] at hafter
  exact hafter.trans (hlist.map f).symm

/-! ## Reports -/

/-- **A tick that finds the processor taken burns a tick of the running process.** -/
theorem Timely.backlog_reported (h : m.Timely tick) (hm : m.Sound []) {reports : List UnitReport}
    (hr : Reported m tick reports m') (hrun : m.running = some slot)
    (hslot : m.table.get? slot = some b) :
    ∃ others, m.backlog.Perm (b.remaining :: others) ∧
      m'.backlog.Perm (Backlog.burn b.remaining others) := by
  obtain ⟨others, hlist, hset, hvacate⟩ := exists_others hslot
  refine ⟨others, hlist, ?_⟩
  rw [Backlog.burn]
  cases hr with
  | quiet hquiet =>
    exact absurd (hrun.symm.trans (h.running_eq_none hm hquiet)) (by simp)
  | progress slot' b' u c hrun' hslot' hunit hc hcounts hleft =>
    obtain rfl : slot = slot' := Option.some.inj (hrun.symm.trans hrun')
    obtain rfl : b = b' := Option.some.inj (hslot.symm.trans hslot')
    obtain ⟨-, -, hheard, -⟩ := h.running hm hrun hslot hunit hc
    rw [← hheard, if_neg hleft]
    exact hset { b with remaining := c.remaining - 1 }
  | finished slot' b' u c memory hrun' hslot' hunit hc hcounts hleft =>
    obtain rfl : slot = slot' := Option.some.inj (hrun.symm.trans hrun')
    obtain rfl : b = b' := Option.some.inj (hslot.symm.trans hslot')
    obtain ⟨-, -, hheard, -⟩ := h.running hm hrun hslot hunit hc
    rw [← hheard, if_pos hleft]
    exact hvacate

/-- A tick that finds the processor free changes no process. -/
theorem table_reported {reports : List UnitReport} (hr : Reported m tick reports m')
    (hidle : m.running = none) : m'.table = m.table := by
  cases hr with
  | quiet hquiet => rfl
  | progress slot b u c hrun => exact absurd (hidle.symm.trans hrun) (by simp)
  | finished slot b u c memory hrun => exact absurd (hidle.symm.trans hrun) (by simp)

/-! ## Dispatch -/

/-- Something about a process that does not change when it gets the processor or loses it. -/
structure Unmoved {α : Type} (f : ControlBlock → α) : Prop where
  started : ∀ b tick u, f (b.started tick u) = f b
  stopped : ∀ b tick, f (b.stopped tick) = f b
  resumed : ∀ b tick, f (b.resumed tick) = f b

theorem Bound.perm_map {α : Type} {f : ControlBlock → α} (hf : Unmoved f)
    (h : Bound m tick slot m') : (m'.table.toList.map f).Perm (m.table.toList.map f) := by
  cases h with
  | launched b hslot hunit => exact perm_map_set hslot (hf.started b tick _)
  | resumed b u hslot hunit => exact perm_map_set hslot (hf.resumed b tick)

/-- What does not change when a process gets the processor, loses it, or is heard of, is the same of
all processes at the end of a tick. -/
theorem Turn.perm_map {α : Type} {f : ControlBlock → α} (hf : Unmoved f) (ht : Turn m tick m')
    (hheard : ∀ slot b u c, m.running = some slot → m.table.get? slot = some b →
      b.unit = some u → m.units.find? u = some c → f { b with remaining := c.remaining } = f b) :
    (m'.table.toList.map f).Perm (m.table.toList.map f) := by
  cases ht with
  | idle hnone ha => rw [ha.table]
  | kept slot b u c hrun hslot hunit hc ha =>
    rw [ha.table]
    exact perm_map_set hslot (hheard slot b u c hrun hslot hunit hc)
  | launched next ready m₁ hrun hperm hheld hbound ha =>
    have htaken : (m.withReady ready).table = m.table := rfl
    rw [ha.table, ← htaken]
    exact hbound.perm_map hf
  | swapped slot b u c next ready ready' m₁ hrun hslot hunit hc hperm hperm' hheld hbound ha =>
    have hslot' := get?_hear hslot c.remaining
    rw [ha.table]
    exact (hbound.perm_map hf).trans ((perm_map_set hslot' (hf.stopped _ tick)).trans
      (perm_map_set hslot (hheard slot b u c hrun hslot hunit hc)))

/-- **The end of a tick burns nothing.** -/
theorem Timely.backlog_turn (h : m.Timely f) (hm : m.Sound []) (ht : Turn m tick m') :
    m'.backlog.Perm m.backlog :=
  ht.perm_map ⟨fun _ _ _ => rfl, fun _ _ => rfl, fun _ _ => rfl⟩ fun _ _ _ _ hrun hslot hunit hc =>
    (h.running hm hrun hslot hunit hc).2.2.1

end Machine
end Uniprocessor
