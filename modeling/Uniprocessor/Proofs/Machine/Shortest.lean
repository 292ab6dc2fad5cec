import Uniprocessor.Proofs.Machine.Backlog
import Uniprocessor.Proofs.Ready.Keyed

/-!
# Shortest remaining time next

Under this policy processes wait in the order of what they have to go, and the running process has no
more to go than any that waits: it gives way at once to one that has less.  The processes that wait
keep the key they were put in with, so it matters that nothing happens to what they have to go; and
what a process has to go that loses the processor is brought up to date before it waits again.

* `Machine.need`: what the process in a slot has to go;
* `Machine.Queued`: the processes wait in that order, which the parts of a tick keep;
* `Machine.Foremost`: the running process has least to go;
* `Queued.turn`: **at the end of a tick a process gets the processor that has least to go.**
-/

namespace Uniprocessor
namespace Machine

variable {m m' : Machine} {slot s : Slot} {b d : ControlBlock} {u : UnitId} {tick f : Tick}
  {p : Process}

/-- What the process in a slot has to go. -/
def need (m : Machine) (slot : Slot) : Nat :=
  ((m.table.get? slot).map ControlBlock.remaining).getD 0

/-- The processes wait in the order of what they have to go. -/
def Queued (m : Machine) : Prop :=
  m.ready.Keyed m.need

/-- The running process has no more to go than any that waits. -/
def Foremost (m : Machine) : Prop :=
  ∀ slot, m.running = some slot → ∀ s ∈ m.ready.toList, m.need slot ≤ m.need s

theorem need_eq (hslot : m.table.get? slot = some b) : m.need slot = b.remaining := by
  rw [need, hslot]
  rfl

/-- The process that has the processor has least to go of all that are live. -/
theorem Foremost.le_backlog (h : m.Foremost) (hm : m.Sound []) (hrun : m.running = some slot)
    (hslot : m.table.get? slot = some b) : ∀ x ∈ m.backlog, b.remaining ≤ x := by
  intro x hx
  obtain ⟨b', hb', rfl⟩ := List.mem_map.mp hx
  obtain ⟨slot', hslot'⟩ := ProcessTable.mem_toList.mp hb'
  rw [← need_eq hslot, ← need_eq hslot']
  rcases List.mem_append.mp ((hm.scheduler.live slot').mpr ⟨b', hslot'⟩) with hrun' | hwait
  · obtain rfl : slot = slot' := Option.some.inj (hrun.symm.trans (Option.mem_toList.mp hrun'))
    exact Nat.le_refl _
  · exact h slot hrun slot' hwait

theorem need_congr (h : m'.table.get? s = m.table.get? s) : m'.need s = m.need s := by
  rw [need, h, need]

/-- A process that is written down anew with as much to go as before. -/
theorem need_set (hslot : m.table.get? slot = some b) (htable : m'.table = m.table.set slot d)
    (hleft : d.remaining = b.remaining) (s : Slot) : m'.need s = m.need s := by
  rw [need, need, htable, ProcessTable.get?_set hslot]
  split
  · rename_i hs
    rw [hs, hslot]
    exact hleft
  · rfl

theorem need_hear (hslot : m.table.get? slot = some b) {left : Nat} (hleft : left = b.remaining)
    (s : Slot) : (m.hear slot b left).need s = m.need s :=
  need_set hslot rfl hleft s

theorem need_stop (hslot : m.table.get? slot = some b) (ready : ReadyQueue) (s : Slot) :
    (m.stop tick slot b u b.remaining ready).need s = m.need s :=
  need_set (d := b.stopped tick) hslot rfl rfl s

theorem need_bound (h : Bound m tick slot m') (s : Slot) : m'.need s = m.need s := by
  cases h with
  | launched b hslot hunit => exact need_set (d := b.started tick m.units.next) hslot rfl rfl s
  | resumed b u hslot hunit => exact need_set (d := b.resumed tick) hslot rfl rfl s

theorem need_alike (ha : Alike m m') (s : Slot) : m'.need s = m.need s :=
  need_congr (by rw [ha.table])

/-! ## Reports and arrivals -/

/-- The reports of a tick change nothing about the processes that wait. -/
theorem Queued.reported (h : m.Queued) (hm : m.Sound []) {reports : List UnitReport}
    (hr : Reported m tick reports m') : m'.Queued := by
  cases hr with
  | quiet hquiet => exact h
  | progress slot b u c hrun hslot hunit hc hcounts hleft =>
    exact h.congr fun s hs => need_congr (hm.get?_set_of_waiting hrun hslot _ hs)
  | finished slot b u c memory hrun hslot hunit hc hcounts hleft =>
    exact h.congr fun s hs => need_congr (hm.get?_vacate_of_waiting hrun hslot hs)

/-- An arrival waits where its run time puts it. -/
theorem Queued.arrival (h : m.Queued) (hm : m.Sound [])
    (hpolicy : m.policy = .shortestRemainingTimeNext) {admission : Admission} {s : Scheduler}
    (ha : m.toScheduler.Arrival tick p (.done admission s)) : (m.withScheduler s).Queued := by
  cases ha with
  | rejected hpos hmemory => exact h
  | admitted block memory ready hpos hmemory hready hperm hinsert =>
    rw [hpolicy] at hinsert
    refine ReadyQueue.Keyed.insert (h.congr fun s hs => need_congr ?_) hinsert ?_
    · exact hm.get?_insert_of_waiting _ hs
    · exact need_eq (ProcessTable.get?_insert_self hm.scheduler.table _)

/-! ## Dispatch -/

/-- The running process is left alone only if no process that waits has less to go. -/
theorem decide_keep (hpolicy : m.policy = .shortestRemainingTimeNext) {left : Nat}
    (h : (m.decide tick (some left)).1 = .keep) :
    ∀ k, m.ready.leastKey? = some k → left ≤ k := by
  intro k hk
  unfold Scheduler.decide at h
  rw [hpolicy] at h
  simp only [hk] at h
  split at h
  · exact absurd h (by simp)
  · exact Nat.le_of_not_lt ‹_›

/-- It is displaced only by a process that has less to go. -/
theorem decide_swap (hpolicy : m.policy = .shortestRemainingTimeNext) {left : Nat}
    (h : (m.decide tick (some left)).1 = .swap) :
    ∀ k, m.ready.leastKey? = some k → k < left := by
  intro k hk
  unfold Scheduler.decide at h
  rw [hpolicy] at h
  simp only [hk] at h
  split at h
  · assumption
  · exact absurd h (by simp)

/-- A dispatch changes who runs and who waits, and nothing about what anyone has to go. -/
theorem need_turn (hm : m.Sound []) (htimely : m.Timely f) (ht : Turn m tick m') (s : Slot) :
    m'.need s = m.need s := by
  cases ht with
  | idle hnone ha => exact need_alike ha s
  | kept slot b u c hrun hslot hunit hc ha hdecide =>
    obtain ⟨-, -, hheard, -⟩ := htimely.running hm hrun hslot hunit hc
    exact (need_alike ha s).trans (need_hear hslot hheard s)
  | launched next ready m₁ hrun hperm hheld hbound ha htake =>
    exact (need_alike ha s).trans (need_bound hbound s)
  | swapped slot b u c next ready ready' m₁ hrun hslot hunit hc hperm hperm' hheld hbound ha hdecide
      htake hinsert =>
    obtain ⟨-, -, hheard, -⟩ := htimely.running hm hrun hslot hunit hc
    have hslot' := get?_hear hslot c.remaining
    exact (need_alike ha s).trans ((need_bound hbound s).trans
      ((need_stop (m := (m.hear slot b c.remaining).withReady ready) hslot' ready' s).trans
        (need_hear hslot hheard s)))

theorem foremost_of_running (hrun : m.running = some slot)
    (hle : ∀ s ∈ m.ready.toList, m.need slot ≤ m.need s) : m.Foremost := by
  intro slot' hrun'
  obtain rfl : slot = slot' := Option.some.inj (hrun.symm.trans hrun')
  exact hle

/-- **At the end of a tick a process gets the processor that has least to go.** -/
theorem Queued.turn (h : m.Queued) (hm : m.Sound []) (htimely : m.Timely f)
    (hpolicy : m.policy = .shortestRemainingTimeNext) (ht : Turn m tick m') :
    m'.Queued ∧ m'.Foremost := by
  have hneed := need_turn hm htimely ht
  cases ht with
  | idle hnone ha =>
    refine ⟨?_, fun slot _ s hs => ?_⟩
    · rw [Queued, ha.ready]
      exact h.congr fun s _ => hneed s
    · rw [ha.ready, hnone] at hs
      exact absurd hs List.not_mem_nil
  | kept slot b u c hrun hslot hunit hc ha hdecide =>
    obtain ⟨-, -, hheard, -⟩ := htimely.running hm hrun hslot hunit hc
    have hready : m'.ready = m.ready := ha.ready
    refine ⟨?_, foremost_of_running (ha.running.trans hrun) fun s hs => ?_⟩
    · rw [Queued, hready]
      exact h.congr fun s _ => hneed s
    · -- the first of the line has no less to go, and the others no less than the first
      rw [hready] at hs
      obtain ⟨next, ready, htake, -⟩ :=
        ReadyQueue.take_some hm.scheduler.ready (List.ne_nil_of_mem hs)
      obtain ⟨hleast, hle⟩ := h.take_le htake
      have hkeep := decide_keep (m := m.hear slot b c.remaining) hpolicy hdecide _ hleast
      rw [hneed, hneed, need_eq hslot, ← hheard]
      exact hkeep.trans (hle s hs)
  | launched next ready m₁ hrun hperm hheld hbound ha htake =>
    obtain ⟨-, hle⟩ := h.take_le htake
    have hready : m'.ready = ready := ha.ready.trans hbound.ready_eq
    refine ⟨?_, foremost_of_running (ha.running.trans hbound.running_eq) fun s hs => ?_⟩
    · rw [Queued, hready]
      exact (h.take htake).congr fun s _ => hneed s
    · rw [hready] at hs
      rw [hneed, hneed]
      exact hle s (hperm.symm.subset (List.mem_cons_of_mem next hs))
  | swapped slot b u c next ready ready' m₁ hrun hslot hunit hc hperm hperm' hheld hbound ha hdecide
      htake hinsert =>
    obtain ⟨-, -, hheard, -⟩ := htimely.running hm hrun hslot hunit hc
    obtain ⟨hleast, hle⟩ := h.take_le htake
    have hready : m'.ready = ready' := ha.ready.trans hbound.ready_eq
    have hswap := decide_swap (m := m.hear slot b c.remaining) hpolicy hdecide _ hleast
    rw [hpolicy] at hinsert
    refine ⟨?_, foremost_of_running (ha.running.trans hbound.running_eq) fun s hs => ?_⟩
    · rw [Queued, hready]
      exact ReadyQueue.Keyed.congr ((h.take htake).insert hinsert ((need_eq hslot).trans hheard.symm))
        fun s _ => hneed s
    · rw [hready] at hs
      rw [hneed, hneed]
      rcases List.mem_cons.mp (hperm'.subset hs) with rfl | hs
      · rw [need_eq hslot, ← hheard]
        exact hswap.le
      · exact hle s (hperm.symm.subset (List.mem_cons_of_mem next hs))

end Machine
end Uniprocessor
