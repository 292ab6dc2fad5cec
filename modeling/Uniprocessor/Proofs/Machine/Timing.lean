import Uniprocessor.Proofs.Machine.Operations

/-!
# Units keep up with the clock

A driver that goes from tick to tick offers every tick to the units.  Then the running process's unit
has counted up to the current tick, and will count the next one: its floor is the last tick that
was offered to it, or that it was started or resumed at.  A paused unit's floor may lie anywhere
before.  What a process has left is what its unit has left, since every counted tick is reported;
and that is never nothing, since a process that has burnt its ticks is retired at once.

`Machine.Timely m f` says this of all live processes, where `f` is the tick that comes next: it holds
of a machine at tick `t` for `f = t` before the tick is offered, and for `f = t + 1` afterwards.

* `ControlBlock.OnTime`: one process; `Machine.Timely`: all of them;
* `Timely.reported`, `Timely.arrival`, `Timely.turn`: the parts of a tick;
* `Timely.counts`: the running process's unit counts the next tick.
-/

namespace Uniprocessor

/-- A live process, where `f` is the tick that comes next. -/
inductive ControlBlock.OnTime (b : ControlBlock) (p : UnitPool) (f : Tick) : Prop
  | fresh (hunit : b.unit = none) (hleft : 0 < b.remaining)
  | running (u : UnitId) (c : Countdown) (hstate : b.state = .running) (hunit : b.unit = some u)
      (hc : p.find? u = some c) (hpaused : c.paused = false) (hfloor : c.floor + 1 = f)
      (hheard : c.remaining = b.remaining) (hleft : 0 < b.remaining)
  | blocked (u : UnitId) (c : Countdown) (hstate : b.state = .blocked) (hunit : b.unit = some u)
      (hc : p.find? u = some c) (hpaused : c.paused = true) (hfloor : c.floor < f)
      (hheard : c.remaining = b.remaining) (hleft : 0 < b.remaining)

namespace ControlBlock

variable {b b' : ControlBlock} {p p' : UnitPool} {f : Tick}

theorem OnTime.congr (h : b.OnTime p f) (hstate : b'.state = b.state) (hunit : b'.unit = b.unit)
    (hleft : b'.remaining = b.remaining)
    (hpool : ∀ u, b.unit = some u → p'.find? u = p.find? u) : b'.OnTime p' f := by
  cases h with
  | fresh hnone hpos => exact .fresh (hunit.trans hnone) (hleft ▸ hpos)
  | running u c hrun hu hc hpaused hfloor hheard hpos =>
    exact .running u c (hstate.trans hrun) (hunit.trans hu) ((hpool u hu).trans hc) hpaused hfloor
      (hheard.trans hleft.symm) (hleft ▸ hpos)
  | blocked u c hblocked hu hc hpaused hfloor hheard hpos =>
    exact .blocked u c (hstate.trans hblocked) (hunit.trans hu) ((hpool u hu).trans hc) hpaused
      hfloor (hheard.trans hleft.symm) (hleft ▸ hpos)

/-- No live process is without ticks to go. -/
theorem OnTime.left_pos (h : b.OnTime p f) : 0 < b.remaining := by
  cases h <;> assumption

end ControlBlock

namespace Machine

/-- Every live process is on time. -/
def Timely (m : Machine) (f : Tick) : Prop :=
  ∀ slot b, m.table.get? slot = some b → b.OnTime m.units f

variable {m m' : Machine} {held : List Slot} {slot : Slot} {b : ControlBlock} {u : UnitId}
  {tick f : Tick}

theorem Timely.alike (h : m.Timely f) (ha : Alike m m') : m'.Timely f := by
  intro slot b hslot
  rw [ha.table] at hslot
  rw [ha.units]
  exact h slot b hslot

/-- A move that changes the control block of one process and the units of no other one. -/
theorem Timely.update (h : m.Timely f) (hslot : m.table.get? slot = some b) {b' : ControlBlock}
    (htable : m'.table = m.table.set slot b') (hself : b'.OnTime m'.units f)
    (hpool : ∀ s d v, s ≠ slot → m.table.get? s = some d → d.unit = some v →
      m'.units.find? v = m.units.find? v) : m'.Timely f := by
  intro s d hd
  rw [htable, ProcessTable.get?_set hslot] at hd
  split at hd
  · exact Option.some.inj hd ▸ hself
  · rename_i hne
    exact (h s d hd).congr rfl rfl rfl fun v hv => hpool s d v hne hd hv

/-- The running process's unit has counted all ticks before the next one, and the process has left
what the unit has left. -/
theorem Timely.running (h : m.Timely f) (hm : m.Sound held) (hrun : m.running = some slot)
    (hslot : m.table.get? slot = some b) (hunit : b.unit = some u) {c : Countdown}
    (hc : m.units.find? u = some c) :
    c.paused = false ∧ c.floor + 1 = f ∧ c.remaining = b.remaining ∧ 0 < b.remaining := by
  obtain ⟨hstate, -⟩ := hm.running slot b hrun hslot
  cases h slot b hslot with
  | fresh hnone hpos => exact absurd (hnone.symm.trans hunit) (by simp)
  | running v d hrunning hv hd hpaused hfloor hheard hpos =>
    obtain rfl : v = u := Option.some.inj (hv.symm.trans hunit)
    obtain rfl : d = c := Option.some.inj (hd.symm.trans hc)
    exact ⟨hpaused, hfloor, hheard, hpos⟩
  | blocked v d hblocked hv hd hpaused hfloor hheard hpos =>
    rw [hstate] at hblocked
    exact absurd hblocked (by simp)

/-- **The running process's unit counts the next tick.** -/
theorem Timely.counts (h : m.Timely tick) (hm : m.Sound held) (hrun : m.running = some slot)
    (hslot : m.table.get? slot = some b) (hunit : b.unit = some u) {c : Countdown}
    (hc : m.units.find? u = some c) : c.counts tick = true := by
  obtain ⟨hpaused, hfloor, hheard, hpos⟩ := h.running hm hrun hslot hunit hc
  have hlt : c.floor < tick := hfloor ▸ Nat.lt_succ_self c.floor
  simp [Countdown.counts, hpaused, hlt, hheard, hpos]

/-- Where no unit counts a tick, the processor is free. -/
theorem Timely.running_eq_none (h : m.Timely tick) (hm : m.Sound [])
    (hquiet : ∀ slot b u c, m.running = some slot → m.table.get? slot = some b → b.unit = some u →
      m.units.find? u = some c → c.counts tick = false) : m.running = none := by
  cases hrun : m.running with
  | none => rfl
  | some slot =>
    obtain ⟨b, hslot⟩ := hm.scheduler.running_live hrun
    obtain ⟨-, u, c, hunit, hc, -⟩ := hm.running slot b hrun hslot
    have hcounts := h.counts hm hrun hslot hunit hc
    rw [hquiet slot b u c hrun hslot hunit hc] at hcounts
    exact absurd hcounts (by simp)

/-- **A tick brings one report if the processor is taken, and none if it is free.** -/
theorem Timely.reports (h : m.Timely tick) (hm : m.Sound []) :
    (m.runningBlock?.isSome = true ∧ ∃ r, (m.advance tick).1 = [r] ∧ r.tick = tick) ∨
      (m.runningBlock?.isSome = false ∧ (m.advance tick).1 = []) := by
  obtain ⟨m', -, hr, -⟩ := hm.report tick
  rw [Scheduler.runningBlock?]
  generalize (m.advance tick).1 = reports at hr ⊢
  cases hr with
  | quiet hquiet =>
    rw [h.running_eq_none hm hquiet]
    exact Or.inr ⟨rfl, rfl⟩
  | progress slot b u c hrun hslot hunit hc hcounts hleft =>
    exact Or.inl ⟨by rw [hrun]; exact Option.isSome_iff_exists.mpr ⟨b, hslot⟩, _, rfl, rfl⟩
  | finished slot b u c memory hrun hslot hunit hc hcounts hleft =>
    exact Or.inl ⟨by rw [hrun]; exact Option.isSome_iff_exists.mpr ⟨b, hslot⟩, _, rfl, rfl⟩

/-- Only the process that has the processor is marked as running. -/
theorem Sound.running_of_state (hm : m.Sound []) (hslot : m.table.get? slot = some b)
    (hstate : b.state = .running) : m.running = some slot := by
  rcases List.mem_append.mp ((hm.scheduler.live slot).mpr ⟨b, hslot⟩) with hrun | hwait
  · exact Option.mem_toList.mp hrun
  · rcases hm.waiting slot b hwait hslot with ⟨hready, -⟩ | ⟨hblocked, -⟩
    · rw [hstate] at hready
      exact absurd hready (by simp)
    · rw [hstate] at hblocked
      exact absurd hblocked (by simp)

/-- A process that waits is not touched by a tick. -/
theorem Timely.advanced (h : m.Timely tick) (hm : m.Sound [])
    (hslot : m.table.get? slot = some b) (hwait : m.running ≠ some slot) :
    b.OnTime (m.units.advance tick).2 (tick + 1) := by
  cases h slot b hslot with
  | fresh hnone hpos => exact .fresh hnone hpos
  | running u c hstate hu hc hpaused hfloor hheard hpos =>
    exact absurd (hm.running_of_state hslot hstate) hwait
  | blocked u c hstate hu hc hpaused hfloor hheard hpos =>
    refine .blocked u c hstate hu ?_ hpaused (Nat.lt_succ_of_lt hfloor) hheard hpos
    rw [UnitPool.find?_advance, hc, Option.map_some, Countdown.onTick_of_paused hpaused]

/-- A unit that counts a tick has one tick less to go, and its floor is that tick. -/
theorem find?_advance_of_counts {p : UnitPool} {c : Countdown} (hc : p.find? u = some c)
    (hcounts : c.counts tick = true) :
    (p.advance tick).2.find? u = some { c with remaining := c.remaining - 1, floor := tick } := by
  rw [UnitPool.find?_advance, hc, Option.map_some, Countdown.onTick, if_pos hcounts]

theorem Timely.reported (h : m.Timely tick) (hm : m.Sound []) {reports : List UnitReport}
    (hr : Reported m tick reports m') : m'.Timely (tick + 1) := by
  cases hr with
  | quiet hquiet =>
    intro s d hd
    refine h.advanced hm hd ?_
    intro hrun
    obtain ⟨-, u, c, hunit, hc, -⟩ := hm.running s d hrun hd
    have hcounts := h.counts hm hrun hd hunit hc
    rw [hquiet s d u c hrun hd hunit hc] at hcounts
    exact absurd hcounts (by simp)
  | progress slot b u c hrun hslot hunit hc hcounts hleft =>
    intro s d hd
    have hd' : (m.table.set slot { b with remaining := c.remaining - 1 }).get? s = some d := hd
    rw [ProcessTable.get?_set hslot] at hd'
    split at hd'
    · obtain rfl := Option.some.inj hd'
      obtain ⟨hstate, v, e, hv, he, hpaused⟩ := hm.running slot b hrun hslot
      obtain rfl : v = u := Option.some.inj (hv.symm.trans hunit)
      obtain rfl : e = c := Option.some.inj (he.symm.trans hc)
      exact .running v _ hstate hunit (find?_advance_of_counts hc hcounts) hpaused rfl rfl
        (Nat.pos_of_ne_zero hleft)
    · rename_i hne
      refine h.advanced hm hd' fun hrun' => hne ?_
      exact Option.some.inj (hrun'.symm.trans hrun)
  | finished slot b u c memory hrun hslot hunit hc hcounts hleft =>
    intro s d hd
    have hd' : (m.table.vacate slot).get? s = some d := hd
    rw [ProcessTable.get?_vacate hslot] at hd'
    split at hd'
    · exact absurd hd' (by simp)
    · rename_i hne
      have hbefore := h.advanced hm hd' fun hrun' => hne (Option.some.inj (hrun'.symm.trans hrun))
      refine hbefore.congr rfl rfl rfl ?_
      intro v hv
      exact (UnitPool.find?_drop u v).trans (if_neg (hm.unit_ne hslot hunit hd' hne hv))

/-- A process that is let in has ticks to go. -/
theorem Timely.arrival (h : m.Timely f) (hm : m.Sound []) {p : Process}
    {outcome : Attempt Scheduler Admission}
    (ha : m.toScheduler.Arrival tick p outcome) : (m.withScheduler outcome.state).Timely f := by
  cases ha with
  | zeroRunTime hzero => exact h
  | rejected hpos hmemory => exact h
  | admitted block memory ready hpos hmemory hready hperm =>
    intro s d hd
    have hd' : (m.table.insert (.ofProcess p block)).2.get? s = some d := hd
    rw [ProcessTable.get?_insert hm.scheduler.table] at hd'
    split at hd'
    · obtain rfl := Option.some.inj hd'
      exact .fresh rfl (Nat.pos_of_ne_zero hpos)
    · exact h s d hd'
  | full table memory hpos hfull hsound hlist hsame =>
    intro s d hd
    exact h s d ((hsame s).symm.trans hd)

theorem Timely.bound (h : m.Timely (tick + 1)) (hm : m.Sound (slot :: held))
    (hbound : Bound m tick slot m') : m'.Timely (tick + 1) := by
  have hwait : slot ∈ slot :: held ++ m.ready.toList := List.mem_cons_self
  cases hbound with
  | launched b hslot hunit =>
    refine h.update hslot rfl ?_ ?_
    · refine .running m.units.next (.start m.units.next b.remaining tick) rfl rfl
        ((UnitPool.find?_start hm.units _).trans (if_pos rfl)) rfl rfl rfl (h slot b hslot).left_pos
    · intro s d v hs hd hv
      obtain ⟨c, hc⟩ := hm.exists_unit hd hv
      have hlt := hm.units.older v (UnitPool.mem_numbers_iff.mpr ⟨c, hc⟩)
      exact (UnitPool.find?_start hm.units v).trans (if_neg (Nat.ne_of_lt hlt))
  | resumed b u hslot hunit =>
    refine h.update hslot rfl ?_ fun s d v hs hd hv =>
      UnitPool.find?_tell_of_ne (hm.unit_ne hslot hunit hd hs hv)
    cases h slot b hslot with
    | fresh hnone hpos => exact absurd (hnone.symm.trans hunit) (by simp)
    | running v c hstate hv hc hpaused hfloor hheard hpos =>
      rcases hm.waiting slot b hwait hslot with ⟨hready, -⟩ | ⟨hblocked, -⟩
      · rw [hstate] at hready
        exact absurd hready (by simp)
      · rw [hstate] at hblocked
        exact absurd hblocked (by simp)
    | blocked v c hstate hv hc hpaused hfloor hheard hpos =>
      obtain rfl : v = u := Option.some.inj (hv.symm.trans hunit)
      refine .running v _ rfl hunit (UnitPool.find?_tell_self hc) rfl ?_ hheard hpos
      show max c.floor tick + 1 = tick + 1
      rw [Nat.max_eq_right (Nat.lt_succ_iff.mp hfloor)]

theorem Timely.stop (h : m.Timely f) (hm : m.Sound held)
    (hslot : m.table.get? slot = some b) (hunit : b.unit = some u) {c : Countdown}
    (hc : m.units.find? u = some c) (hfloor : c.floor < f) (hheard : c.remaining = b.remaining)
    (ready : ReadyQueue) : (m.stop tick slot b u b.remaining ready).Timely f :=
  h.update hslot rfl
    (.blocked u _ rfl hunit (UnitPool.find?_tell_self hc) rfl hfloor hheard
      (h slot b hslot).left_pos)
    fun _ _ _ hs hd hv => UnitPool.find?_tell_of_ne (hm.unit_ne hslot hunit hd hs hv)

/-- To hear once more what is known already changes nothing. -/
theorem Timely.hear (h : m.Timely f) (hslot : m.table.get? slot = some b) {left : Nat}
    (hleft : left = b.remaining) : (m.hear slot b left).Timely f :=
  h.update hslot rfl ((h slot b hslot).congr rfl rfl hleft fun _ _ => rfl) fun _ _ _ _ _ _ => rfl

/-- **The end of a tick leaves everybody on time.** -/
theorem Timely.turn (h : m.Timely (tick + 1)) (hm : m.Sound []) (ht : Turn m tick m') :
    m'.Timely (tick + 1) := by
  cases ht with
  | idle hnone ha => exact h.alike ha
  | kept slot b u c hrun hslot hunit hc ha =>
    obtain ⟨-, -, hheard, -⟩ := h.running hm hrun hslot hunit hc
    exact (h.hear hslot hheard).alike ha
  | launched next ready m₁ hrun hperm hheld hbound ha =>
    have htaken : (m.withReady ready).Timely (tick + 1) := h
    exact (htaken.bound hheld hbound).alike ha
  | swapped slot b u c next ready ready' m₁ hrun hslot hunit hc hperm hperm' hheld hbound ha =>
    obtain ⟨-, hfloor, hheard, -⟩ := h.running hm hrun hslot hunit hc
    have hslot' := get?_hear hslot c.remaining
    -- the stopped machine has a ready structure of its own, whichever one it had before
    have hstopped : (((m.hear slot b c.remaining).withReady ready).stop tick slot
        { b with remaining := c.remaining } u c.remaining ready').Timely (tick + 1) :=
      (h.hear hslot hheard).stop (hm.hear hslot _) hslot' hunit hc (hfloor ▸ Nat.lt_succ_self _)
        rfl ready'
    exact (hstopped.bound hheld hbound).alike ha

end Machine
end Uniprocessor
