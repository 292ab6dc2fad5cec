import Uniprocessor.Proofs.Journal.Log
import Uniprocessor.Proofs.Machine.Moves
import Uniprocessor.Simulation

/-!
# What the operations of a machine come to

Where a machine is in order, taking the reports of a tick and dispatching always succeed, and come
to few moves: a report is heard or retires the running process (`Machine.Reported`); a dispatch
leaves the processor alone, launches or resumes a process on the free processor, or first stops the
running one for it (`Machine.Turn`).  An arrival can only be refused as `Scheduler.Arrival` says.

All that is said later of runs is said of the moves and follows for the operations by these
theorems; no later proof opens an operation again.

* `Machine.Sound.report`: the reports of a tick;
* `Machine.Sound.runTick`: the end of a tick;
* `Machine.Sound.arrive`: an arrival;
* `Machine.sound_ofConfig`: a new machine.
-/

namespace Uniprocessor
namespace Machine

variable {m m' n : Machine} {held : List Slot} {slot : Slot} {b : ControlBlock} {u : UnitId}
  {tick : Tick}

theorem ask_ok {α : Type} (m : Machine) (a : α) : m.ask (.ok a) = .done a m := rfl

/-! ## Accounts -/

@[simp] theorem alike_countTick (m : Machine) : Alike m (m.withScheduler m.countTick) :=
  ⟨rfl, rfl, rfl, rfl, rfl, rfl, rfl⟩

theorem alike_freshSlice (m : Machine) : Alike m (m.withScheduler m.freshSlice) := by
  unfold Scheduler.freshSlice
  split <;> exact ⟨rfl, rfl, rfl, rfl, rfl, rfl, rfl⟩

/-- A decision changes accounts only. -/
theorem alike_decide (m : Machine) (tick : Tick) (left : Option Nat) :
    Alike m (m.withScheduler (m.decide tick left).2) := by
  unfold Scheduler.decide
  cases left with
  | none => exact Alike.refl m
  | some left =>
    simp only []
    split
    · exact Alike.refl m
    · split
      · exact Alike.refl m
      · split
        · exact ⟨rfl, rfl, rfl, rfl, rfl, rfl, Journal.log_add_preempting _ _ _ _⟩
        · exact Alike.refl m
    · exact ⟨rfl, rfl, rfl, rfl, rfl, rfl, rfl⟩

theorem policy_decide (m : Machine) (tick : Tick) (left : Option Nat) :
    (m.decide tick left).2.policy = m.policy := by
  unfold Scheduler.decide
  cases left with
  | none => rfl
  | some left =>
    simp only []
    split
    · rfl
    · split
      · rfl
      · split <;> rfl
    · rfl

/-- The processor is launched on exactly if it is free. -/
theorem decide_none (m : Machine) (tick : Tick) :
    m.decide tick none = (.launch, m.toScheduler) := rfl

theorem decide_some_ne (m : Machine) (tick : Tick) (left : Nat) :
    (m.decide tick (some left)).1 ≠ .launch := by
  unfold Scheduler.decide
  simp only []
  split
  · simp
  · split
    · simp
    · split <;> simp
  · split <;> simp

theorem Alike.withReady (h : Alike m n) (ready : ReadyQueue) :
    Alike (m.withReady ready) (n.withReady ready) :=
  ⟨h.table, rfl, h.memory, h.running, h.units, h.outstanding, h.log⟩

theorem Alike.stop (h : Alike m n) (tick : Tick) (slot : Slot) (b : ControlBlock) (u : UnitId)
    (left : Nat) (ready : ReadyQueue) :
    Alike (m.stop tick slot b u left ready) (n.stop tick slot b u left ready) :=
  ⟨congrArg (ProcessTable.set · slot _) h.table, rfl, h.memory, rfl,
    congrArg (UnitPool.tell · u .pause) h.units, h.outstanding, Journal.log_add_congr h.log _⟩

/-! ## Binding -/

/-- A process has got the free processor. -/
inductive Bound (m : Machine) (tick : Tick) (slot : Slot) : Machine → Prop
  | launched (b : ControlBlock) (hslot : m.table.get? slot = some b) (hunit : b.unit = none) :
      Bound m tick slot (m.launch tick slot b)
  | resumed (b : ControlBlock) (u : UnitId) (hslot : m.table.get? slot = some b)
      (hunit : b.unit = some u) : Bound m tick slot (m.resume tick slot b u)

theorem Bound.running_eq (h : Bound m tick slot m') : m'.running = some slot := by
  cases h <;> rfl

theorem Bound.ready_eq (h : Bound m tick slot m') : m'.ready = m.ready := by
  cases h <;> rfl

theorem Bound.sliceLeft_eq (h : Bound m tick slot m') : m'.sliceLeft = m.sliceLeft := by
  cases h <;> rfl

/-- A process that has never had the processor is launched. -/
theorem Bound.first (h : Bound m tick slot m') (hslot : m.table.get? slot = some b)
    (hunit : b.unit = none) : m' = m.launch tick slot b := by
  cases h with
  | launched b' hslot' hunit' =>
    obtain rfl : b = b' := Option.some.inj (hslot.symm.trans hslot')
    rfl
  | resumed b' u hslot' hunit' =>
    obtain rfl : b = b' := Option.some.inj (hslot.symm.trans hslot')
    exact absurd (hunit.symm.trans hunit') (by simp)

/-- Machines that are alike stay so when a process gets the processor. -/
theorem Bound.alike (h : Alike m n) (hbound : Bound n tick slot m') :
    ∃ m₁, Bound m tick slot m₁ ∧ Alike m₁ m' := by
  cases hbound with
  | launched b hslot hunit =>
    refine ⟨m.launch tick slot b, .launched b (h.table ▸ hslot) hunit, ?_, h.ready, h.memory, rfl, ?_,
      h.outstanding, ?_⟩
    · show n.table.set slot (b.started tick n.units.next) =
        m.table.set slot (b.started tick m.units.next)
      rw [h.table, h.units]
    · exact congrArg (fun p => (UnitPool.start p b.remaining tick).2) h.units
    · show (n.journal.add (.process (.ofBlock (b.started tick n.units.next) tick .started none))).log
        = _
      rw [h.units]
      exact Journal.log_add_congr h.log _
  | resumed b u hslot hunit =>
    exact ⟨m.resume tick slot b u, .resumed b u (h.table ▸ hslot) hunit,
      congrArg (ProcessTable.set · slot _) h.table, h.ready, h.memory, rfl,
      congrArg (UnitPool.tell · u _) h.units, h.outstanding, Journal.log_add_congr h.log _⟩

theorem Bound.sound (h : m.Sound (slot :: held)) (hidle : m.running = none)
    (hbound : Bound m tick slot m') : m'.Sound held := by
  cases hbound with
  | launched b hslot hunit => exact h.launch hidle hslot hunit tick
  | resumed b u hslot hunit => exact h.resume hidle hslot hunit tick

/-- A held process can be given the free processor. -/
theorem Sound.occupy (h : m.Sound (slot :: held)) (hidle : m.running = none) (tick : Tick) :
    ∃ m', m.occupy tick slot = .done () m' ∧ Bound m tick slot m' := by
  obtain ⟨b, hslot⟩ : ∃ b, m.table.get? slot = some b := by
    refine (h.scheduler.live slot).mp ?_
    rw [Scheduler.places, hidle]
    exact List.mem_cons_self
  unfold Machine.occupy
  rw [Scheduler.candidate_eq hidle hslot]
  cases hunit : b.unit with
  | none =>
    refine ⟨m.launch tick slot b, ?_, .launched b hslot hunit⟩
    simp only [hunit]
    rfl
  | some u =>
    obtain ⟨c, hc⟩ := h.exists_unit hslot hunit
    refine ⟨m.resume tick slot b u, ?_, .resumed b u hslot hunit⟩
    simp only [hunit]
    rw [UnitPool.resume, UnitPool.command_eq hc]
    rfl

/-- Under round robin a new turn lasts a quantum. -/
theorem sliceLeft_freshSlice (m : Machine) {quantum : Nat} (hpolicy : m.policy = .roundRobin quantum) :
    m.freshSlice.sliceLeft = quantum := by
  rw [Scheduler.freshSlice, hpolicy]

/-- A held process can begin a turn; what comes of it does not depend on the turn. -/
theorem Sound.beginTurn (h : n.Sound [slot]) (hidle : n.running = none) (ha : Alike m n)
    (tick : Tick) :
    ∃ n' m₁, n.beginTurn tick slot = .done () n' ∧ Bound m tick slot m₁ ∧ Alike m₁ n' ∧
      n'.Sound [] ∧ ∀ quantum, n.policy = .roundRobin quantum → n'.sliceLeft = quantum := by
  have hslice := alike_freshSlice n
  have hsound := h.alike hslice
  have hidle' : (n.withScheduler n.freshSlice).running = none := hslice.running.trans hidle
  obtain ⟨n', hoccupy, hbound⟩ := hsound.occupy hidle' tick
  obtain ⟨m₁, hbound₁, hafter⟩ := hbound.alike (ha.trans hslice)
  refine ⟨n', m₁, hoccupy, hbound₁, hafter, hbound.sound hsound hidle', fun quantum hpolicy => ?_⟩
  exact hbound.sliceLeft_eq.trans (sliceLeft_freshSlice n hpolicy)

/-! ## Dispatch -/

/-- What the end of a tick comes to: nothing waits; the running process keeps the processor; the
free processor is given to a process; or the running one is stopped for the next one. -/
inductive Turn (m : Machine) (tick : Tick) (m' : Machine) : Prop
  | idle (hnone : m.ready.toList = []) (ha : Alike m m') (hslice : m'.sliceLeft = m.sliceLeft)
  | kept (slot : Slot) (b : ControlBlock) (u : UnitId) (c : Countdown)
      (hrun : m.running = some slot) (hslot : m.table.get? slot = some b)
      (hunit : b.unit = some u) (hc : m.units.find? u = some c)
      (ha : Alike (m.hear slot b c.remaining) m')
      (hdecide : ((m.hear slot b c.remaining).decide tick (some c.remaining)).1 = .keep)
      (hslice : m'.sliceLeft =
        ((m.hear slot b c.remaining).decide tick (some c.remaining)).2.sliceLeft)
      (hwait : m.ready.toList ≠ [])
  | launched (next : Slot) (ready : ReadyQueue) (m₁ : Machine) (hrun : m.running = none)
      (hperm : m.ready.toList.Perm (next :: ready.toList))
      (hheld : (m.withReady ready).Sound [next])
      (hbound : Bound (m.withReady ready) tick next m₁) (ha : Alike m₁ m')
      (htake : m.ready.take? = some (next, ready))
      (hslice : ∀ quantum, m.policy = .roundRobin quantum → m'.sliceLeft = quantum)
  | swapped (slot : Slot) (b : ControlBlock) (u : UnitId) (c : Countdown) (next : Slot)
      (ready ready' : ReadyQueue) (m₁ : Machine)
      (hrun : m.running = some slot) (hslot : m.table.get? slot = some b)
      (hunit : b.unit = some u) (hc : m.units.find? u = some c)
      (hperm : m.ready.toList.Perm (next :: ready.toList))
      (hperm' : ready'.toList.Perm (slot :: ready.toList))
      (hheld : (((m.hear slot b c.remaining).withReady ready).stop tick slot
        { b with remaining := c.remaining } u c.remaining ready').Sound [next])
      (hbound : Bound (((m.hear slot b c.remaining).withReady ready).stop tick slot
        { b with remaining := c.remaining } u c.remaining ready') tick next m₁)
      (ha : Alike m₁ m')
      (hdecide : ((m.hear slot b c.remaining).decide tick (some c.remaining)).1 = .swap)
      (htake : m.ready.take? = some (next, ready))
      (hinsert : ready.insert (Scheduler.readyKey m.policy
        ({ b with remaining := c.remaining }.stopped tick)) slot = .ok ready')
      (hslice : ∀ quantum, m.policy = .roundRobin quantum → m'.sliceLeft = quantum)

theorem Turn.alike (h : Turn m tick n) (ha : Alike n m') (hsame : m'.sliceLeft = n.sliceLeft) :
    Turn m tick m' := by
  cases h with
  | idle hnone hb hslice => exact .idle hnone (hb.trans ha) (hsame.trans hslice)
  | kept slot b u c hrun hslot hunit hc hb hdecide hslice hwait =>
    exact .kept slot b u c hrun hslot hunit hc (hb.trans ha) hdecide (hsame.trans hslice) hwait
  | launched next ready m₁ hrun hperm hheld hbound hb htake hslice =>
    exact .launched next ready m₁ hrun hperm hheld hbound (hb.trans ha) htake
      fun quantum hpolicy => hsame.trans (hslice quantum hpolicy)
  | swapped slot b u c next ready ready' m₁ hrun hslot hunit hc hperm hperm' hheld hbound hb
      hdecide htake hinsert hslice =>
    exact .swapped slot b u c next ready ready' m₁ hrun hslot hunit hc hperm hperm' hheld hbound
      (hb.trans ha) hdecide htake hinsert fun quantum hpolicy => hsame.trans (hslice quantum hpolicy)

/-- The process taken out of the ready structure is held. -/
theorem Sound.takeNext (h : m.Sound []) (hwait : m.ready.toList ≠ []) :
    ∃ next ready, m.schedule m.takeNext = .done next (m.withReady ready) ∧
      (m.withReady ready).Sound [next] ∧ ready.size < ready.capacity ∧
      m.ready.toList.Perm (next :: ready.toList) ∧ m.ready.take? = some (next, ready) := by
  obtain ⟨next, ready, htake, hsound, hroom, hperm, hnext⟩ := h.scheduler.takeNext hwait
  refine ⟨next, ready, ?_, h.withReady hsound hperm, hroom, hperm, hnext⟩
  rw [schedule, htake]
  rfl

/-- The running process can be stopped while another one is held. -/
theorem Sound.preempt (h : m.Sound []) (hrun : m.running = some slot)
    (hslot : m.table.get? slot = some b) (hunit : b.unit = some u) {c : Countdown}
    (hc : m.units.find? u = some c) (hwait : m.ready.toList ≠ []) (tick : Tick) :
    ∃ next ready ready', m.preempt tick = .done next
        ((m.withReady ready).stop tick slot b u c.remaining ready') ∧
      ((m.withReady ready).stop tick slot b u c.remaining ready').Sound [next] ∧
      m.ready.toList.Perm (next :: ready.toList) ∧
      ready'.toList.Perm (slot :: ready.toList) ∧ m.ready.take? = some (next, ready) ∧
      ready.insert (Scheduler.readyKey m.policy ({ b with remaining := c.remaining }.stopped tick))
        slot = .ok ready' := by
  obtain ⟨next, ready, htake, hsound, hroom, hperm, hnext⟩ := h.takeNext hwait
  obtain ⟨ready', hrequeue, hscheduler, hperm', hinsert⟩ :=
    hsound.scheduler.requeue hrun hslot hroom tick c.remaining
  refine ⟨next, ready, ready', ?_, ?_, hperm, hperm', hnext, hinsert⟩
  · have hdetach : (m.withReady ready).detach = .done (slot, b, u) _ :=
      Scheduler.detach_eq (s := (m.withReady ready).toScheduler) hrun hslot hunit
    have hpause : m.units.pause u = .ok (m.units.tell u .pause) := UnitPool.command_eq hc .pause
    have hleft : (m.units.tell u .pause).remaining u = .ok c.remaining :=
      (UnitPool.remaining_eq (UnitPool.find?_tell_self hc) :)
    rw [Machine.preempt, htake, Attempt.andThen_done, schedule, hdetach]
    simp only [Attempt.within_done, Attempt.andThen_done]
    change (Attempt.andThen (Machine.command _ (m.units.pause u)) _) = _
    rw [hpause, Machine.command, Attempt.andThen_done]
    change (Attempt.andThen (Machine.ask _ ((m.units.tell u .pause).remaining u)) _) = _
    rw [hleft, ask_ok, Attempt.andThen_done]
    change (Attempt.andThen (Attempt.within (Scheduler.requeue
      { (m.withReady ready).toScheduler with running := none } tick slot b c.remaining) _) _) = _
    rw [hrequeue]
    rfl
  · exact hsound.stop hslot hunit hperm' (hscheduler.frame rfl rfl rfl rfl)

/-- The control block of the running process is brought up to date. -/
theorem refresh_eq (hrun : m.running = some slot) (hslot : m.table.get? slot = some b)
    (hunit : b.unit = some u) {c : Countdown} (hc : m.units.find? u = some c) :
    m.refresh = .done (some c.remaining) (m.hear slot b c.remaining) := by
  rw [refresh, Scheduler.occupant_eq hrun hslot hunit]
  simp only [ask]
  rw [UnitPool.remaining_eq hc]
  rfl

theorem refresh_none (hrun : m.running = none) : m.refresh = .done none m := by
  rw [refresh, Scheduler.occupant_none hrun]

/-- The running process, once it has been heard of, is stopped for the next one, which begins its
turn. -/
theorem Sound.swap (h : m.Sound []) (hrun : m.running = some slot)
    (hslot : m.table.get? slot = some b) (hunit : b.unit = some u) {c : Countdown}
    (hc : m.units.find? u = some c) (hwait : m.ready.toList ≠ []) (tick : Tick)
    (ha : Alike (m.hear slot b c.remaining) n) (hpolicy : n.policy = m.policy)
    (hdecide : ((m.hear slot b c.remaining).decide tick (some c.remaining)).1 = .swap) :
    ∃ m', ((n.preempt tick).andThen fun next m => m.beginTurn tick next) = .done () m' ∧
      Turn m tick m' ∧ m'.Sound [] := by
  have hsound := (h.hear hslot c.remaining).alike ha
  have hslot' : n.table.get? slot = some { b with remaining := c.remaining } := by
    rw [ha.table]
    exact get?_hear hslot c.remaining
  have hc' : n.units.find? u = some c := by
    rw [ha.units]
    exact hc
  have hready : n.ready = m.ready := ha.ready
  rw [← hready] at hwait
  obtain ⟨next, ready, ready', hpreempt, hstopped, hperm, hperm', htake, hinsert⟩ :=
    hsound.preempt (ha.running.trans hrun) hslot' hunit hc' hwait tick
  have hstop := (ha.withReady ready).stop tick slot { b with remaining := c.remaining } u
    c.remaining ready'
  obtain ⟨m', m₁, hbegin, hbound, hafter, hend, hslice⟩ := hstopped.beginTurn rfl hstop tick
  rw [hready] at hperm htake
  rw [hpolicy] at hinsert
  refine ⟨m', ?_, .swapped slot b u c next ready ready' m₁ hrun hslot hunit hc hperm hperm'
    (hstopped.alike hstop.symm) hbound hafter hdecide htake hinsert
    fun quantum hround => hslice quantum (hpolicy.trans hround), hend⟩
  rw [hpreempt]
  exact hbegin

/-- A dispatch comes to a turn. -/
theorem Sound.dispatch (h : m.Sound []) (hwait : m.ready.toList ≠ []) (tick : Tick) :
    ∃ m', m.dispatch tick = .done () m' ∧ Turn m tick m' ∧ m'.Sound [] := by
  unfold Machine.dispatch
  cases hrun : m.running with
  | none =>
    obtain ⟨next, ready, htake, hsound, -, hperm, hnext⟩ := h.takeNext hwait
    obtain ⟨m', m₁, hbegin, hbound, ha, hafter, hslice⟩ :=
      hsound.beginTurn hrun (Alike.refl _) tick
    refine ⟨m', ?_, .launched next ready m₁ hrun hperm hsound hbound ha hnext hslice, hafter⟩
    rw [refresh_none hrun, Attempt.andThen_done, decide_none]
    change (m.schedule m.takeNext).andThen _ = _
    rw [htake]
    exact hbegin
  | some slot =>
    obtain ⟨b, hslot⟩ := h.scheduler.running_live hrun
    obtain ⟨-, u, c, hunit, hc, -⟩ := h.running slot b hrun hslot
    rw [refresh_eq hrun hslot hunit hc, Attempt.andThen_done]
    have hdecide := alike_decide (m.hear slot b c.remaining) tick (some c.remaining)
    have hpolicy := policy_decide (m.hear slot b c.remaining) tick (some c.remaining)
    have hne := decide_some_ne (m.hear slot b c.remaining) tick c.remaining
    have hheard := h.hear hslot c.remaining
    cases hout : (m.hear slot b c.remaining).decide tick (some c.remaining) with
    | mk decision s =>
      rw [hout] at hdecide hpolicy hne
      have hdecision : ((m.hear slot b c.remaining).decide tick (some c.remaining)).1 = decision :=
        congrArg Prod.fst hout
      cases decision with
      | launch => exact absurd rfl hne
      | keep =>
        exact ⟨_, rfl, .kept slot b u c hrun hslot hunit hc hdecide hdecision
          (congrArg (fun x => x.2.sliceLeft) hout.symm) hwait, hheard.alike hdecide⟩
      | swap =>
        obtain ⟨m', hswap, hturn, hend⟩ :=
          h.swap hrun hslot hunit hc hwait tick (n := (m.hear slot b c.remaining).withScheduler s)
            hdecide hpolicy hdecision
        exact ⟨m', hswap, hturn, hend⟩

/-- **The end of a tick never fails**, and comes to a turn. -/
theorem Sound.runTick (h : m.Sound []) (tick : Tick) :
    ∃ m', m.runTick tick = .done () m' ∧ Turn m tick m' ∧ m'.Sound [] := by
  unfold Machine.runTick
  by_cases hempty : m.ready.isEmpty = true
  · have hnone := (ReadyQueue.isEmpty_iff h.scheduler.ready).mp hempty
    rw [if_pos hempty]
    exact ⟨_, rfl, .idle hnone (alike_countTick m) rfl, h.alike (alike_countTick m)⟩
  · have hwait : m.ready.toList ≠ [] := fun hnone =>
      hempty ((ReadyQueue.isEmpty_iff h.scheduler.ready).mpr hnone)
    obtain ⟨m', hdispatch, hturn, hsound⟩ := h.dispatch hwait tick
    rw [if_neg hempty, hdispatch]
    exact ⟨_, rfl, hturn.alike (alike_countTick m') rfl, hsound.alike (alike_countTick m')⟩

/-! ## Reports -/

/-- What a tick comes to: no unit counts it; or the running process's unit does, which has ticks
left after it, or has none and is released. -/
inductive Reported (m : Machine) (tick : Tick) : List UnitReport → Machine → Prop
  | quiet (hquiet : ∀ slot b u c, m.running = some slot → m.table.get? slot = some b →
      b.unit = some u → m.units.find? u = some c → c.counts tick = false) :
      Reported m tick [] (m.advance tick).2
  | progress (slot : Slot) (b : ControlBlock) (u : UnitId) (c : Countdown)
      (hrun : m.running = some slot) (hslot : m.table.get? slot = some b)
      (hunit : b.unit = some u) (hc : m.units.find? u = some c) (hcounts : c.counts tick = true)
      (hleft : c.remaining - 1 ≠ 0) :
      Reported m tick [.progress u tick (c.remaining - 1)]
        ((m.advance tick).2.hear slot b (c.remaining - 1))
  | finished (slot : Slot) (b : ControlBlock) (u : UnitId) (c : Countdown) (memory : Buddy)
      (hrun : m.running = some slot) (hslot : m.table.get? slot = some b)
      (hunit : b.unit = some u) (hc : m.units.find? u = some c) (hcounts : c.counts tick = true)
      (hleft : c.remaining - 1 = 0) (hfree : m.memory.free b.memory = .ok memory) :
      Reported m tick [.finished u tick] ((m.advance tick).2.retired tick slot b u memory)

/-- No report changes the policy. -/
theorem Reported.policy_eq {reports : List UnitReport} (h : Reported m tick reports m') :
    m'.policy = m.policy := by
  cases h <;> rfl

/-- The running process can be retired once its unit has nothing left. -/
theorem Sound.retire (h : m.Sound held) (hrun : m.running = some slot)
    (hslot : m.table.get? slot = some b) (hunit : b.unit = some u) {c : Countdown}
    (hc : m.units.find? u = some c) (hleft : c.remaining = 0) (tick : Tick) :
    ∃ memory, m.retire tick = .done () (m.retired tick slot b u memory) ∧
      (m.retired tick slot b u memory).Sound held ∧ m.memory.free b.memory = .ok memory := by
  obtain ⟨memory, hfree, hscheduler⟩ := h.scheduler.retire hrun hslot
  refine ⟨memory, ?_, h.retired hrun hslot hunit (hscheduler.frame rfl rfl rfl rfl), hfree⟩
  have hclose := Scheduler.close_eq (s := { m.toScheduler with
      running := none
      table := m.table.vacate slot
      journal := m.journal.add (.reaped u b.id) })
    (b := { b with remaining := 0, state := .finished }) hfree tick
  rw [Machine.retire, schedule, Scheduler.evict_eq hrun hslot hunit]
  simp only [Attempt.within_done, Attempt.andThen_done]
  change (Attempt.andThen (Machine.ask _ (m.units.remaining u)) _) = _
  rw [UnitPool.remaining_eq hc, hleft, ask_ok, Attempt.andThen_done, checkFinished, if_pos rfl,
    Attempt.andThen_done]
  change (Attempt.andThen (Machine.command _ (m.units.reap u)) _) = _
  rw [UnitPool.reap_eq hc, Machine.command, Attempt.andThen_done]
  change (Attempt.within (Scheduler.close { m.toScheduler with
      running := none
      table := m.table.vacate slot
      journal := m.journal.add (.reaped u b.id) } tick
    { b with remaining := 0, state := .finished }) _) = _
  rw [hclose]
  rfl

/-- A report is understood to be about the running process. -/
theorem addressee_eq (hrun : m.running = some slot) (hslot : m.table.get? slot = some b)
    (hunit : b.unit = some u) {report : UnitReport} (hreport : report.unit = u) :
    m.addressee report = .ok (slot, b) := by
  unfold Scheduler.addressee
  rw [hrun]
  simp only [hslot]
  rw [hreport, if_pos hunit]

/-- The units that are not the running process's are paused. -/
theorem Sound.paused (h : m.Sound []) {d : Countdown} (hd : d ∈ m.units.units)
    (hother : ∀ slot b, m.running = some slot → m.table.get? slot = some b →
      b.unit ≠ some d.unit) : d.paused = true := by
  have hmem : d.unit ∈ m.units.numbers := List.mem_map_of_mem hd
  have hfind : m.units.find? d.unit = some d := (UnitPool.find?_eq_some_iff h.units).mpr ⟨hd, rfl⟩
  obtain ⟨b, hb, hunit⟩ := List.mem_filterMap.mp (h.numbers.subset hmem)
  obtain ⟨slot, hslot⟩ := ProcessTable.mem_toList.mp hb
  rcases List.mem_append.mp ((h.scheduler.live slot).mpr ⟨b, hslot⟩) with hrun | hwait
  · exact absurd hunit (hother slot b (Option.mem_toList.mp hrun) hslot)
  · rcases h.waiting slot b hwait hslot with ⟨-, hnone⟩ | ⟨-, u, c, hu, hc, hpaused⟩
    · rw [hunit] at hnone
      exact absurd hnone (by simp)
    · obtain rfl : d.unit = u := Option.some.inj (hunit.symm.trans hu)
      rw [hfind] at hc
      exact Option.some.inj hc ▸ hpaused

/-- Nobody reports while no process has the processor. -/
theorem Sound.reports_idle (h : m.Sound []) (hrun : m.running = none) (tick : Tick) :
    (m.advance tick).1 = [] :=
  UnitPool.reports_of_paused fun _ hd =>
    h.paused hd fun _ _ hslot => absurd (hrun.symm.trans hslot) (by simp)

/-- Nobody but the unit of the running process reports. -/
theorem Sound.reports_running (h : m.Sound []) (hrun : m.running = some slot)
    (hslot : m.table.get? slot = some b) {u : UnitId} (hunit : b.unit = some u) {c : Countdown}
    (hc : m.units.find? u = some c) (tick : Tick) :
    (m.advance tick).1 = (c.onTick tick).1.toList := by
  refine UnitPool.reports_of_unpaused h.units hc fun d hd hne => h.paused hd ?_
  intro slot' b' hrun' hslot' hd'
  obtain rfl : slot = slot' := Option.some.inj (hrun.symm.trans hrun')
  obtain rfl : b = b' := Option.some.inj (hslot.symm.trans hslot')
  exact hne (Option.some.inj (hd'.symm.trans hunit))

/-- The report of a tick that counts is taken. -/
theorem Sound.report_counted (h : m.Sound []) (hrun : m.running = some slot)
    (hslot : m.table.get? slot = some b) {u : UnitId} (hunit : b.unit = some u) {c : Countdown}
    (hc : m.units.find? u = some c) (hcounts : c.counts tick = true) :
    ∃ m', Simulation.deliver (m.advance tick).2 (c.onTick tick).1.toList = .done () m' ∧
      Reported m tick (c.onTick tick).1.toList m' ∧ m'.Sound [] := by
  have hadvance := h.advance tick
  have hcu : c.unit = u := (UnitPool.mem_of_find? hc).2
  have hc' : (m.advance tick).2.units.find? u = some (c.onTick tick).2 :=
    (UnitPool.find?_advance u).trans (congrArg _ hc)
  rw [Countdown.onTick, hcounts, if_pos rfl] at hc' ⊢
  by_cases hleft : c.remaining - 1 = 0
  · obtain ⟨memory, hretire, hretired, hfree⟩ := hadvance.retire hrun hslot hunit hc' hleft tick
    refine ⟨(m.advance tick).2.retired tick slot b u memory, ?_, ?_, hretired⟩
    · rw [Countdown.reportOf, if_pos hleft, hcu]
      change (Machine.onReport _ (.finished u tick)).andThen _ = _
      rw [onReport, addressee_eq (m := (m.advance tick).2) hrun hslot hunit rfl]
      simp only []
      rw [hretire]
      rfl
    · rw [Countdown.reportOf, if_pos hleft, hcu]
      exact .finished slot b u c memory hrun hslot hunit hc hcounts hleft hfree
  · refine ⟨(m.advance tick).2.hear slot b (c.remaining - 1), ?_, ?_, hadvance.hear hslot _⟩
    · rw [Countdown.reportOf, if_neg hleft, hcu]
      change (Machine.onReport _ (.progress u tick (c.remaining - 1))).andThen _ = _
      rw [onReport, addressee_eq (m := (m.advance tick).2) hrun hslot hunit rfl]
      rfl
    · rw [Countdown.reportOf, if_neg hleft, hcu]
      exact .progress slot b u c hrun hslot hunit hc hcounts hleft

/-- **The reports of a tick are always taken**, and there is at most one. -/
theorem Sound.report (h : m.Sound []) (tick : Tick) :
    ∃ m', Simulation.deliver (m.advance tick).2 (m.advance tick).1 = .done () m' ∧
      Reported m tick (m.advance tick).1 m' ∧ m'.Sound [] := by
  have hadvance := h.advance tick
  cases hrun : m.running with
  | none =>
    rw [h.reports_idle hrun]
    exact ⟨_, rfl, .quiet fun slot b u c hslot => absurd (hrun.symm.trans hslot) (by simp),
      hadvance⟩
  | some slot =>
    obtain ⟨b, hslot⟩ := h.scheduler.running_live hrun
    obtain ⟨-, u, c, hunit, hc, -⟩ := h.running slot b hrun hslot
    rw [h.reports_running hrun hslot hunit hc]
    cases hcounts : c.counts tick with
    | true => exact h.report_counted hrun hslot hunit hc hcounts
    | false =>
      rw [Countdown.onTick, hcounts, if_neg Bool.false_ne_true]
      refine ⟨_, rfl, .quiet ?_, hadvance⟩
      intro slot' b' u' c' hrun' hslot' hunit' hc'
      obtain rfl : slot = slot' := Option.some.inj (hrun.symm.trans hrun')
      obtain rfl : b = b' := Option.some.inj (hslot.symm.trans hslot')
      obtain rfl : u = u' := Option.some.inj (hunit.symm.trans hunit')
      obtain rfl : c = c' := Option.some.inj (hc.symm.trans hc')
      exact hcounts

/-! ## Arrivals -/

/-- **An arrival leaves the machine in order**, whatever comes of it. -/
theorem Sound.arrive (h : m.Sound []) (tick : Tick) (p : Process) :
    (m.arrive tick p).state.Sound [] := by
  have harrival := h.scheduler.arrival tick p
  rw [Machine.arrive, schedule]
  generalize m.toScheduler.arrive tick p = outcome at harrival ⊢
  cases harrival with
  | zeroRunTime => exact h
  | rejected => exact ⟨h.scheduler.frame rfl rfl rfl rfl, h.units, h.numbers, h.running, h.waiting⟩
  | admitted block memory ready hpos hmemory hready hperm =>
    exact h.admitted rfl rfl hperm (h.scheduler.letIn hmemory hready hperm)
  | full table memory hpos hfull hsound hlist hsame =>
    refine ⟨hsound, h.units, h.numbers.trans (hlist.symm.filterMap _), ?_, ?_⟩
    · intro s d hs hd
      exact h.running s d hs ((hsame s).symm.trans hd)
    · intro s d hs hd
      exact h.waiting s d hs ((hsame s).symm.trans hd)

/-! ## The start of a run -/

/-- A machine before its first tick. -/
def fresh (c : Config) (expected : Nat) : Machine where
  policy := c.policy
  memory := .ofOrder c.arena.log2
  ready := .ofPolicy c.policy c.readyCapacity
  table := .empty
  running := none
  sliceLeft := 0
  outstanding := expected
  metrics := .empty
  journal := .empty
  units := .empty

theorem ofConfig_eq {c : Config} (h : c.Valid) (expected : Nat) :
    Machine.ofConfig c expected = .ok (fresh c expected) := by
  rw [Machine.ofConfig, (Scheduler.ofConfig_eq h expected).1]
  rfl

/-- A machine that has just been made is in order. -/
theorem sound_ofConfig {c : Config} (h : c.Valid) (expected : Nat) :
    ∃ m, Machine.ofConfig c expected = .ok m ∧ m.Sound [] ∧ m.table = .empty ∧
      m.running = none ∧ m.outstanding = expected ∧ m.journal = .empty ∧ m.units = .empty := by
  obtain ⟨-, -, hcapacity⟩ := Scheduler.ofConfig_eq h expected
  refine ⟨fresh c expected, ofConfig_eq h expected, ⟨⟨ProcessTable.sound_empty,
    ReadyQueue.sound_ofPolicy c.policy hcapacity, Buddy.sound_ofOrder _, ?_, ?_, List.Perm.refl _⟩,
    UnitPool.sound_empty, List.Perm.refl _, fun slot b hrun => absurd hrun (by simp [fresh]),
    fun slot b hwait hslot => absurd hslot (by simp [fresh])⟩, rfl, rfl, rfl, rfl, rfl⟩
  · show ([] ++ ([] ++ (ReadyQueue.ofPolicy c.policy c.readyCapacity).toList)).Nodup
    rw [ReadyQueue.toList_ofPolicy]
    exact List.nodup_nil
  · intro slot
    show slot ∈ [] ++ ([] ++ (ReadyQueue.ofPolicy c.policy c.readyCapacity).toList) ↔ _
    rw [ReadyQueue.toList_ofPolicy]
    simp [fresh]

end Machine
end Uniprocessor
