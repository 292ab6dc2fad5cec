import Uniprocessor.Proofs.Journal.Displacements
import Uniprocessor.Proofs.Machine.Accounts
import Uniprocessor.Proofs.Machine.Backlog
import Uniprocessor.Proofs.Machine.Entrants
import Uniprocessor.Proofs.Machine.Shortest
import Uniprocessor.Proofs.Ready.Latecomers

/-!
# Displacements

Under shortest remaining time next, at the end of a tick nobody who waits has less to go than the
running process; and with the next tick it has less to go, while those who wait have as much.  So a
process for which it gives way has been admitted since, and has not had the processor before.

Every stop uses up the first start of a process that has been admitted.  The start of the process
that got the processor first is not used up by any; so there are fewer stops than admissions.

* `Machine.Entered`: who has been admitted since nobody who waited had less to go than the running
  process;
* `Entered.turn`: **whoever displaces the running process has just been admitted**, and is the shortest
  of those who have, or the first one of the shortest;
* `Machine.Sparing`: **there are fewer stops than admissions.**
-/

namespace Uniprocessor

namespace Machine

variable {m m' m₁ : Machine} {slot next : Slot} {b : ControlBlock} {u : UnitId} {tick f : Tick}
  {p : Process} {news : List Process} {ready ready' : ReadyQueue}

/-- What the running process has to go, and nothing if the processor is free. -/
def left (m : Machine) : Nat :=
  (m.running.map m.need).getD 0

theorem left_of_running (hrun : m.running = some slot) : m.left = m.need slot := by
  rw [left, hrun]
  rfl

theorem left_congr (hrun : m'.running = m.running)
    (hneed : ∀ slot, m.running = some slot → m'.need slot = m.need slot) : m'.left = m.left := by
  rw [left, left, hrun]
  cases hslot : m.running with
  | none => rfl
  | some slot => exact hneed slot hslot

/-- Who has been admitted, in this order, since nobody who waited had less to go than the running
process.  They wait as they were when they were admitted. -/
def Entered (m : Machine) (news : List Process) : Prop :=
  ∃ late : List (Slot × Process),
    m.ready.Latecomers m.left (late.map fun x => (x.2.runTime, x.1)) ∧
    (∀ x ∈ late, ∃ block, m.table.get? x.1 = some (.ofProcess x.2 block)) ∧
    late.map Prod.snd = news

/-- At first nobody has entered. -/
theorem Foremost.entered (h : m.Foremost) (hqueued : m.Queued) : m.Entered [] := by
  refine ⟨[], hqueued.latecomers fun s hs => ?_, fun _ hx => absurd hx List.not_mem_nil, rfl⟩
  cases hrun : m.running with
  | none =>
    rw [left, hrun]
    exact Nat.zero_le _
  | some slot =>
    rw [left_of_running hrun]
    exact h slot hrun s hs

/-- With a tick the running process has less to go, and those who wait have as much. -/
theorem Foremost.reported (h : m.Foremost) (hm : m.Sound []) (htimely : m.Timely tick)
    {reports : List UnitReport} (hr : Reported m tick reports m') : m'.Foremost := by
  cases hr with
  | quiet hquiet => exact h
  | progress slot b u c hrun hslot hunit hc hcounts hleft =>
    obtain ⟨-, -, hheard, -⟩ := htimely.running hm hrun hslot hunit hc
    intro slot' hrun' s hs
    obtain rfl : slot = slot' := Option.some.inj (hrun.symm.trans hrun')
    have hself : ((m.advance tick).2.hear slot b (c.remaining - 1)).need slot = c.remaining - 1 :=
      need_eq (b := { b with remaining := c.remaining - 1 }) (ProcessTable.get?_set_self hslot _)
    have hsame : ((m.advance tick).2.hear slot b (c.remaining - 1)).need s = m.need s :=
      need_congr (hm.get?_set_of_waiting hrun hslot _ hs)
    rw [hself, hsame]
    refine (Nat.sub_le _ _).trans ?_
    rw [hheard, ← need_eq hslot]
    exact h slot hrun s hs
  | finished slot b u c memory hrun hslot hunit hc hcounts hleft =>
    exact fun slot' hrun' => absurd hrun' (by simp [retired, Scheduler.closed])

/-- Whoever is put in enters after those who have. -/
theorem Entered.insert (h : m.Entered news) {block : Buddy.Block}
    (hinsert : m.ready.insert p.runTime slot = .ok m'.ready) (hleft : m'.left = m.left)
    (hlive : ∀ s d, m.table.get? s = some d → m'.table.get? s = some d)
    (hnew : m'.table.get? slot = some (.ofProcess p block)) : m'.Entered (news ++ [p]) := by
  obtain ⟨late, hlate, hblocks, rfl⟩ := h
  refine ⟨late ++ [(slot, p)], ?_, fun x hx => ?_, List.map_append⟩
  · rw [List.map_append, hleft]
    exact hlate.insert hinsert
  · rcases List.mem_append.mp hx with hx | hx
    · exact (hblocks x hx).imp fun block' hx => hlive _ _ hx
    · obtain rfl := List.mem_singleton.mp hx
      exact ⟨block, hnew⟩

theorem Entered.arrival (h : m.Entered news) (hm : m.Sound [])
    (hpolicy : m.policy = .shortestRemainingTimeNext) {admission : Admission} {s : Scheduler}
    (ha : m.toScheduler.Arrival tick p (.done admission s)) :
    (m.withScheduler s).Entered (news ++ admission.entrant p) := by
  cases ha with
  | rejected hpos hmemory =>
    rw [Admission.entrant, List.append_nil]
    exact h
  | admitted block memory ready hpos hmemory hready hperm hinsert =>
    have hlive : ∀ s d, m.table.get? s = some d →
        (m.table.insert (.ofProcess p block)).2.get? s = some d := fun s d hd =>
      ProcessTable.get?_insert_of_live hm.scheduler.table hd (.ofProcess p block)
    rw [hpolicy] at hinsert
    refine h.insert hinsert (left_congr rfl fun slot hrun => ?_) hlive
      (ProcessTable.get?_insert_self hm.scheduler.table _)
    -- the running process has as much to go as before
    obtain ⟨b, hslot⟩ := hm.scheduler.running_live hrun
    rw [need_eq hslot]
    exact need_eq (hlive slot b hslot)

/-- **A process that has less to go than the running one, and goes next, has entered**, and is the
shortest of those who have, or the first one of the shortest. -/
theorem Entered.chosen (h : m.Entered news) (hrun : m.running = some slot)
    (hslot : m.table.get? slot = some b) (htake : m.ready.take? = some (next, ready))
    (hlt : ∀ k, m.ready.leastKey? = some k → k < b.remaining) :
    ∃ p block, m.table.get? next = some (.ofProcess p block) ∧
      ∃ before after, news = before ++ p :: after ∧ p.runTime < b.remaining ∧
        (∀ x ∈ before, p.runTime < x.runTime) ∧ ∀ x ∈ after, p.runTime ≤ x.runTime := by
  obtain ⟨late, hlate, hblocks, rfl⟩ := h
  rw [left_of_running hrun, need_eq hslot] at hlate
  obtain ⟨k, before, after, hk, hsplit, hbefore, hafter⟩ := hlate.take htake hlt
  obtain ⟨earlier, rest, rfl, rfl, hrest⟩ := List.map_eq_append_iff.mp hsplit
  obtain ⟨⟨s, p⟩, later, rfl, hpair, rfl⟩ := List.map_eq_cons_iff.mp hrest
  obtain ⟨rfl, rfl⟩ := Prod.mk.inj hpair
  obtain ⟨block, hblock⟩ := hblocks _ (List.mem_append_right _ List.mem_cons_self)
  refine ⟨p, block, hblock, _, _, List.map_append, hk, ?_, ?_⟩
  · exact List.forall_mem_map.mpr fun x hx => List.forall_mem_map.mp hbefore x hx
  · exact List.forall_mem_map.mpr fun x hx => List.forall_mem_map.mp hafter x hx

/-! ## Displacements -/

/-- The running process has been stopped for `next`, and others wait in `ready'`. -/
def stoppedFor (m : Machine) (tick : Tick) (slot : Slot) (b : ControlBlock) (u : UnitId)
    (left : Nat) (ready ready' : ReadyQueue) : Machine :=
  ((m.hear slot b left).withReady ready).stop tick slot { b with remaining := left } u left ready'

/-- Stopping the running process changes nothing about those who wait. -/
theorem get?_stoppedFor (hm : m.Sound []) (hrun : m.running = some slot)
    (hslot : m.table.get? slot = some b) (hwait : next ∈ m.ready.toList) (left : Nat) :
    (m.stoppedFor tick slot b u left ready ready').table.get? next = m.table.get? next := by
  have hother : next ≠ slot := fun heq => hm.running_notMem hrun (heq ▸ hwait)
  exact (ProcessTable.get?_set_of_ne (get?_hear hslot left) _ hother).trans
    (ProcessTable.get?_set_of_ne hslot _ hother)

theorem log_stoppedFor (m : Machine) (tick : Tick) (slot : Slot) (b : ControlBlock) (u : UnitId)
    (left : Nat) (ready ready' : ReadyQueue) :
    (m.stoppedFor tick slot b u left ready ready').journal.log = m.journal.log.extend
      [.ofBlock ({ b with remaining := left }.stopped tick) tick .stopped none] [] :=
  Journal.log_add_process _ _

/-- **Whoever displaces the running process has entered**, and has not had the processor before. -/
theorem Entered.displaced (h : m.Entered news) (hm : m.Sound []) (htimely : m.Timely f)
    (hpolicy : m.policy = .shortestRemainingTimeNext) (hrun : m.running = some slot)
    (hslot : m.table.get? slot = some b) (hunit : b.unit = some u) {c : Countdown}
    (hc : m.units.find? u = some c) (hperm : m.ready.toList.Perm (next :: ready.toList))
    (htake : m.ready.take? = some (next, ready))
    (hdecide : ((m.hear slot b c.remaining).decide tick (some c.remaining)).1 = .swap)
    (hbound : Bound (m.stoppedFor tick slot b u c.remaining ready ready') tick next m₁) :
    ∃ d, (m.stoppedFor tick slot b u c.remaining ready ready').table.get? next = some d ∧
      d.unit = none ∧
      m₁ = (m.stoppedFor tick slot b u c.remaining ready ready').launch tick next d ∧
      ∀ v, Displaces news (.ofBlock ({ b with remaining := c.remaining }.stopped tick) tick .stopped none)
        (.ofBlock (d.started tick v) tick .started none) := by
  obtain ⟨-, -, hheard, -⟩ := htimely.running hm hrun hslot hunit hc
  have hlt := decide_swap (m := m.hear slot b c.remaining) hpolicy hdecide
  rw [hheard] at hlt
  obtain ⟨p, block, hget, before, after, hnews, hshorter, hbefore, hafter⟩ :=
    h.chosen hrun hslot htake hlt
  have hget' : (m.stoppedFor tick slot b u c.remaining ready ready').table.get? next =
      some (.ofProcess p block) :=
    (get?_stoppedFor hm hrun hslot (hperm.symm.subset List.mem_cons_self) c.remaining).trans hget
  refine ⟨.ofProcess p block, hget', rfl, hbound.first hget' rfl, fun v => ⟨rfl, rfl, before, p,
    after, hnews, ⟨rfl, rfl, rfl⟩, ?_, hbefore, hafter⟩⟩
  rw [← hheard] at hshorter
  exact hshorter

/-- **Every process that is stopped at the end of a tick is displaced.** -/
theorem Entered.turn (h : m.Entered news) (hm : m.Sound []) (htimely : m.Timely f)
    (hpolicy : m.policy = .shortestRemainingTimeNext) {entrants : Tick → List Process}
    (hnews : entrants tick = news) (ht : Turn m tick m') :
    ∃ es, m'.journal.log = m.journal.log.extend es [] ∧ Displacing entrants es := by
  cases ht with
  | idle hnone ha =>
    exact ⟨[], ha.log.trans (EventLog.extend_nil _).symm, displacing_of_none (by simp)⟩
  | kept slot b u c hrun hslot hunit hc ha =>
    exact ⟨[], ha.log.trans (EventLog.extend_nil _).symm, displacing_of_none (by simp)⟩
  | launched next ready m₁ hrun hperm hheld hbound ha =>
    obtain ⟨e, hlog, -, hkind, -⟩ := hbound.dispatched
    refine ⟨[e], ha.log.trans hlog, displacing_of_none (List.forall_mem_singleton.mpr ?_)⟩
    intro hstopped
    rw [hstopped] at hkind
    exact absurd hkind (by simp [ProcessEventKind.dispatches])
  | swapped slot b u c next ready ready' m₁ hrun hslot hunit hc hperm hperm' hheld hbound ha hdecide
      htake =>
    obtain ⟨d, -, -, rfl, hdisplaces⟩ :=
      h.displaced hm htimely hpolicy hrun hslot hunit hc hperm htake hdecide hbound
    refine ⟨_, ?_, (hdisplaces m.units.next).displacing hnews⟩
    rw [ha.log, log_launch, log_stoppedFor, EventLog.extend_extend]
    rfl

/-! ## Counts -/

/-- Number of live processes that have never had the processor. -/
def untried (m : Machine) : Nat :=
  (m.table.toList.map ControlBlock.unit).count none

/-- Every admitted process has started or is still to start; and there are fewer stops than starts,
unless nobody has started. -/
structure Sparing (m : Machine) : Prop where
  starts : m.journal.log.frequency .started + m.untried = m.journal.log.admitted.length
  stops : m.journal.log.frequency .stopped < m.journal.log.frequency .started ∨
    m.journal.log.frequency .stopped = 0 ∧ ∀ slot b, m.table.get? slot = some b → b.unit = none

/-- **There are fewer stops than admissions**, unless there are none of either. -/
theorem Sparing.stopped_lt (h : m.Sparing) :
    m.journal.log.frequency .stopped < m.journal.log.admitted.length ∨
      m.journal.log.frequency .stopped = 0 ∧ m.journal.log.admitted.length = 0 := by
  have hstarts := h.starts
  rcases h.stops with hlt | ⟨hzero, -⟩
  · exact Or.inl (by omega)
  · rcases Nat.eq_zero_or_pos m.journal.log.admitted.length with hnone | hpos
    · exact Or.inr ⟨hzero, hnone⟩
    · exact Or.inl (hzero ▸ hpos)

/-- Somebody who has had the processor has started. -/
theorem Sparing.lt_of_unit (h : m.Sparing) (hslot : m.table.get? slot = some b)
    (hunit : b.unit = some u) :
    m.journal.log.frequency .stopped < m.journal.log.frequency .started := by
  rcases h.stops with hlt | ⟨-, hnone⟩
  · exact hlt
  · exact absurd ((hnone slot b hslot).symm.trans hunit) (by simp)

theorem untried_congr (h : (m'.table.toList.map ControlBlock.unit).Perm
    (m.table.toList.map ControlBlock.unit)) : m'.untried = m.untried :=
  h.count_eq none

/-- A machine in which everybody has the unit they had, and which has noted no start and no stop. -/
theorem Sparing.alike (h : m.Sparing) (ha : Alike m m') : m'.Sparing := by
  refine ⟨?_, ?_⟩
  · rw [untried, ha.log, ha.table]
    exact h.starts
  · rw [ha.log, ha.table]
    exact h.stops

/-- A process that has had the processor is written down anew, and has neither started nor been
stopped. -/
theorem Sparing.set (h : m.Sparing) (hslot : m.table.get? slot = some b) (hunit : b.unit = some u)
    {d : ControlBlock} (hsame : d.unit = b.unit) (htable : m'.table = m.table.set slot d)
    (hstarted : m'.journal.log.frequency .started = m.journal.log.frequency .started)
    (hstopped : m'.journal.log.frequency .stopped = m.journal.log.frequency .stopped)
    (hadmitted : m'.journal.log.admitted = m.journal.log.admitted) : m'.Sparing := by
  have huntried : m'.untried = m.untried :=
    untried_congr (htable ▸ perm_map_set (f := ControlBlock.unit) hslot hsame)
  refine ⟨?_, Or.inl ?_⟩
  · rw [hstarted, hadmitted, huntried]
    exact h.starts
  · rw [hstarted, hstopped]
    exact h.lt_of_unit hslot hunit

theorem Sparing.reported (h : m.Sparing) {reports : List UnitReport}
    (hr : Reported m tick reports m') : m'.Sparing := by
  cases hr with
  | quiet hquiet => exact ⟨h.starts, h.stops⟩
  | progress slot b u c hrun hslot hunit hc hcounts hleft =>
    exact h.set (d := { b with remaining := c.remaining - 1 }) hslot hunit rfl rfl rfl rfl rfl
  | finished slot b u c memory hrun hslot hunit hc hcounts hleft =>
    obtain ⟨rest, hlist, -, hrest⟩ := ProcessTable.exists_rest hslot
    have hlog := log_retired (m.advance tick).2 tick slot b u memory
    have hbefore := (hlist.map ControlBlock.unit).count_eq none
    have hafter := (hrest.map ControlBlock.unit).count_eq none
    rw [List.map_cons, hunit, List.count_cons_of_ne (by simp)] at hbefore
    have huntried : ((m.advance tick).2.retired tick slot b u memory).untried = m.untried :=
      hafter.trans hbefore.symm
    refine ⟨?_, Or.inl ?_⟩
    · rw [hlog, huntried, EventLog.frequency_extend, EventLog.admitted_extend]
      exact h.starts.trans (congrArg List.length (List.append_nil _).symm)
    · rw [hlog, EventLog.frequency_extend, EventLog.frequency_extend]
      exact h.lt_of_unit hslot hunit

theorem Sparing.arrival (h : m.Sparing) (hm : m.Sound []) {admission : Admission} {s : Scheduler}
    (ha : m.toScheduler.Arrival tick p (.done admission s)) : (m.withScheduler s).Sparing := by
  cases ha with
  | rejected hpos hmemory =>
    have hlog : (m.withScheduler (m.reject tick p)).journal.log = _ := log_reject m tick p
    refine ⟨?_, ?_⟩
    · rw [hlog, EventLog.frequency_extend, EventLog.admitted_extend]
      exact h.starts.trans (congrArg List.length (List.append_nil _).symm)
    · rw [hlog, EventLog.frequency_extend, EventLog.frequency_extend]
      exact h.stops
  | admitted block memory ready hpos hmemory hready hperm hinsert =>
    have hcount := ((ProcessTable.toList_insert hm.scheduler.table (.ofProcess p block)).map
      ControlBlock.unit).count_eq none
    have hnew : (ControlBlock.ofProcess p block).unit = none := rfl
    rw [List.map_cons, hnew, List.count_cons_self] at hcount
    have hlog := Journal.log_add_memory m.journal (.ofBlock p.id tick .allocated block)
    refine ⟨?_, ?_⟩
    · show (m.journal.add _).log.frequency .started +
        ((m.table.insert (.ofProcess p block)).2.toList.map ControlBlock.unit).count none =
          (m.journal.add _).log.admitted.length
      rw [hlog, hcount, EventLog.frequency_extend, EventLog.admitted_extend_allocated,
        List.length_append, ← h.starts]
      exact (Nat.add_assoc _ _ _).symm
    · show (m.journal.add _).log.frequency .stopped < (m.journal.add _).log.frequency .started ∨
        (m.journal.add _).log.frequency .stopped = 0 ∧ _
      rw [hlog, EventLog.frequency_extend, EventLog.frequency_extend]
      refine h.stops.imp_right fun ⟨hzero, hnone⟩ => ⟨hzero, fun s d hd => ?_⟩
      have hd' : (m.table.insert (.ofProcess p block)).2.get? s = some d := hd
      rw [ProcessTable.get?_insert hm.scheduler.table] at hd'
      split at hd'
      · exact Option.some.inj hd' ▸ hnew
      · exact hnone s d hd'

/-- A process starts that has never had the processor. -/
theorem sparing_launch (hslot : m.table.get? slot = some b) (hunit : b.unit = none)
    (hstarts : m.journal.log.frequency .started + m.untried = m.journal.log.admitted.length)
    (hstops : m.journal.log.frequency .stopped ≤ m.journal.log.frequency .started) :
    (m.launch tick slot b).Sparing := by
  obtain ⟨rest, hlist, hset, -⟩ := ProcessTable.exists_rest hslot
  have hbefore := (hlist.map ControlBlock.unit).count_eq none
  have hafter := ((hset (b.started tick m.units.next)).map ControlBlock.unit).count_eq none
  have hstarted : (b.started tick m.units.next).unit = some m.units.next := rfl
  rw [List.map_cons, hunit, List.count_cons_self] at hbefore
  rw [List.map_cons, hstarted, List.count_cons_of_ne (by simp)] at hafter
  have huntried : (m.launch tick slot b).untried + 1 = m.untried :=
    (congrArg (· + 1) hafter).trans hbefore.symm
  refine ⟨?_, Or.inl ?_⟩
  · rw [log_launch, EventLog.frequency_concat_self, EventLog.admitted_extend_process, ← hstarts]
    omega
  · rw [log_launch, EventLog.frequency_concat_self,
      EventLog.frequency_concat_of_ne (by simp)]
    exact Nat.lt_succ_of_le hstops

theorem Sparing.turn (h : m.Sparing) (hentered : m.Entered news) (hm : m.Sound [])
    (htimely : m.Timely f) (hpolicy : m.policy = .shortestRemainingTimeNext)
    (ht : Turn m tick m') : m'.Sparing := by
  cases ht with
  | idle hnone ha => exact h.alike ha
  | kept slot b u c hrun hslot hunit hc ha =>
    have hheard : (m.hear slot b c.remaining).Sparing :=
      h.set (d := { b with remaining := c.remaining }) hslot hunit rfl rfl rfl rfl rfl
    exact hheard.alike ha
  | launched next ready m₁ hrun hperm hheld hbound ha =>
    refine Sparing.alike ?_ ha
    cases hbound with
    | launched b hslot hunit =>
      have hle : m.journal.log.frequency .stopped ≤ m.journal.log.frequency .started := by
        rcases h.stops with hlt | ⟨hzero, -⟩
        · exact hlt.le
        · exact hzero ▸ Nat.zero_le _
      exact sparing_launch (m := m.withReady ready) hslot hunit h.starts hle
    | resumed b u hslot hunit =>
      have hlog : ((m.withReady ready).resume tick next b u).journal.log =
          m.journal.log.extend _ [] := log_resume ..
      refine h.set (d := b.resumed tick) hslot hunit rfl rfl ?_ ?_ ?_
      · rw [hlog, EventLog.frequency_concat_of_ne (by simp)]
      · rw [hlog, EventLog.frequency_concat_of_ne (by simp)]
      · rw [hlog, EventLog.admitted_extend_process]
  | swapped slot b u c next ready ready' m₁ hrun hslot hunit hc hperm hperm' hheld hbound ha hdecide
      htake =>
    obtain ⟨d, hget, hnew, rfl, -⟩ :=
      hentered.displaced hm htimely hpolicy hrun hslot hunit hc hperm htake hdecide hbound
    have hslot' := get?_hear hslot c.remaining
    have huntried : (m.stoppedFor tick slot b u c.remaining ready ready').untried = m.untried := by
      have hheard : ((m.hear slot b c.remaining).table.toList.map ControlBlock.unit).Perm
          (m.table.toList.map ControlBlock.unit) := perm_map_set hslot rfl
      have hstopped : (((m.hear slot b c.remaining).table.set slot
          ({ b with remaining := c.remaining }.stopped tick)).toList.map ControlBlock.unit).Perm
            ((m.hear slot b c.remaining).table.toList.map ControlBlock.unit) :=
        perm_map_set hslot' rfl
      exact untried_congr (hstopped.trans hheard)
    refine (sparing_launch hget hnew ?_ ?_).alike ha
    · rw [huntried, log_stoppedFor, EventLog.admitted_extend_process,
        EventLog.frequency_concat_of_ne (by simp)]
      exact h.starts
    · rw [log_stoppedFor, EventLog.frequency_concat_self,
        EventLog.frequency_concat_of_ne (by simp)]
      exact h.lt_of_unit hslot hunit

end Machine
end Uniprocessor
