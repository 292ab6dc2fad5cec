import Uniprocessor.Proofs.Machine.Rotation
import Uniprocessor.Proofs.Simulation.Entrants
import Uniprocessor.Proofs.Simulation.Slices

/-!
# Taking turns in a run

Under round robin, at the end of a tick those who have come to wait so far are those who have got the
processor, and behind them those who wait.  In the end nobody waits.

As long as somebody waits, a tick either takes one off the slice of the running process or gives the
processor to the first of those who wait, with a full slice.  So whoever has `k` others before them waits
for what is left of the slice, and for `k` full ones at most.

* `Simulation.Rotating`: what holds before every tick;
* `Simulation.Gathered`: what holds when the arrivals of a tick have been answered;
* `Rotating.exists_dispatch`: **whoever waits gets the processor in time**;
* `Simulation.run_rotates`: **the processor is given to those who have come to wait, in the order in which
  they came.**
-/

namespace Uniprocessor
namespace Simulation

open Machine

variable {m m' : Machine} {ps : List Process} {s s₀ next : Simulation} {tick latest t : Tick}
  {total quantum j k : Nat} {c : Config} {w : Workload}

/-- Whoever enters goes to the end, and nothing is done to the slice. -/
theorem LetIn.waiting (h : LetIn tick m ps m') (hm : m.Sound []) (hturn : m.ready.InTurn) :
    m'.ready.InTurn ∧ m'.waiting = m.waiting ++ (m.entrants tick ps).map Process.id ∧
      m'.sliceLeft = m.sliceLeft := by
  induction h with
  | nil m => exact ⟨hturn, (List.append_nil _).symm, rfl⟩
  | cons ha hsound hrest ih =>
    obtain ⟨hturn', hwaiting⟩ := waiting_arrival hm hturn ha
    obtain ⟨hlast, hall, hslice⟩ := ih hsound hturn'
    refine ⟨hlast, ?_, hslice.trans (sliceLeft_arrival ha)⟩
    rw [hall, hwaiting, entrants_cons ha, List.map_append, List.append_assoc]

/-- The arrivals of a tick have been answered: those who have come to wait so far are those who have got
the processor, and those who wait.  `before` is the machine before the tick. -/
structure Gathered (before : Machine) (quantum : Nat) (tick : Tick) (m : Machine) : Prop where
  policy : m.policy = .roundRobin quantum
  inTurn : m.ready.InTurn
  chronological : m.journal.log.Chronological (tick + 1)
  waiting : before.waiting <+: m.waiting
  sliceLeft : m.sliceLeft = before.sliceLeft
  queue : m.journal.log.enqueued tick ++ m.journal.log.admittedAt tick =
    m.journal.log.dispatches ++ m.waiting
  stopped : m.journal.log.stoppedAt tick = []
  inOrder : m.journal.log.InOrder tick
  kept : before.journal.log.process <+: m.journal.log.process

/-- What holds before every tick of a run under round robin. -/
structure Rotating (s₀ s : Simulation) (quantum : Nat) (latest : Tick) (total : Nat) : Prop where
  slicing : Slicing s₀ s quantum latest total
  inTurn : s.machine.ready.InTurn
  queue : s.machine.journal.log.enqueued s.tick =
    s.machine.journal.log.dispatches ++ s.machine.waiting
  inOrder : s.machine.journal.log.InOrder s.tick

theorem Rotating.gathered (h : Rotating s₀ s quantum latest total) (hsettle : s.settle = .done () m) :
    Gathered s.machine quantum s.tick m := by
  have hsound := h.slicing.ongoing.sound
  have hbefore := h.slicing.chronological
  obtain ⟨m₁, hdeliver, hreported, hsound₁, hletIn⟩ := delivered_of_settle hsound hsettle
  obtain ⟨hpolicy, hchronological, -⟩ := h.slicing.settled hreported hsound₁ hletIn
  obtain ⟨hturn, hwaiting, hslice⟩ := hletIn.waiting hsound₁ (hreported.inTurn h.inTurn)
  rw [hreported.waiting hsound] at hwaiting
  -- what the log says of processes: at most that the running one has finished
  obtain ⟨es, ms, hlog₁, hfinished⟩ := hreported.process
  have hprocess : m.journal.log.process = s.machine.journal.log.process ++ es :=
    hletIn.process_eq.trans (congrArg EventLog.process hlog₁)
  have hdispatches : m.journal.log.dispatches = s.machine.journal.log.dispatches := by
    have hnone : es.filter (fun e => e.kind.dispatches) = [] :=
      List.filter_eq_nil_iff.mpr fun e he => by simp [hfinished e he, ProcessEventKind.dispatches]
    rw [EventLog.dispatches, hprocess, List.filter_append, hnone, List.append_nil, ← EventLog.dispatches]
  have hstopped : m.journal.log.stoppedAt s.tick = [] := by
    have hnone : es.filter (fun e => e.kind = .stopped ∧ e.tick = s.tick) = [] :=
      List.filter_eq_nil_iff.mpr fun e he => by simp [hfinished e he]
    rw [EventLog.stoppedAt, hprocess, List.filter_append, hnone, List.append_nil, ← EventLog.stoppedAt]
    exact EventLog.stoppedAt_of_before hbefore.process_before le_rfl
  -- what it says of the entrants
  have hadmitted : m.journal.log.admittedAt s.tick =
      (m₁.entrants s.tick (due s.pending s.tick)).map Process.id := by
    have hearlier : s.machine.journal.log.entrances.filter (fun x => x.1 = s.tick) = [] := by
      refine List.filter_eq_nil_iff.mpr (List.forall_mem_map.mpr fun e he => ?_)
      have hlt := hbefore.memory_before e (List.mem_of_mem_filter he)
      simp [Nat.ne_of_lt hlt]
    rw [EventLog.admittedAt, hletIn.entrances, hreported.entrances, List.filter_append, hearlier,
      filter_told, if_pos rfl, List.nil_append, List.map_map]
    rfl
  -- and that nothing else has been said of the ticks before
  obtain ⟨es₁, ms₁, hnoted₁⟩ := hreported.noted
  obtain ⟨es₂, ms₂, hnoted₂⟩ := hletIn.noted
  have hnoted := hnoted₁.trans hnoted₂
  have hes := fun e he => (hnoted.process_tick e he).ge
  have hms := fun e he => (hnoted.memory_tick e he).ge
  have henqueued : m.journal.log.enqueued s.tick = s.machine.journal.log.enqueued s.tick := by
    rw [hnoted.log]
    exact EventLog.enqueued_extend hes hms le_rfl
  refine ⟨hpolicy, hturn, hchronological, ⟨_, hwaiting.symm⟩, hslice.trans hreported.sliceLeft, ?_,
    hstopped, ?_, ⟨es, hprocess.symm⟩⟩
  · rw [henqueued, h.queue, hadmitted, hdispatches, hwaiting, List.append_assoc]
  · rw [hnoted.log]
    exact h.inOrder.extend hes hms

/-- Whoever has got the processor by now has come to wait first. -/
theorem Gathered.succ (h : Gathered m quantum tick m') : m'.journal.log.InOrder (tick + 1) :=
  h.inOrder.succ h.chronological.process_before ⟨m'.waiting, h.queue.symm⟩

/-- **What the end of a tick does to those who have come to wait.** -/
theorem Gathered.turn {before m₂ m₃ : Machine} (h : Gathered before quantum tick m₂)
    (hrotated : Rotated m₂ quantum tick m₃) (hchronological : m₃.journal.log.Chronological (tick + 1)) :
    m₃.journal.log.enqueued (tick + 1) = m₃.journal.log.dispatches ++ m₃.waiting ∧
      m₃.journal.log.InOrder (tick + 1) := by
  cases hrotated with
  | still hwaiting hlog hslice =>
    rw [hlog, hwaiting]
    refine ⟨?_, h.succ⟩
    rw [EventLog.enqueued_succ, h.stopped, List.append_nil, h.queue]
  | given e rest stops hwaiting hwaiting' hlog hkind htick hstops hslice =>
    have htimes : ∀ d ∈ stops ++ [e], tick ≤ d.tick := by
      refine List.forall_mem_append.mpr ⟨fun d hd => (hstops d hd).2.ge, ?_⟩
      exact List.forall_mem_singleton.mpr htick.ge
    have hnone : ∀ d ∈ ([] : List MemoryEvent), tick ≤ d.tick := fun _ hd => absurd hd List.not_mem_nil
    have hdispatches : m₃.journal.log.dispatches = m₂.journal.log.dispatches ++ [e.process] := by
      have hstopped : stops.filter (fun d => d.kind.dispatches) = [] :=
        List.filter_eq_nil_iff.mpr fun d hd => by simp [(hstops d hd).1, ProcessEventKind.dispatches]
      rw [hlog, EventLog.dispatches_extend, List.filter_append, hstopped, List.nil_append,
        List.filter_singleton, hkind]
      rfl
    have hstoppedAt : m₃.journal.log.stoppedAt tick = stops.map ProcessEvent.process := by
      have hall : stops.filter (fun d => d.kind = .stopped ∧ d.tick = tick) = stops :=
        List.filter_eq_self.mpr fun d hd => by simp [(hstops d hd).1, (hstops d hd).2]
      have hlast : [e].filter (fun d => d.kind = .stopped ∧ d.tick = tick) = [] := by
        refine List.filter_eq_nil_iff.mpr (List.forall_mem_singleton.mpr fun hstop => ?_)
        rw [(of_decide_eq_true hstop).1] at hkind
        exact absurd hkind (by simp [ProcessEventKind.dispatches])
      rw [hlog, EventLog.stoppedAt_extend, h.stopped, List.nil_append, List.filter_append, hall, hlast,
        List.append_nil]
    have hcome : m₃.journal.log.enqueued tick ++ m₃.journal.log.admittedAt tick =
        m₃.journal.log.dispatches ++ rest := by
      rw [hdispatches, List.append_assoc, List.singleton_append, ← hwaiting, ← h.queue, hlog,
        EventLog.enqueued_extend htimes hnone le_rfl, EventLog.admittedAt_extend_process]
    refine ⟨?_, EventLog.InOrder.succ ?_ hchronological.process_before ⟨rest, hcome.symm⟩⟩
    · rw [EventLog.enqueued_succ, ← List.append_assoc, hcome, hstoppedAt, hwaiting', List.append_assoc]
    · rw [hlog]
      exact h.inOrder.extend htimes hnone

/-- Between two ticks the arrivals are gathered and those who wait are rotated. -/
theorem Rotating.ticked (h : Rotating s₀ s quantum latest total) (hnext : s.step = .running next) :
    ∃ m, Gathered s.machine quantum s.tick m ∧ next.machine.ready.InTurn ∧
      Rotated m quantum s.tick next.machine := by
  have ht := step_ticked h.slicing.ongoing.sound
  rw [hnext] at ht
  cases ht with
  | running _ _ _ hsound₂ hdone hturn hsound₃ hrun hsettle =>
    have hgathered := h.gathered hsettle
    exact ⟨_, hgathered, hturn.rotated hsound₂ hgathered.policy hgathered.inTurn⟩

theorem Rotating.step (h : Rotating s₀ s quantum latest total) (hquantum : 0 < quantum)
    (hnext : s.step = .running next) : Rotating s₀ next quantum latest total := by
  have hslicing := h.slicing.step hquantum hnext
  have htick := tick_of_step hnext
  obtain ⟨m, hgathered, hturn, hrotated⟩ := h.ticked hnext
  obtain ⟨hqueue, hinOrder⟩ := hgathered.turn hrotated (htick ▸ hslicing.chronological)
  exact ⟨hslicing, hturn, htick ▸ hqueue, htick ▸ hinOrder⟩

/-- While somebody waits, the slice of the running process is not over. -/
theorem Rotating.slice_pos (h : Rotating s₀ s quantum latest total) (hwait : s.machine.waiting ≠ []) :
    0 < s.machine.sliceLeft ∧ s.machine.sliceLeft ≤ quantum := by
  have hongoing := h.slicing.ongoing
  obtain ⟨x, hx⟩ := List.exists_mem_of_ne_nil _ (waiting_ne_nil.mp hwait)
  obtain ⟨b, hb⟩ := (hongoing.sound.scheduler.live x).mp (List.mem_append_right _ hx)
  have hrun : s.machine.running ≠ none := by
    intro hidle
    have hmem : b ∈ s.machine.table.toList := ProcessTable.mem_toList.mpr ⟨x, hb⟩
    rw [hongoing.busy hidle] at hmem
    exact absurd hmem List.not_mem_nil
  obtain ⟨slot, hslot⟩ := Option.ne_none_iff_exists'.mp hrun
  obtain ⟨d, hd⟩ := hongoing.sound.scheduler.running_live hslot
  cases h.slicing.sliced with
  | idle hidle => exact absurd (hidle.symm.trans (current?_of_running hslot hd)) (by simp)
  | busy e hcurrent hlog htime hleft hspent => exact ⟨hleft, hspent ▸ Nat.le_add_right _ _⟩

/-- When nobody is left, nobody waits. -/
theorem Rotating.cleared (h : Rotating s₀ s quantum latest total) (hover : s.step = .finished m t) :
    t = s.tick ∧ Gathered s.machine quantum s.tick m ∧ m.waiting = [] := by
  obtain ⟨hsound, hlive, -⟩ := h.slicing.ongoing.nobody_left hover
  have ht := step_ticked h.slicing.ongoing.sound
  rw [hover] at ht
  cases ht with
  | finished hreported hsound₁ hletIn hsound₂ hdone hsettle =>
    refine ⟨rfl, h.gathered hsettle, ?_⟩
    rw [Machine.waiting, hsound.toList_ready_eq_nil hlive]
    rfl

/-- What has been logged of a process remains so. -/
theorem Rotating.process_prefix (h : Rotating s₀ s quantum latest total) (hquantum : 0 < quantum)
    (hend : runFor j s = .finished m t) : s.machine.journal.log.process <+: m.journal.log.process := by
  induction j generalizing s with
  | zero => exact absurd hend (by simp [runFor])
  | succ j ih =>
    rcases runFor_succ_eq_finished hend with hover | ⟨next, hnext, hrest⟩
    · exact (h.cleared hover).2.1.kept
    · obtain ⟨m₂, hgathered, -, hrotated⟩ := h.ticked hnext
      refine (hgathered.kept.trans ?_).trans (ih (h.step hquantum hnext) hrest)
      cases hrotated with
      | still hwaiting hlog => exact hlog ▸ List.prefix_rfl
      | given e rest stops hwaiting hwaiting' hlog =>
        rw [hlog]
        exact List.prefix_append _ _

/-- What has a place in a list has it in a longer one. -/
theorem getElem?_of_prefix {α : Type} {l l' : List α} {x : α} (h : l <+: l') (hk : l[k]? = some x) :
    l'[k]? = some x := by
  obtain ⟨hlt, rfl⟩ := List.getElem?_eq_some_iff.mp hk
  exact List.prefix_iff_getElem?.mp h k hlt

/-- **Whoever waits gets the processor in time**: when what is left of the slice of the running process is
over, and those of the `k` others that have come before. -/
theorem Rotating.exists_dispatch (h : Rotating s₀ s quantum latest total) (hquantum : 0 < quantum)
    (hend : runFor j s = .finished m t) {id : Nat} (hk : s.machine.waiting[k]? = some id) :
    ∃ e ∈ m.journal.log.process, e.kind.dispatches = true ∧ e.process = id ∧ s.tick ≤ e.tick ∧
      e.tick < s.tick + s.machine.sliceLeft + k * quantum := by
  induction j generalizing s k with
  | zero => exact absurd hend (by simp [runFor])
  | succ j ih =>
    have hmem := List.mem_of_getElem? hk
    obtain ⟨hleft, -⟩ := h.slice_pos (List.ne_nil_of_mem hmem)
    rcases runFor_succ_eq_finished hend with hover | ⟨next, hnext, hrest⟩
    · obtain ⟨-, hgathered, hnone⟩ := h.cleared hover
      exact absurd (hnone ▸ hgathered.waiting.subset hmem) List.not_mem_nil
    · have hrotating := h.step hquantum hnext
      have htick := tick_of_step hnext
      obtain ⟨m₂, hgathered, -, hrotated⟩ := h.ticked hnext
      have hk₂ : m₂.waiting[k]? = some id := getElem?_of_prefix hgathered.waiting hk
      have hslice₂ := hgathered.sliceLeft
      cases hrotated with
      | still hwaiting hlog hslice =>
        obtain ⟨e, he, hkind, hid, hlow, hhigh⟩ := ih hrotating hrest (hwaiting ▸ hk₂)
        have hless := hslice (List.ne_nil_of_mem (List.mem_of_getElem? hk₂))
        refine ⟨e, he, hkind, hid, ?_, ?_⟩
        · rw [htick] at hlow
          exact Nat.le_of_succ_le hlow
        · rw [htick] at hhigh
          dsimp only [Tick] at *
          omega
      | given e rest stops hwaiting hwaiting' hlog hkind htime hstops hslice =>
        rw [hwaiting] at hk₂
        cases k with
        | zero =>
          have hlogged : e ∈ next.machine.journal.log.process := by
            rw [hlog]
            exact List.mem_append_right _ (List.mem_append_right _ (List.mem_singleton_self e))
          refine ⟨e, (hrotating.process_prefix hquantum hrest).subset hlogged, hkind,
            Option.some.inj hk₂, htime.ge, ?_⟩
          rw [htime, Nat.zero_mul, Nat.add_zero]
          exact Nat.lt_add_of_pos_right hleft
        | succ k =>
          have hk' : next.machine.waiting[k]? = some id := by
            rw [hwaiting']
            exact getElem?_of_prefix (List.prefix_append rest _) hk₂
          obtain ⟨d, hd, hdkind, hid, hlow, hhigh⟩ := ih hrotating hrest hk'
          refine ⟨d, hd, hdkind, hid, ?_, ?_⟩
          · rw [htick] at hlow
            exact Nat.le_of_succ_le hlow
          · rw [htick, hslice] at hhigh
            rw [Nat.succ_mul]
            dsimp only [Tick] at *
            omega

/-- Whoever is in a slot that waits gets the processor within as many quanta as there are processes up to
it. -/
theorem Rotating.exists_dispatch_slot (h : Rotating s₀ s quantum latest total) (hquantum : 0 < quantum)
    (hend : runFor j s = .finished m t) {slot : Slot} (hk : s.machine.ready.toList[k]? = some slot) :
    ∃ b, s.machine.table.get? slot = some b ∧ ∃ e ∈ m.journal.log.process,
      e.kind.dispatches = true ∧ e.process = b.id ∧ s.tick ≤ e.tick ∧
        e.tick < s.tick + (k + 1) * quantum := by
  obtain ⟨b, hb⟩ := (h.slicing.ongoing.sound.scheduler.live slot).mp
    (List.mem_append_right _ (List.mem_of_getElem? hk))
  have hwaiting : s.machine.waiting[k]? = some b.id := by
    rw [Machine.waiting, List.getElem?_map, hk, Option.map_some, idAt_eq hb]
  obtain ⟨e, he, hkind, hid, hlow, hhigh⟩ := h.exists_dispatch hquantum hend hwaiting
  have hslice := (h.slice_pos (List.ne_nil_of_mem (List.mem_of_getElem? hwaiting))).2
  refine ⟨b, hb, e, he, hkind, hid, hlow, Nat.lt_of_lt_of_le hhigh ?_⟩
  rw [Nat.succ_mul, Nat.add_comm (k * quantum), ← Nat.add_assoc]
  exact Nat.add_le_add_right (Nat.add_le_add_left hslice _) _

/-! ## Whole runs -/

theorem start_rotating (hc : c.Valid) (hpolicy : c.policy = .roundRobin quantum) (w : Workload) :
    ∃ s₀, start c w = .ok s₀ ∧ Rotating s₀ s₀ quantum (latestArrival w) (totalRunTime w) ∧
      s₀.tick = 0 := by
  obtain ⟨s₀, hstart, hslicing, htick⟩ := start_slicing hc hpolicy w
  obtain rfl := Except.ok.inj ((start_eq hc w).symm.trans hstart)
  have hturn : (ReadyQueue.ofPolicy c.policy c.readyCapacity).InTurn :=
    hpolicy ▸ ReadyQueue.inTurn_ofPolicy quantum c.readyCapacity
  have hnobody : (ReadyQueue.ofPolicy c.policy c.readyCapacity).toList = [] := by
    rw [hpolicy]
    rfl
  refine ⟨_, hstart, ⟨hslicing, hturn, ?_, fun t ht => absurd ht (Nat.not_lt_zero t)⟩, rfl⟩
  show [] = [] ++ List.map _ (ReadyQueue.ofPolicy c.policy c.readyCapacity).toList
  rw [hnobody]
  rfl

/-- **Taking turns.**  List those who come to wait in the order in which they do so, the admitted ones of
a tick before the one that is stopped at that tick.  Whoever has got the processor by the end of a tick had
come before it was given away, and the list of those who have is the beginning of that list; when the run
is over the two lists are the same.  And whoever waits at the end of a tick with `k` others before them
gets the processor at one of the next `k + 1` times the quantum ticks. -/
theorem run_rotates (hpolicy : c.policy = .roundRobin quantum) {r : Report} (hr : run c w = .ok r) :
    (∀ tick, r.events.dispatched (tick + 1) <+: r.events.enqueued tick ++ r.events.admittedAt tick) ∧
    (∃ n, (∀ e ∈ r.events.process, e.tick < n) ∧ (∀ e ∈ r.events.memory, e.tick < n) ∧
      r.events.dispatches = r.events.enqueued n) ∧
    ∃ s₀, start c w = .ok s₀ ∧ ∀ tick s, runFor (tick + 1) s₀ = .running s →
      ∀ k slot, s.machine.ready.toList[k]? = some slot →
        ∃ b, s.machine.table.get? slot = some b ∧ ∃ e ∈ r.events.process,
          e.kind.dispatches = true ∧ e.process = b.id ∧ tick < e.tick ∧
            e.tick ≤ tick + (k + 1) * quantum := by
  have hc := valid_of_run hr
  have hquantum := quantum_pos hc hpolicy
  obtain ⟨s₀, hstart, hrotating, hzero⟩ := start_rotating hc hpolicy w
  have hstep : ∀ s next, Rotating s₀ s quantum (latestArrival w) (totalRunTime w) →
      s.step = .running next → Rotating s₀ next quantum (latestArrival w) (totalRunTime w) :=
    fun s next hs hnext => hs.step hquantum hnext
  obtain ⟨last, m, t, hlast, hover, hend, -, rfl⟩ :=
    exists_finish hstep hrotating hrotating.slicing.ongoing hstart hzero hr
  obtain ⟨rfl, hgathered, hnone⟩ := hlast.cleared hover
  have hall : m.journal.log.enqueued last.tick ++ m.journal.log.admittedAt last.tick =
      m.journal.log.dispatches := by rw [hgathered.queue, hnone, List.append_nil]
  have hfull : m.journal.log.enqueued (last.tick + 1) = m.journal.log.dispatches := by
    rw [EventLog.enqueued_succ, hgathered.stopped, List.append_nil, hall]
  refine ⟨fun tick => ?_, ⟨last.tick + 1, hgathered.chronological.process_before,
    hgathered.chronological.memory_before, hfull.symm⟩, s₀, hstart, fun tick s hreached k slot hk => ?_⟩
  · rcases Nat.lt_or_ge tick (last.tick + 1) with hlt | hle
    · exact hgathered.succ tick hlt
    · have hover : ∀ e ∈ m.journal.log.process, e.tick < tick + 1 := fun e he =>
        Nat.lt_succ_of_lt (Nat.lt_of_lt_of_le (hgathered.chronological.process_before e he) hle)
      show m.journal.log.dispatched (tick + 1) <+: _
      rw [EventLog.dispatched_eq hover, ← hfull]
      exact (EventLog.enqueued_prefix _ hle).trans (List.prefix_append _ _)
  · have hs := of_reached hstep hrotating hreached
    have hnow : s.tick = tick + 1 := by rw [tick_of_runFor hreached, hzero, Nat.zero_add]
    obtain ⟨j, hj⟩ := exists_finished_of_reached hreached hend
    obtain ⟨b, hb, e, he, hkind, hid, hlow, hhigh⟩ := hs.exists_dispatch_slot hquantum hj hk
    refine ⟨b, hb, e, he, hkind, hid, ?_, ?_⟩
    · rw [hnow] at hlow
      exact hlow
    · rw [hnow, Nat.add_right_comm] at hhigh
      exact Nat.le_of_lt_succ hhigh

/-- What a run has come to, if it goes on. -/
def ongoing? : TickOutcome → Option Simulation
  | .running s => some s
  | _ => none

theorem eq_running_of_ongoing? {x : TickOutcome} (h : ongoing? x = some s) : x = .running s := by
  cases x with
  | running s => exact congrArg TickOutcome.running (Option.some.inj h)
  | finished m tick => exact absurd h (by simp [ongoing?])
  | failed e m => exact absurd h (by simp [ongoing?])

/-- Three processes take turns of two ticks.  The third one has two others before it at the end of the
first tick, and gets the processor with the end of the second slice. -/
theorem run_rotates_three :
    ∃ (c : Config) (w : Workload) (r : Report) (s₀ s : Simulation) (slot : Slot),
      c.policy = .roundRobin 2 ∧ run c w = .ok r ∧ start c w = .ok s₀ ∧
      r.events.dispatches = [1, 2, 3, 1, 2, 1] ∧
      r.events.dispatched 3 <+: r.events.enqueued 2 ++ r.events.admittedAt 2 ∧
      runFor 1 s₀ = .running s ∧ s.machine.ready.toList[1]? = some slot ∧
      ∃ b, s.machine.table.get? slot = some b ∧ b.id = 3 ∧ ∃ e ∈ r.events.process,
        e.kind.dispatches = true ∧ e.process = 3 ∧ 0 < e.tick ∧ e.tick ≤ 4 := by
  let c : Config := { policy := .roundRobin 2 }
  let w : Workload := ⟨[⟨1, 0, 5, 0, 10⟩, ⟨2, 0, 3, 0, 10⟩, ⟨3, 0, 2, 0, 10⟩]⟩
  have hrun : ((run c w).toOption.map fun r => r.events.dispatches) = some [1, 2, 3, 1, 2, 1] := by
    decide +kernel
  obtain ⟨r, hr, hevents⟩ := exists_of_toOption_map hrun
  obtain ⟨hinOrder, -, s₀, hstart, hintime⟩ := run_rotates (c := c) rfl hr
  obtain rfl := Except.ok.inj ((start_eq (by decide : c.Valid) w).symm.trans hstart)
  have hfirst : ∃ s, runFor 1 ⟨.fresh c w.size, w.processes, 0⟩ = .running s ∧
      ((s.machine.ready.toList[1]?).bind s.machine.table.get?).map ControlBlock.id = some 3 := by
    have hthird : (ongoing? (runFor 1 ⟨.fresh c w.size, w.processes, 0⟩)).bind (fun s =>
        ((s.machine.ready.toList[1]?).bind s.machine.table.get?).map ControlBlock.id) = some 3 := by
      decide +kernel
    obtain ⟨s, hs, hid⟩ := Option.bind_eq_some_iff.mp hthird
    exact ⟨s, eq_running_of_ongoing? hs, hid⟩
  obtain ⟨s, hreached, hthird⟩ := hfirst
  obtain ⟨b, hbound, hid⟩ := Option.map_eq_some_iff.mp hthird
  obtain ⟨slot, hslot, hb⟩ := Option.bind_eq_some_iff.mp hbound
  obtain ⟨b', hb', e, he, hkind, hprocess, hlow, hhigh⟩ := hintime 0 s hreached 1 slot hslot
  obtain rfl : b = b' := Option.some.inj (hb.symm.trans hb')
  exact ⟨c, w, r, _, s, slot, rfl, hr, hstart, hevents, hinOrder 2, hreached, hslot, b, hb, hid, e, he,
    hkind, hprocess.trans hid, hlow, hhigh⟩

end Simulation
end Uniprocessor
