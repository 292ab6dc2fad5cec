import Uniprocessor.Proofs.Machine.Shortest
import Uniprocessor.Proofs.Simulation.Proper

/-!
# Shortest remaining time next is best

Two runs of the same workload under different policies are gone through tick by tick, side by side.
As long as nobody is rejected, the same processes come to both, and both burn a tick of some process
whenever there is any; so they have the same work left, and end at the same tick.  If one of them
always burns a tick of a process that has least to go, its backlog majorizes that of the other one
and so is made of no more processes, at every tick.

The number of live processes is not the same as the number of finishes in the log, but what is not
live any more has finished where nobody was rejected; so the comparison of the backlogs is one of the
logs, and the totals follow from it.

* `Simulation.Ahead`: one run has got at least as far as another one;
* `Ahead.finishedBy_le`: **the run that is ahead has as many finishes by every tick, or more**;
* `Simulation.run_shortest`: **no policy leaves fewer processes unfinished at any tick**, or comes to
  smaller totals.
-/

namespace Uniprocessor

namespace Machine

variable {m m' : Machine} {tick : Tick}

/-- The end of a tick finishes nobody. -/
theorem Turn.finishedBy (h : Turn m tick m') (t : Tick) :
    m'.journal.log.finishedBy t = m.journal.log.finishedBy t := by
  obtain ⟨es, hlog, hes⟩ := h.log
  rw [hlog]
  exact EventLog.finishedBy_extend_of_none (fun e he => (hes e he).2.1) t

end Machine

namespace Simulation

open Machine Backlog

variable {m m' : Machine} {ps : List Process} {s s' next : Simulation} {tick t : Tick}
  {c c' : Config} {w : Workload} {k k' : Nat}

/-- Arrivals wait where their run times put them. -/
theorem LetIn.queued (h : LetIn tick m ps m') (hm : m.Sound [])
    (hpolicy : m.policy = .shortestRemainingTimeNext) (hqueued : m.Queued) : m'.Queued := by
  induction h with
  | nil m => exact hqueued
  | cons ha hsound hrest ih =>
    refine ih hsound ?_ (hqueued.arrival hm hpolicy ha)
    cases ha with
    | rejected hpos hmemory => exact hpolicy
    | admitted block memory ready hpos hmemory hready hperm => exact hpolicy

/-! ## Two runs -/

/-- The run `s` serves whoever has least to go, and has got at least as far as the run `s'` of the same
processes. -/
structure Ahead (s s' : Simulation) : Prop where
  tick : s'.tick = s.tick
  pending : s'.pending = s.pending
  backlog : Majorizes s.machine.backlog s'.machine.backlog
  finishedBy : ∀ t, s'.machine.journal.log.finishedBy t ≤ s.machine.journal.log.finishedBy t
  queued : s.machine.Queued
  foremost : s.machine.Foremost

/-- Under shortest remaining time next, whoever has least to go is served again in the next tick. -/
theorem Proper.shortest (h : s.Proper c w) (hpolicy : c.policy = .shortestRemainingTimeNext)
    (hqueued : s.machine.Queued) (hnext : s.step = .running next) :
    next.machine.Queued ∧ next.machine.Foremost := by
  have hongoing := h.underway.ongoing
  have ht := step_ticked hongoing.sound
  rw [hnext] at ht
  cases ht with
  | running hreported hsound₁ hletIn hsound₂ hdone hturn hsound₃ hrun =>
    have hobeys₁ := h.underway.obeys.reported hreported
    have hqueued₂ := hletIn.queued hsound₁ (hobeys₁.policy.trans hpolicy)
      (hqueued.reported hongoing.sound hreported)
    exact hqueued₂.turn hsound₂
      (hletIn.timely hsound₁ (hongoing.timely.reported hongoing.sound hreported))
      ((hletIn.obeys hobeys₁).policy.trans hpolicy) hturn

/-- **A tick that is burnt in both runs keeps the one ahead.** -/
theorem Ahead.reported (h : s.Ahead s') (hs : s.Proper c w) (hs' : s'.Proper c' w)
    {reports reports' : List UnitReport} (hr : Reported s.machine s.tick reports m)
    (hr' : Reported s'.machine s'.tick reports' m') : Majorizes m.backlog m'.backlog := by
  obtain ⟨hsound, htimely, -, hbusy, -⟩ := hs.underway.ongoing
  obtain ⟨hsound', htimely', -, hbusy', -⟩ := hs'.underway.ongoing
  have hnil := h.backlog.eq_nil_iff htimely.backlog_pos htimely'.backlog_pos
  cases hrun : s.machine.running with
  | none =>
    -- nobody is live in either run
    have hlive : s.machine.backlog = [] := congrArg (List.map _) (hbusy hrun)
    have hlive' := hnil.mp hlive
    have hrun' : s'.machine.running = none := by
      refine Option.eq_none_iff_forall_ne_some.mpr fun slot hrun' => ?_
      obtain ⟨b, hslot⟩ := hsound'.scheduler.running_live hrun'
      obtain ⟨others, hlist, -⟩ := exists_others hslot
      rw [hlive'] at hlist
      exact absurd hlist.symm.eq_nil (by simp)
    rw [Machine.backlog, Machine.backlog, table_reported hr hrun, table_reported hr' hrun']
    exact h.backlog
  | some slot =>
    obtain ⟨b, hslot⟩ := hsound.scheduler.running_live hrun
    obtain ⟨others, hbefore, hafter⟩ := htimely.backlog_reported hsound hr hrun hslot
    obtain ⟨slot', hrun'⟩ : ∃ slot', s'.machine.running = some slot' := by
      refine Option.ne_none_iff_exists'.mp fun hrun' => ?_
      have hlive := hnil.mpr (congrArg (List.map _) (hbusy' hrun'))
      rw [hlive] at hbefore
      exact absurd hbefore.symm.eq_nil (by simp)
    obtain ⟨b', hslot'⟩ := hsound'.scheduler.running_live hrun'
    obtain ⟨others', hbefore', hafter'⟩ := htimely'.backlog_reported hsound' hr' hrun' hslot'
    have hleast : ∀ x ∈ others, b.remaining ≤ x := fun x hx =>
      h.foremost.le_backlog hsound hrun hslot x (hbefore.symm.subset (List.mem_cons_of_mem _ hx))
    exact ((h.backlog.perm hbefore hbefore').burn hleast (htimely slot b hslot).left_pos
      (htimely' slot' b' hslot').left_pos).perm hafter.symm hafter'.symm

/-- After the reports and the arrivals of a tick the run that is ahead has finished as many processes
as the other one, or more. -/
theorem Ahead.settled (h : s.Ahead s') (hs : s.Proper c w) (hs' : s'.Proper c' w)
    (hm : s.Settled w m) (hm' : s'.Settled w m') :
    Majorizes m.backlog m'.backlog ∧ (m.outstanding = 0 ↔ m'.outstanding = 0) ∧
      ∀ t, m'.journal.log.finishedBy t ≤ m.journal.log.finishedBy t := by
  obtain ⟨reports, m₁, hreported, hperm⟩ := hm.arrived
  obtain ⟨reports', m₁', hreported', hperm'⟩ := hm'.arrived
  have hsame : notDue s'.pending s'.tick = notDue s.pending s.tick := by rw [h.pending, h.tick]
  have hdue : due s'.pending s'.tick = due s.pending s.tick := by rw [h.pending, h.tick]
  rw [hdue] at hperm'
  have hburnt := h.reported hs hs' hreported hreported'
  have hmajorizes : Majorizes m.backlog m'.backlog :=
    (hburnt.append _).perm hperm.symm hperm'.symm
  have hlen := hmajorizes.length_le hm.positive
  have hnil := hmajorizes.eq_nil_iff hm.positive hm'.positive
  have hout := hm.outstanding
  have hout' := hm'.outstanding
  rw [hsame] at hout'
  refine ⟨hmajorizes, ?_, fun t => ?_⟩
  · rw [← List.length_eq_zero_iff, ← List.length_eq_zero_iff] at hnil
    omega
  · rcases Nat.lt_or_ge t s.tick with ht | ht
    · rw [hm.finishedBy_of_lt t ht, hm'.finishedBy_of_lt t (h.tick.symm ▸ ht)]
      exact h.finishedBy t
    · rw [hm.finishedBy_of_le t ht, hm'.finishedBy_of_le t (h.tick.symm ▸ ht)]
      have hall := hm.finished
      have hall' := hm'.finished
      omega

/-- **The run that is ahead has as many finishes by every tick**, or more. -/
theorem Ahead.finishedBy_le (h : s.Ahead s') (hs : s.Proper c w) (hs' : s'.Proper c' w)
    (hpolicy : c.policy = .shortestRemainingTimeNext) {t' : Tick}
    (hend : runFor k s = .finished m t) (hend' : runFor k' s' = .finished m' t')
    (hnone : m.metrics.rejected = 0) (hnone' : m'.metrics.rejected = 0) (x : Tick) :
    m'.journal.log.finishedBy x ≤ m.journal.log.finishedBy x := by
  induction k generalizing s s' k' with
  | zero => exact absurd hend (by simp [runFor])
  | succ k ih =>
    cases hs.onward hend hnone with
    | last hsettled hdone =>
      cases hs'.onward hend' hnone' with
      | last hsettled' hdone' => exact (h.settled hs hs' hsettled hsettled').2.2 x
      | more m₂' next' j' hsettled' hleft' =>
        exact absurd ((h.settled hs hs' hsettled hsettled').2.1.mp hdone) hleft'
    | more m₂ next j hsettled hleft hturn hbacklog hnext hpending htick hk hend =>
      cases hs'.onward hend' hnone' with
      | last hsettled' hdone' =>
        exact absurd ((h.settled hs hs' hsettled hsettled').2.1.mpr hdone') hleft
      | more m₂' next' j' hsettled' hleft' hturn' hbacklog' hnext' hpending' htick' hk' hend' =>
        obtain rfl : k = j := Nat.succ.inj hk
        obtain ⟨hmajorizes, -, hfinished⟩ := h.settled hs hs' hsettled hsettled'
        obtain ⟨hqueued, hforemost⟩ := hs.shortest hpolicy h.queued hnext
        have hahead : next.Ahead next' := by
          refine ⟨?_, ?_, ?_, fun t => ?_, hqueued, hforemost⟩
          · rw [htick, htick', h.tick]
          · rw [hpending, hpending', h.pending, h.tick]
          · exact hmajorizes.perm hbacklog.symm hbacklog'.symm
          · rw [hturn.finishedBy, hturn'.finishedBy]
            exact hfinished t
        exact ih hahead (hs.step hnext) (hs'.step hnext') hend hend'

/-! ## Whole runs -/

/-- **No policy leaves fewer processes unfinished than shortest remaining time next**, at any tick, or
comes to a smaller waiting time or turnaround in total: where two runs of a workload differ in
nothing but the policy, and neither rejects anybody. -/
theorem run_shortest {c : Config} {other : Policy}
    (hc : { c with policy := .shortestRemainingTimeNext }.Valid)
    (hc' : { c with policy := other }.Valid) {ps : List Process} {w : Workload}
    (hw : Workload.ofList ps = .ok w) {r r' : Report}
    (hr : run { c with policy := .shortestRemainingTimeNext } w = .ok r)
    (hr' : run { c with policy := other } w = .ok r')
    (hnone : r.summary.rejected = 0) (hnone' : r'.summary.rejected = 0) :
    ∃ m t m' t',
      finish { c with policy := .shortestRemainingTimeNext } w = .ok (.finished m t) ∧
      r = m.report ∧
      finish { c with policy := other } w = .ok (.finished m' t') ∧ r' = m'.report ∧
      (∀ x, r.events.unfinished w.processes x ≤ r'.events.unfinished w.processes x) ∧
      m.metrics.totalWaiting ≤ m'.metrics.totalWaiting ∧
      m.metrics.totalTurnaround ≤ m'.metrics.totalTurnaround := by
  obtain ⟨-, hpos, hdistinct⟩ := Workload.ofList_ok hw
  obtain ⟨s, hstart, hs, htick, hpending, htable, hjournal, hidle, hready⟩ := start_proper hc hw
  obtain ⟨s', hstart', hs', htick', hpending', htable', hjournal', -⟩ := start_proper hc' hw
  obtain ⟨k, m, t, hend, hfinish, rfl, hcomplete, hrecounted⟩ := hs.exists_finished hstart htick hr
  obtain ⟨k', m', t', hend', hfinish', rfl, hcomplete', hrecounted'⟩ :=
    hs'.exists_finished hstart' htick' hr'
  have hahead : s.Ahead s' := by
    refine ⟨htick'.trans htick.symm, hpending'.trans hpending.symm, ?_, fun x => ?_, ?_,
      fun slot hrun => absurd (hidle.symm.trans hrun) (by simp)⟩
    · rw [Machine.backlog, Machine.backlog, htable, htable']
      exact .refl _
    · rw [hjournal, hjournal']
    · rw [Machine.Queued, hready]
      exact ReadyQueue.keyed_ofPolicy rfl _ _
  have hle := hahead.finishedBy_le hs hs' rfl hend hend' hnone hnone'
  have hserved := EventLog.served hdistinct hcomplete.gone hcomplete.known hpos
    (hrecounted.rejected.symm.trans hnone)
  have hserved' := EventLog.served hdistinct hcomplete'.gone hcomplete'.known hpos
    (hrecounted'.rejected.symm.trans hnone')
  obtain ⟨hwaiting, hturnaround⟩ := hserved.totals_le hserved' hle
  refine ⟨m, t, m', t', hfinish, rfl, hfinish', rfl, fun x => ?_, ?_, ?_⟩
  · have hall := hserved.unfinished_add x
    have hall' := hserved'.unfinished_add x
    have hmore := hle x
    show m.journal.log.unfinished _ x ≤ m'.journal.log.unfinished _ x
    omega
  · rw [hrecounted.totalWaiting, hrecounted'.totalWaiting]
    exact hwaiting
  · rw [hrecounted.totalTurnaround, hrecounted'.totalTurnaround]
    exact hturnaround

/-- A process is displaced by one that needs less, which under round robin waits for its turn. -/
theorem run_shortest_displaced :
    ∃ (c : Config) (other : Policy) (ps : List Process) (w : Workload) (r r' : Report),
      Config.Valid { c with policy := .shortestRemainingTimeNext } ∧
      Config.Valid { c with policy := other } ∧ Workload.ofList ps = .ok w ∧
      w.processes.map Process.id = [1, 2] ∧
      run { c with policy := .shortestRemainingTimeNext } w = .ok r ∧
      run { c with policy := other } w = .ok r' ∧
      (r.summary.rejected, r.events.unfinished w.processes 2) = (0, 1) ∧
      (r'.summary.rejected, r'.events.unfinished w.processes 2) = (0, 2) ∧
      ∀ x, r.events.unfinished w.processes x ≤ r'.events.unfinished w.processes x := by
  let c : Config := { policy := .shortestRemainingTimeNext, readyCapacity := 2 }
  let w : Workload := ⟨[⟨1, 0, 3, 0, 100⟩, ⟨2, 1, 1, 0, 100⟩]⟩
  have hw : Workload.ofList w.processes = .ok w := Workload.ofList_of_pairwise rfl (by decide)
  have hrun : ((run c w).toOption.map fun r =>
      (r.summary.rejected, r.events.unfinished w.processes 2)) = some (0, 1) := by decide +kernel
  have hrun' : ((run { c with policy := .roundRobin 3 } w).toOption.map fun r =>
      (r.summary.rejected, r.events.unfinished w.processes 2)) = some (0, 2) := by decide +kernel
  obtain ⟨r, hr, hfigures⟩ := exists_of_toOption_map hrun
  obtain ⟨r', hr', hfigures'⟩ := exists_of_toOption_map hrun'
  have hc : Config.Valid { c with policy := .shortestRemainingTimeNext } := by decide
  have hc' : Config.Valid { c with policy := .roundRobin 3 } := by decide
  obtain ⟨-, -, -, -, -, -, -, -, hall, -, -⟩ :=
    run_shortest hc hc' hw hr hr' (congrArg Prod.fst hfigures) (congrArg Prod.fst hfigures')
  exact ⟨c, _, _, w, r, r', hc, hc', hw, rfl, hr, hr', hfigures, hfigures', hall⟩

end Simulation
end Uniprocessor
