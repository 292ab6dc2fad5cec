import Mathlib.Algebra.Order.BigOperators.Group.List
import Uniprocessor.Proofs.Machine.Ranges
import Uniprocessor.Proofs.Report.Saved
import Uniprocessor.Proofs.Simulation.Proper

/-!
# Reports of runs are read back

The numbers in the report of a run come of those of its workload: no tick is later than the horizon,
nobody has more to go than its run time, nobody has waited for longer than the time that has gone by,
and ranges lie in the arena.  So if the numbers of a workload are words and its horizon is one, then
the report is in range.  It can be read back from its text, with everything as it was but for its
floats, and these are finite.

The floats need not be as they were.  A quotient such as `26/11` is written with all the digits that
tell it from its neighbours, and these are converted and divided by a power of ten when they are read,
with a rounding each time.

* `Simulation.InWords`: settings and workloads in range;
* `Machine.Told`: what is known of a machine when a run is over;
* `Told.report`: its report is in range;
* `Simulation.run_reloads`: **the report of a run is read back, and as it was exactly if each of its
  floats is**;
* `Simulation.run_reload_differs`: a run whose report is read back with other figures.
-/

namespace Uniprocessor

open Simulation

/-- A process whose numbers are words; its times are bounded by the horizon of a run. -/
structure Process.InWords (p : Process) : Prop where
  id : p.id < word32
  memory : p.memory < word64

/-- Settings and a workload whose numbers are words, with the last tick that a run can come to. -/
structure Simulation.InWords (c : Config) (w : Workload) : Prop where
  policy : c.policy.InWords
  arena : c.arena < word64
  processes : ∀ p ∈ w.processes, p.InWords
  horizon : horizon w < word64

namespace Machine

/-- What is known of a machine when a run of a workload is over, at the tick `t`. -/
structure Told (m : Machine) (t : Tick) (c : Config) (w : Workload) : Prop where
  complete : m.journal.log.Complete w.processes
  before : m.journal.log.Chronological (t + 1)
  memory_known : ∀ e ∈ m.journal.log.memory, e.process ∈ w.processes.map Process.id
  figured : m.Figured t
  placing : m.Placing c.arena w.processes
  policy : m.policy = c.policy
  early : t ≤ horizon w
  answered : m.metrics.finished + m.metrics.rejected = w.size

variable {m : Machine} {t : Tick} {c : Config} {w : Workload} {p : Process}

/-- Neither arrivals nor run times are beyond the horizon. -/
theorem times_le_horizon (hp : p ∈ w.processes) : p.arrival ≤ horizon w ∧ p.runTime ≤ horizon w := by
  have harrival := arrival_le_latest hp
  have htotal : p.runTime ≤ totalRunTime w := List.le_sum_of_mem (List.mem_map_of_mem hp)
  exact ⟨harrival.trans (Nat.le_add_right _ _), htotal.trans (Nat.le_add_left _ _)⟩

theorem Told.tick_lt (h : m.Told t c w) (hw : InWords c w) : t < word64 :=
  h.early.trans_lt hw.horizon

/-- Process events are in range. -/
theorem Told.process (h : m.Told t c w) (hw : InWords c w) (hpos : ∀ p ∈ w.processes, p.runTime ≠ 0) :
    ∀ e ∈ m.journal.log.process, e.InWords := by
  intro e he
  obtain ⟨p, hp, haccounted, hmem⟩ := h.complete.exists_accounted he
  obtain ⟨hid, harrival, htotal⟩ := haccounted.about e hmem
  obtain ⟨hleft, hbalance⟩ := haccounted.balance e hmem
  obtain ⟨hcame, hneeded⟩ := times_le_horizon hp
  have hearly : e.tick < word64 :=
    (Nat.le_of_lt_succ (h.before.process_before e he)).trans_lt (h.tick_lt hw)
  have hneed : e.total < word64 := htotal ▸ hneeded.trans_lt hw.horizon
  have hwaited : e.waiting ≤ e.tick := by
    dsimp only [Tick] at *
    omega
  refine ⟨hearly, hid ▸ (hw.processes p hp).id, harrival ▸ hcame.trans_lt hw.horizon, hneed,
    hleft.trans_lt (htotal ▸ hneed), hwaited.trans_lt hearly, fun figures hfigures => ?_⟩
  have hrated := h.figured.rated e he
  rw [ProcessEvent.Rated, hfigures] at hrated
  split at hrated
  · obtain rfl := Option.some.inj hrated
    have hsome : e.total ≠ 0 := htotal ▸ hpos p hp
    refine ⟨(Nat.sub_le _ _).trans_lt hearly, ?_⟩
    rw [ProcessEvent.figures, if_neg hsome]
    exact Rounding.within_div (Rounding.within_nearestFloat _)
      (Rounding.sizable_nearestFloat (Nat.pos_of_ne_zero hsome) hneed)
      (Rounding.representable_pow (by decide) (by decide))
  · exact absurd hrated (by simp)

/-- Memory events are in range. -/
theorem Told.memory (h : m.Told t c w) (hw : InWords c w) :
    ∀ e ∈ m.journal.log.memory, e.InWords := by
  intro e he
  obtain ⟨p, hp, hid⟩ := List.mem_map.mp (h.memory_known e he)
  have hearly : e.tick < word64 :=
    (Nat.le_of_lt_succ (h.before.memory_before e he)).trans_lt (h.tick_lt hw)
  have harena := hw.arena
  have hplaced := h.placing.placed e he
  rw [MemoryEvent.Placed] at hplaced
  refine ⟨hearly, hid ▸ (hw.processes p hp).id, ?_, fun x hx => ?_⟩
  · split at hplaced
    · obtain ⟨hsize, hlast, -, hinside⟩ := hplaced
      omega
    · obtain ⟨q, hq, hsize⟩ := hplaced
      exact hsize ▸ (hw.processes q hq).memory
  · rw [hx] at hplaced
    obtain ⟨-, hlast, -, hinside⟩ := hplaced
    exact ⟨by omega, by omega, by omega⟩

/-- There are no more processes than identifiers. -/
theorem size_le_word32 (hw : InWords c w) (hdistinct : (w.processes.map Process.id).Nodup) :
    w.size ≤ word32 := by
  have hids : w.processes.map Process.id ⊆ List.range word32 := by
    intro id hmem
    obtain ⟨p, hp, rfl⟩ := List.mem_map.mp hmem
    exact List.mem_range.mpr (hw.processes p hp).id
  have hlen := (List.subperm_of_subset hdistinct hids).length_le
  rwa [List.length_map, List.length_range] at hlen

/-- What has been counted is in range. -/
theorem Told.metrics (h : m.Told t c w) (hw : InWords c w)
    (hpos : ∀ p ∈ w.processes, p.runTime ≠ 0) (hdistinct : (w.processes.map Process.id).Nodup) :
    m.metrics.InWords := by
  have hsize := size_le_word32 hw hdistinct
  have hanswered := h.answered
  have hword : word32 < word64 := by decide
  refine ⟨?_, by omega, by omega, fun x hx => ?_⟩
  · rw [h.figured.ticks]
    exact h.tick_lt hw
  · rw [Metrics.weighted, h.figured.finishes] at hx
    obtain ⟨f, hf, rfl⟩ := List.mem_map.mp hx
    obtain ⟨e, he, hfinish⟩ := List.mem_filterMap.mp hf
    rw [ProcessEvent.finish?] at hfinish
    split at hfinish
    · obtain ⟨figures, hfigures, rfl⟩ := Option.map_eq_some_iff.mp hfinish
      exact ((h.process hw hpos e he).completion figures hfigures).weighted
    · exact absurd hfinish (by simp)

/-- **The report of a run is in range.** -/
theorem Told.report (h : m.Told t c w) (hw : InWords c w) (hpos : ∀ p ∈ w.processes, p.runTime ≠ 0)
    (hdistinct : (w.processes.map Process.id).Nodup) : m.report.InWords := by
  have hpolicy := hw.policy
  rw [← h.policy] at hpolicy
  exact ⟨hpolicy, (h.metrics hw hpos hdistinct).summary, h.process hw hpos, h.memory hw⟩

end Machine

namespace Simulation

open Machine

variable {m m' : Machine} {ps all : List Process} {s next : Simulation} {tick t : Tick} {c : Config}
  {w : Workload} {capacity : Nat}

theorem LetIn.placing (h : LetIn tick m ps m') (hm : m.Sound []) (hps : ∀ p ∈ ps, p ∈ all)
    (hplacing : m.Placing capacity all) : m'.Placing capacity all := by
  induction h with
  | nil m => exact hplacing
  | cons ha hsound hrest ih =>
    obtain ⟨hp, hps⟩ := List.forall_mem_cons.mp hps
    exact ih hsound hps (hplacing.arrival hm hp ha)

/-- What holds before every tick of a run whose ranges lie in the arena. -/
structure Fenced (s : Simulation) (c : Config) (w : Workload) : Prop where
  proper : s.Proper c w
  placing : s.machine.Placing c.arena w.processes

/-- The ranges after the reports and the arrivals of a tick. -/
theorem Fenced.settled (h : s.Fenced c w) {reports : List UnitReport} {m₁ m₂ : Machine}
    (hreported : Reported s.machine s.tick reports m₁) (hsound : m₁.Sound [])
    (hletIn : LetIn s.tick m₁ (due s.pending s.tick) m₂) : m₂.Placing c.arena w.processes := by
  refine hletIn.placing hsound (fun p hp => ?_)
    (h.placing.reported h.proper.underway.ongoing.sound hreported)
  exact h.proper.pending_suffix.subset ((List.takeWhile_sublist _).subset hp)

theorem Fenced.step (h : s.Fenced c w) (hnext : s.step = .running next) : next.Fenced c w := by
  have ht := step_ticked h.proper.underway.ongoing.sound
  rw [hnext] at ht
  cases ht with
  | running hreported hsound₁ hletIn hsound₂ hdone hturn =>
    exact ⟨h.proper.step hnext, (h.settled hreported hsound₁ hletIn).turn hturn⟩

/-- When nobody is left, all is known. -/
theorem Fenced.finish (h : s.Fenced c w) (hfinish : s.step = .finished m t) : m.Told s.tick c w := by
  have hcomplete := h.proper.counted.kept.finish hfinish
  obtain ⟨-, -, hanswered⟩ := h.proper.underway.finish hfinish
  have ht := step_ticked h.proper.underway.ongoing.sound
  rw [hfinish] at ht
  cases ht with
  | finished hreported hsound₁ hletIn hsound₂ hdone =>
    obtain ⟨seen, hall, hrecorded, -⟩ := h.proper.counted.kept.settled hreported hsound₁ hletIn
    obtain ⟨hobeys, -⟩ := h.proper.underway.settled hreported hsound₁ hletIn
    obtain ⟨es, ms, hnoted⟩ := hreported.noted
    obtain ⟨es', ms', hnoted'⟩ := hletIn.noted
    refine ⟨hcomplete, hrecorded.chronological, fun e he => ?_,
      h.proper.counted.figured.noted (hnoted.trans hnoted'), h.settled hreported hsound₁ hletIn,
      hobeys.policy, h.proper.underway.early, hanswered⟩
    rw [← hall, List.map_append]
    exact List.mem_append_left _ (hrecorded.chronicle.memory_known e he)

theorem start_fenced (hc : c.Valid) (hw : Workload.ofList ps = .ok w) :
    ∃ s, start c w = .ok s ∧ s.Fenced c w ∧ s.tick = 0 := by
  obtain ⟨s, hstart, hproper, htick, -⟩ := start_proper hc hw
  obtain rfl := Except.ok.inj ((start_eq hc w).symm.trans hstart)
  exact ⟨_, hstart, ⟨hproper, (Scheduler.ofConfig_eq hc w.size).2.1,
    fun _ he => absurd he List.not_mem_nil⟩, htick⟩

/-- The report of a run is in range. -/
theorem report_inWords (hc : c.Valid) (hw : Workload.ofList ps = .ok w) (hwords : InWords c w)
    {r : Report} (hr : run c w = .ok r) : r.InWords := by
  obtain ⟨-, hpos, hdistinct⟩ := Workload.ofList_ok hw
  obtain ⟨s, hstart, hs, htick⟩ := start_fenced hc hw
  obtain ⟨last, m, t, hlast, hout, -, -, rfl⟩ :=
    exists_finish (fun s next h hnext => Fenced.step h hnext) hs hs.proper.underway.ongoing hstart
      htick hr
  exact (hlast.finish hout).report hwords hpos hdistinct

/-- **The report of a run is read back from its text**, with everything as it was but for its floats,
which are finite.  It is read back as it was exactly if each float is read for what is written for
it. -/
theorem run_reloads (hc : c.Valid) (hw : Workload.ofList ps = .ok w) (hwords : InWords c w)
    {r : Report} (hr : run c w = .ok r) :
    Report.load? r.save = some r.reread ∧ (∀ x ∈ r.floats, (Literal.reread x).isFinite = true) ∧
      (Report.load? r.save = some r ↔ ∀ x ∈ r.floats, Literal.reread x = x) := by
  have hrange := report_inWords hc hw hwords hr
  have hload := Report.load?_save hrange
  refine ⟨hload, hrange.isFinite_reread, ?_⟩
  rw [hload, Option.some_inj, Report.reread_eq_iff]

/-- The report of a run of one process, whose figures are few digits long. -/
theorem run_reloads_alone :
    ∃ c ps w r, Config.Valid c ∧ Workload.ofList ps = .ok w ∧ InWords c w ∧ run c w = .ok r ∧
      r.events.floats = [nearestFloat 2 / nearestFloat 2] ∧ Report.load? r.save = some r := by
  let w : Workload := ⟨[⟨1, 0, 2, 0, 16⟩]⟩
  have hc : ({} : Config).Valid := by decide
  have hw : Workload.ofList w.processes = .ok w := Workload.ofList_of_pairwise rfl (by decide)
  have hwords : InWords {} w :=
    ⟨trivial, by decide, List.forall_mem_singleton.mpr ⟨by decide, by decide⟩, by decide⟩
  have hrun : ((run {} w).toOption.map fun r =>
      (r.events.floats, decide (∀ x ∈ r.floats, Literal.reread x = x))) =
        some ([nearestFloat 2 / nearestFloat 2], true) := by decide +kernel
  obtain ⟨r, hr, hfigures⟩ := exists_of_toOption_map hrun
  obtain ⟨-, -, hsame⟩ := run_reloads hc hw hwords hr
  obtain ⟨hfloats, hread⟩ := Prod.mk.inj hfigures
  exact ⟨_, _, w, r, hc, hw, hwords, hr, hfloats, hsame.mpr (of_decide_eq_true hread)⟩

/-- Two processes finish, one after its run time and one after `26/11` times its run time.  This
quotient is read back as another float, and so is the mean of the two. -/
theorem run_reload_differs :
    ∃ c ps w r loaded, Config.Valid c ∧ Workload.ofList ps = .ok w ∧ InWords c w ∧ run c w = .ok r ∧
      r.events.floats = [nearestFloat 15 / nearestFloat 15, nearestFloat 26 / nearestFloat 11] ∧
      Report.load? r.save = some loaded ∧
      (loaded.events.floats == r.events.floats) = false ∧
      (loaded.summary.meanWeighted == r.summary.meanWeighted) = false := by
  let w : Workload := ⟨[⟨1, 0, 15, 0, 16⟩, ⟨2, 0, 11, 1, 16⟩]⟩
  have hc : ({} : Config).Valid := by decide
  have hw : Workload.ofList w.processes = .ok w := Workload.ofList_of_pairwise rfl (by decide)
  have hwords : InWords {} w := by
    refine ⟨trivial, by decide, List.forall_mem_cons.mpr ⟨⟨by decide, by decide⟩, ?_⟩, by decide⟩
    exact List.forall_mem_singleton.mpr ⟨by decide, by decide⟩
  have hrun : ((run {} w).toOption.map fun r =>
      (r.events.floats, r.reread.events.floats == r.events.floats,
        r.reread.summary.meanWeighted == r.summary.meanWeighted)) =
      some ([nearestFloat 15 / nearestFloat 15, nearestFloat 26 / nearestFloat 11], false, false) := by
    decide +kernel
  obtain ⟨r, hr, hfigures⟩ := exists_of_toOption_map hrun
  obtain ⟨hfloats, hothers⟩ := Prod.mk.inj hfigures
  obtain ⟨hevents, hmean⟩ := Prod.mk.inj hothers
  exact ⟨_, _, w, r, r.reread, hc, hw, hwords, hr, hfloats,
    Report.load?_save (report_inWords hc hw hwords hr), hevents, hmean⟩

end Simulation
end Uniprocessor
