import Uniprocessor.Proofs.Machine.Slices
import Uniprocessor.Proofs.Simulation.Figures
import Uniprocessor.Proofs.Simulation.Outcome
import Uniprocessor.Proofs.Simulation.Proper

/-!
# Slices of a run

A tick is contended if somebody waits when its finishes and arrivals are over.  What is contended
depends on who gets the processor, and who gets it depends on what is contended; but a run settles one
tick after the other.  So the ticks are taken as the run has them, and the machine is compared with
them as it goes on.

* `Simulation.contended`: the contended ticks of a run;
* `Simulation.Slicing`: what holds before every tick;
* `Simulation.run_slices`: **a process has the processor until it has had its quantum of contended ticks,
  or has finished, and whoever follows it has a full quantum.**
-/

namespace Uniprocessor
namespace Simulation

open Machine

variable {m m' : Machine} {ps : List Process} {s s₀ : Simulation} {tick latest : Tick}
  {total quantum : Nat} {c : Config} {w : Workload}

/-- Whether somebody waits for the processor at a tick of a run, once its finishes and arrivals are
over. -/
def contended (s₀ : Simulation) (tick : Tick) : Bool :=
  match runFor tick s₀ with
  | .running s => !s.settle.state.ready.isEmpty
  | _ => false

theorem contended_of_settle (hreached : runFor s.tick s₀ = .running s) (hsettle : s.settle = .done () m) :
    s₀.contended s.tick = !m.ready.isEmpty := by
  rw [Simulation.contended, hreached]
  simp only []
  rw [hsettle]
  rfl

theorem LetIn.sliced (h : LetIn tick m ps m') (hm : m.Sound []) {contended : Tick → Bool} {f : Tick}
    (hsliced : m.Sliced contended quantum f) : m'.Sliced contended quantum f := by
  induction h with
  | nil m => exact hsliced
  | cons ha hsound hrest ih => exact ih hsound (hsliced.arrival hm ha)

/-- What holds before every tick of a run under round robin. -/
structure Slicing (s₀ s : Simulation) (quantum : Nat) (latest : Tick) (total : Nat) : Prop where
  ongoing : s.Ongoing latest total
  reached : runFor s.tick s₀ = .running s
  policy : s.machine.policy = .roundRobin quantum
  chronological : s.machine.journal.log.Chronological s.tick
  sliced : s.machine.Sliced s₀.contended quantum s.tick

/-- When the reports and the arrivals of a tick have been taken, nobody's slice has been touched. -/
theorem Slicing.settled (h : Slicing s₀ s quantum latest total) {reports : List UnitReport}
    {m₁ m₂ : Machine} (hreported : Reported s.machine s.tick reports m₁) (hsound₁ : m₁.Sound [])
    (hletIn : LetIn s.tick m₁ (due s.pending s.tick) m₂) :
    m₂.policy = .roundRobin quantum ∧ m₂.journal.log.Chronological (s.tick + 1) ∧
      m₂.Sliced s₀.contended quantum s.tick := by
  obtain ⟨es, ms, hnoted⟩ := hreported.noted
  obtain ⟨es', ms', hnoted'⟩ := hletIn.noted
  have hboth := hnoted.trans hnoted'
  refine ⟨hletIn.policy_eq.trans (hreported.policy_eq.trans h.policy), ?_,
    hletIn.sliced hsound₁ (h.sliced.reported h.ongoing.sound hreported)⟩
  rw [hboth.log]
  exact (h.chronological.mono (Nat.le_succ _)).extend hboth.process_tick hboth.memory_tick

theorem Slicing.step (h : Slicing s₀ s quantum latest total) (hquantum : 0 < quantum)
    {next : Simulation} (hnext : s.step = .running next) : Slicing s₀ next quantum latest total := by
  have ht := step_ticked h.ongoing.sound
  rw [hnext] at ht
  obtain ⟨hongoing, -, -⟩ := h.ongoing.step ht
  have hreached := reached_step h.reached hnext
  cases ht with
  | @running reports m₁ m₂ m₃ hreported hsound₁ hletIn hsound₂ hdone hturn hsound₃ hrun hsettle =>
    obtain ⟨hpolicy, hchronological, hsliced⟩ := h.settled hreported hsound₁ hletIn
    obtain ⟨es, hlog, hes⟩ := hturn.log
    refine ⟨hongoing, hreached, ?_, ?_, ?_⟩
    · exact ((runTick_counted hrun).1).trans hpolicy
    · show m₃.journal.log.Chronological (s.tick + 1)
      rw [hlog]
      exact hchronological.extend (fun e he => (hes e he).1) fun e he => absurd he List.not_mem_nil
    · exact hsliced.turn hsound₂ hpolicy hquantum (contended_of_settle h.reached hsettle) hturn

/-- **When nobody is left, every slice has ended as it may.** -/
theorem Slicing.finish (h : Slicing s₀ s quantum latest total) {t : Tick}
    (hfinish : s.step = .finished m t) :
    Answered (Slice s₀.contended quantum) m.journal.log.process none ∧
      m.journal.log.process.Pairwise fun d e => d.tick ≤ e.tick := by
  obtain ⟨hsound, hlive, -⟩ := h.ongoing.nobody_left hfinish
  have hcleared := hsound.cleared hlive
  have ht := step_ticked h.ongoing.sound
  rw [hfinish] at ht
  cases ht with
  | finished hreported hsound₁ hletIn hsound₂ hdone =>
    obtain ⟨-, hchronological, hsliced⟩ := h.settled hreported hsound₁ hletIn
    refine ⟨?_, hchronological.process_sorted⟩
    cases hsliced with
    | idle hidle hanswered => exact hanswered
    | busy d hrunning =>
      exact absurd ((current?_of_idle hcleared.running).symm.trans hrunning) (by simp)

theorem start_slicing (hc : c.Valid) (hpolicy : c.policy = .roundRobin quantum) (w : Workload) :
    ∃ s₀, start c w = .ok s₀ ∧ Slicing s₀ s₀ quantum (latestArrival w) (totalRunTime w) ∧
      s₀.tick = 0 := by
  obtain ⟨s₀, hstart, hongoing, -, htick, -, hjournal, hidle⟩ := start_ongoing hc w
  obtain rfl := Except.ok.inj ((start_eq hc w).symm.trans hstart)
  exact ⟨_, hstart, ⟨hongoing, rfl, hpolicy, EventLog.chronological_empty _,
    .idle (current?_of_idle rfl) .nil⟩, rfl⟩

/-- Nothing is run with settings that have a fault. -/
theorem valid_of_run {r : Report} (hr : run c w = .ok r) : c.Valid := by
  cases hfinish : finish c w with
  | error e =>
    rw [run, hfinish] at hr
    exact absurd hr (by simp)
  | ok x =>
    obtain ⟨s, hstart, -⟩ := ok_of_map hfinish
    exact valid_of_start hstart

/-- Settings without a fault leave the processor to everybody for a while. -/
theorem quantum_pos (hc : c.Valid) (hpolicy : c.policy = .roundRobin quantum) : 0 < quantum := by
  refine Nat.pos_of_ne_zero fun hzero => ?_
  rw [hzero] at hpolicy
  rw [Config.Valid, Config.fault?, if_pos hpolicy] at hc
  exact absurd hc (by simp)

/-- **A process has the processor until it has had its quantum of contended ticks, or has finished.**
The event after a dispatch is about the same process.  If the process has no finish up to the tick with
which its quantum is used up, then it is stopped at that tick; and if there is no such tick, or it has
finished by then, then its next event is its finish.  After every tick that leaves the processor
taken, the counter and the contended ticks since the dispatch make up the quantum, and the counter is
not zero. -/
theorem run_slices (hpolicy : c.policy = .roundRobin quantum) {r : Report} (hr : run c w = .ok r) :
    ∃ s₀, start c w = .ok s₀ ∧
      (∀ before d after, r.events.process = before ++ d :: after → d.kind.dispatches = true →
        ∃ e rest, after = e :: rest ∧ e.process = d.process ∧ d.tick < e.tick ∧
          (∀ t, UsesUp s₀.contended quantum d.tick t →
            (∀ f ∈ after, f.process = d.process → f.kind = .finished → t < f.tick) →
            e.kind = .stopped ∧ e.tick = t) ∧
          ((∀ t, UsesUp s₀.contended quantum d.tick t →
            ∃ f ∈ after, f.process = d.process ∧ f.kind = .finished ∧ f.tick ≤ t) →
            e.kind = .finished)) ∧
      ∀ tick s, runFor (tick + 1) s₀ = .running s → s.machine.running ≠ none →
        1 ≤ s.machine.sliceLeft ∧ s.machine.sliceLeft ≤ quantum ∧
        ∃ before d, s.machine.journal.log.process = before ++ [d] ∧ d.kind.dispatches = true ∧
          s.machine.runningBlock?.map ControlBlock.id = some d.process ∧
          s.machine.sliceLeft + contention s₀.contended d.tick tick = quantum := by
  have hc := valid_of_run hr
  have hquantum := quantum_pos hc hpolicy
  obtain ⟨s₀, hstart, hslicing, htick⟩ := start_slicing hc hpolicy w
  have hstep : ∀ s next, Slicing s₀ s quantum (latestArrival w) (totalRunTime w) →
      s.step = .running next → Slicing s₀ next quantum (latestArrival w) (totalRunTime w) :=
    fun s next hs hnext => hs.step hquantum hnext
  refine ⟨s₀, hstart, fun before d after hes hd => ?_, fun tick s hreached hrun => ?_⟩
  · obtain ⟨last, m, t, hlast, hout, -, -, rfl⟩ :=
      exists_finish hstep hslicing hslicing.ongoing hstart htick hr
    obtain ⟨hanswered, hsorted⟩ := hlast.finish hout
    exact hanswered.slices hsorted hes hd
  · have hs : Slicing s₀ s quantum (latestArrival w) (totalRunTime w) := by
      rcases runFor_induction hstep hslicing (tick + 1) with ⟨last, -, -, hover⟩ | ⟨s', hs', hrun'⟩
      · exact absurd hreached (hover s)
      · exact TickOutcome.running.inj (hreached.symm.trans hrun') ▸ hs'
    have hnow : s.tick = tick + 1 := by rw [tick_of_runFor hreached, htick, Nat.zero_add]
    obtain ⟨slot, hslot⟩ := Option.ne_none_iff_exists'.mp hrun
    obtain ⟨b, hb⟩ := hs.ongoing.sound.scheduler.running_live hslot
    cases hs.sliced with
    | idle hidle => exact absurd (hidle.symm.trans (current?_of_running hslot hb)) (by simp)
    | busy d hcurrent hanswered htime hleft hspent =>
      obtain ⟨before, hlog, hd⟩ := hanswered.last
      rw [hnow, Nat.add_sub_cancel] at hspent
      exact ⟨hleft, hspent ▸ Nat.le_add_right _ _, before, d, hlog, hd, hcurrent, hspent⟩

/-- Two processes take turns of two contended ticks, and a third one comes when they have gone.  The
first one is stopped where its first slice is used up; it finishes with the tick that would have used
up its second one, and its successor begins a slice of its own. -/
theorem run_slices_three :
    ∃ (c : Config) (w : Workload) (r : Report) (s₀ : Simulation),
      c.policy = .roundRobin 2 ∧ run c w = .ok r ∧ start c w = .ok s₀ ∧
      (r.events.process.map fun e => (e.tick, e.process, e.kind)) =
        [(0, 1, .started), (2, 1, .stopped), (2, 2, .started), (4, 2, .stopped), (4, 1, .resumed),
          (6, 1, .finished), (6, 2, .resumed), (7, 2, .finished), (20, 3, .started),
          (21, 3, .finished)] ∧
      UsesUp s₀.contended 2 0 2 ∧ UsesUp s₀.contended 2 4 6 ∧
      ∃ d e rest, r.events.process = d :: e :: rest ∧ e.kind = .stopped ∧ e.tick = 2 := by
  let c : Config := { policy := .roundRobin 2 }
  let w : Workload := ⟨[⟨1, 0, 4, 0, 10⟩, ⟨2, 1, 3, 0, 10⟩, ⟨3, 20, 1, 0, 10⟩]⟩
  have hrun : ((run c w).toOption.map fun r =>
      r.events.process.map fun e => (e.tick, e.process, e.kind)) =
        some [(0, 1, .started), (2, 1, .stopped), (2, 2, .started), (4, 2, .stopped),
          (4, 1, .resumed), (6, 1, .finished), (6, 2, .resumed), (7, 2, .finished),
          (20, 3, .started), (21, 3, .finished)] := by decide +kernel
  obtain ⟨r, hr, hevents⟩ := exists_of_toOption_map hrun
  obtain ⟨s₀, hstart, hslices, -⟩ := run_slices (c := c) rfl hr
  obtain rfl := Except.ok.inj ((start_eq (by decide : c.Valid) w).symm.trans hstart)
  have hused : UsesUp (Simulation.contended ⟨.fresh c w.size, w.processes, 0⟩) 2 0 2 :=
    ⟨by decide, by decide +kernel, by decide +kernel⟩
  have hused' : UsesUp (Simulation.contended ⟨.fresh c w.size, w.processes, 0⟩) 2 4 6 :=
    ⟨by decide, by decide +kernel, by decide +kernel⟩
  obtain ⟨d, after, hlog, hd, hafter⟩ := List.map_eq_cons_iff.mp hevents
  obtain ⟨hdtick, hdprocess, hdkind⟩ : d.tick = 0 ∧ d.process = 1 ∧ d.kind = .started := by
    simpa using hd
  obtain ⟨e, rest, rfl, -, -, hstopped, -⟩ := hslices [] d after hlog (by rw [hdkind]; rfl)
  have hunfinished : ∀ f ∈ e :: rest, f.process = d.process → f.kind = .finished → 2 < f.tick := by
    intro f hf hprocess hkind
    have hmem := List.mem_map_of_mem (f := fun e : ProcessEvent => (e.tick, e.process, e.kind)) hf
    rw [hafter, hprocess, hdprocess, hkind] at hmem
    have htick : f.tick = 6 := by simpa using hmem
    rw [htick]
    decide
  obtain ⟨hekind, hetick⟩ := hstopped 2 (hdtick ▸ hused) hunfinished
  exact ⟨c, w, r, _, rfl, hr, hstart, hevents, hused, hused', d, e, rest, hlog, hekind, hetick⟩

end Simulation
end Uniprocessor
