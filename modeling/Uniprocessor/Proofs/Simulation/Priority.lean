import Uniprocessor.Proofs.Machine.Priority
import Uniprocessor.Proofs.Simulation.Entrants
import Uniprocessor.Proofs.Simulation.Slices

/-!
# Highest priority first in a run

A run under this policy serves those who are admitted one after the other.  Who is admitted depends on
whom it has served, since that is who has given memory back; so the entrants are taken as the run has them.

* `Simulation.Preferring`: what holds before every tick;
* `Simulation.run_prefers`: **the free processor goes to the first of the least of those who have been
  admitted**, at the tick at which it becomes free if anybody waits, and to the end of its run time.
-/

namespace Uniprocessor

namespace Machine

variable {m m' : Machine} {all : List Process} {admitted : Tick → List Process} {tick f g : Tick}

/-- Those who have been admitted so far have been served, have the processor or wait, in the order of their
priority values. -/
def Ranked (m : Machine) (admitted : Tick → List Process) (f g : Tick) (all : List Process) : Prop :=
  ∃ waiting, m.Prefers admitted f g all waiting ∧ m.Standing waiting ∧ waiting.Sublist all

theorem Ranked.reported (h : m.Ranked admitted tick tick all) (hm : m.Sound []) (ht : m.Timely tick)
    {reports : List UnitReport} (hr : Reported m tick reports m') :
    m'.Ranked admitted (tick + 1) tick all := by
  obtain ⟨waiting, hprefers, hstanding, hsublist⟩ := h
  exact ⟨waiting, hprefers.reported hm ht hr, hstanding.reported hm hr, hsublist⟩

theorem Ranked.arrival (h : m.Ranked admitted f g all) (hm : m.Sound [])
    (hpolicy : m.policy = .highestPriorityFirst) {p : Process} {admission : Admission} {x : Scheduler}
    (ha : m.toScheduler.Arrival tick p (.done admission x)) :
    (m.withScheduler x).Ranked admitted f g (all ++ admission.entrant p) := by
  obtain ⟨waiting, hprefers, hstanding, hsublist⟩ := h
  exact ⟨waiting ++ admission.entrant p, hprefers.arrival hm ha, hstanding.arrival hm hpolicy ha,
    hsublist.append (List.Sublist.refl _)⟩

theorem Ranked.turn (h : m.Ranked admitted (tick + 1) tick all) (hm : m.Sound []) (ht : m.Timely f)
    (hpolicy : m.policy = .highestPriorityFirst) (hall : admitted tick = all)
    (hturn : Turn m tick m') : m'.Ranked admitted (tick + 1) (tick + 1) all := by
  obtain ⟨waiting, hprefers, hstanding, hsublist⟩ := h
  exact hprefers.turn hstanding hm ht hpolicy hall hsublist hturn

end Machine

namespace Simulation

open Machine Services

variable {m m' : Machine} {ps all : List Process} {admitted : Tick → List Process} {s s₀ : Simulation}
  {tick f g latest t : Tick} {total : Nat} {c : Config} {w : Workload}

theorem LetIn.ranked (h : LetIn tick m ps m') (hm : m.Sound [])
    (hpolicy : m.policy = .highestPriorityFirst) (hranked : m.Ranked admitted f g all) :
    m'.Ranked admitted f g (all ++ m.entrants tick ps) := by
  induction h generalizing all with
  | nil m => exact (List.append_nil all).symm ▸ hranked
  | @cons m m' p ps admission x ha hsound hrest ih =>
    have hpolicy' : x.policy = .highestPriorityFirst := by cases ha <;> exact hpolicy
    rw [entrants_cons ha, ← List.append_assoc]
    exact ih hsound hpolicy' (hranked.arrival hm hpolicy ha)

/-- What holds before every tick of a run under highest priority first. -/
structure Preferring (s₀ s : Simulation) (latest : Tick) (total : Nat) : Prop where
  ongoing : s.Ongoing latest total
  reached : runFor s.tick s₀ = .running s
  policy : s.machine.policy = .highestPriorityFirst
  ranked : s.machine.Ranked (fun t => s₀.admitted (t + 1)) s.tick s.tick (s₀.admitted s.tick)

/-- When the arrivals of a tick have been answered. -/
theorem Preferring.settled (h : Preferring s₀ s latest total) (hsettle : s.settle = .done () m) :
    m.policy = .highestPriorityFirst ∧ m.Timely (s.tick + 1) ∧
      m.Ranked (fun t => s₀.admitted (t + 1)) (s.tick + 1) s.tick (s₀.admitted (s.tick + 1)) := by
  obtain ⟨m₁, hdeliver, hreported, hsound₁, hletIn⟩ := delivered_of_settle h.ongoing.sound hsettle
  have hpolicy₁ := hreported.policy_eq.trans h.policy
  refine ⟨hletIn.policy_eq.trans hpolicy₁,
    hletIn.timely hsound₁ (h.ongoing.timely.reported h.ongoing.sound hreported), ?_⟩
  rw [admitted_succ, entrants_of_deliver h.reached hdeliver]
  exact hletIn.ranked hsound₁ hpolicy₁
    (h.ranked.reported h.ongoing.sound h.ongoing.timely hreported)

theorem Preferring.step (h : Preferring s₀ s latest total) {next : Simulation}
    (hnext : s.step = .running next) : Preferring s₀ next latest total := by
  have ht := step_ticked h.ongoing.sound
  rw [hnext] at ht
  refine ⟨(h.ongoing.step ht).1, reached_step h.reached hnext, ?_, ?_⟩
  · cases ht with
    | running _ _ _ _ _ _ _ hrun hsettle =>
      exact (runTick_counted hrun).1.trans (h.settled hsettle).1
  · cases ht with
    | running _ _ _ hsound₂ hdone hturn hsound₃ hrun hsettle =>
      obtain ⟨hpolicy, htimely, hranked⟩ := h.settled hsettle
      exact hranked.turn hsound₂ htimely hpolicy rfl hturn

/-- **When nobody is left, everybody has been served who was admitted.** -/
theorem Preferring.finish (h : Preferring s₀ s latest total) (hover : s.step = .finished m t) :
    ∃ served, m.journal.log.outline = Services.outline served ∧
      Prioritized (fun t => s₀.admitted (t + 1)) served ∧
      (served.map Prod.fst).Perm (s₀.admitted (s.tick + 1)) := by
  obtain ⟨hsound, hlive, -⟩ := h.ongoing.nobody_left hover
  have hcleared := hsound.cleared hlive
  have ht := step_ticked h.ongoing.sound
  rw [hover] at ht
  cases ht with
  | finished hreported hsound₁ hletIn hsound₂ hdone hsettle =>
    obtain ⟨-, -, waiting, hprefers, hstanding, -⟩ := h.settled hsettle
    obtain rfl := hstanding.eq_nil (hsound.toList_ready_eq_nil hlive)
    cases hprefers with
    | idle served hrun houtline hserved hall =>
      rw [List.append_nil] at hall
      exact ⟨served, houtline, hserved, hall⟩
    | busy served p start slot b hrun =>
      exact absurd (hrun.symm.trans hcleared.running) (by simp)

theorem start_preferring (hc : c.Valid) (hpolicy : c.policy = .highestPriorityFirst) (w : Workload) :
    ∃ s₀, start c w = .ok s₀ ∧ Preferring s₀ s₀ (latestArrival w) (totalRunTime w) ∧ s₀.tick = 0 := by
  obtain ⟨s₀, hstart, hongoing, -, htick, -⟩ := start_ongoing hc w
  obtain rfl := Except.ok.inj ((start_eq hc w).symm.trans hstart)
  have hheap : c.policy.usesHeap = true := by
    rw [hpolicy]
    rfl
  have hholds := ReadyQueue.holds_ofPolicy hheap c.readyCapacity
  refine ⟨_, hstart, ⟨hongoing, rfl, hpolicy, [], ?_, ⟨[], hholds, ?_, rfl⟩, List.nil_sublist _⟩, rfl⟩
  · exact .idle [] rfl rfl (prioritized_nil _) (List.Perm.refl _) (Nat.le_refl 0) fun t _ ht =>
      absurd ht (Nat.not_lt_zero t)
  · exact fun x hx => absurd hx List.not_mem_nil

/-- **The free processor goes to the first of the least.**  A run under highest priority first is a
sequence of services that do not overlap: nobody is stopped or resumed, everybody finishes when they have
had their run time, and all are served who are admitted.  Each of them starts at the first tick at which
the processor is free and anybody is left to be served; and of those who have been admitted by then and not
been served, no one's priority value is less, nor as little if they have been admitted before. -/
theorem run_prefers (hpolicy : c.policy = .highestPriorityFirst) {r : Report} (hr : run c w = .ok r) :
    (∀ e ∈ r.events.process, e.kind ≠ .stopped ∧ e.kind ≠ .resumed) ∧
    ∃ s₀ served, start c w = .ok s₀ ∧ r.events.outline = Services.outline served ∧
      (served.Pairwise fun x y => x.2 + x.1.runTime ≤ y.2) ∧
      Prioritized (fun tick => s₀.admitted (tick + 1)) served ∧
      (∀ tick, r.events.admittedAt tick = (s₀.entrants tick).map Process.id) ∧
      ∃ n, (served.map Prod.fst).Perm (s₀.admitted n) ∧ ∀ tick, n ≤ tick → s₀.entrants tick = [] := by
  obtain ⟨s₀, hstart, hpreferring, htick⟩ := start_preferring (valid_of_run hr) hpolicy w
  have hstep : ∀ s next, Preferring s₀ s (latestArrival w) (totalRunTime w) →
      s.step = .running next → Preferring s₀ next (latestArrival w) (totalRunTime w) :=
    fun s next hs hnext => hs.step hnext
  obtain ⟨last, m, t, hlast, hout, hend, -, rfl⟩ :=
    exists_finish hstep hpreferring hpreferring.ongoing hstart htick hr
  obtain ⟨served, houtline, hserved, hall⟩ := hlast.finish hout
  refine ⟨fun e he => ?_, s₀, served, hstart, houtline, hserved.pairwise, hserved,
    run_entrants hstart hr, last.tick + 1, hall, fun tick => entrants_of_finished hend⟩
  have hmem : e.outline ∈ Services.outline served :=
    houtline ▸ List.mem_map_of_mem (f := ProcessEvent.outline) he
  rcases Services.kind_of_mem_outline hmem with hkind | hkind
  · have hstarted : e.kind = .started := hkind
    rw [hstarted]
    exact ⟨by simp, by simp⟩
  · have hfinished : e.kind = .finished := hkind
    rw [hfinished]
    exact ⟨by simp, by simp⟩

/-- Three processes come while a first one runs, two of them with the same priority value; the one with
the least value goes next, and the other two in the order in which they have come. -/
theorem run_prefers_four :
    ∃ (c : Config) (w : Workload) (r : Report), c.policy = .highestPriorityFirst ∧ run c w = .ok r ∧
      r.events.outline = [(.started, 1, 0), (.finished, 1, 4), (.started, 4, 4), (.finished, 4, 5),
        (.started, 2, 5), (.finished, 2, 7), (.started, 3, 7), (.finished, 3, 10)] ∧
      (∀ e ∈ r.events.process, e.kind ≠ .stopped ∧ e.kind ≠ .resumed) ∧
      ∃ s₀ served, start c w = .ok s₀ ∧ r.events.outline = Services.outline served ∧
        Prioritized (fun tick => s₀.admitted (tick + 1)) served := by
  let c : Config := { policy := .highestPriorityFirst }
  let w : Workload := ⟨[⟨1, 0, 4, 9, 10⟩, ⟨2, 1, 2, 5, 10⟩, ⟨3, 2, 3, 5, 10⟩, ⟨4, 3, 1, 2, 10⟩]⟩
  have hrun : ((run c w).toOption.map fun r => r.events.outline) =
      some [(.started, 1, 0), (.finished, 1, 4), (.started, 4, 4), (.finished, 4, 5),
        (.started, 2, 5), (.finished, 2, 7), (.started, 3, 7), (.finished, 3, 10)] := by
    decide +kernel
  obtain ⟨r, hr, houtline⟩ := exists_of_toOption_map hrun
  obtain ⟨hnone, s₀, served, hstart, hserved, -, hprioritized, -⟩ := run_prefers (c := c) rfl hr
  exact ⟨c, w, r, rfl, hr, houtline, hnone, s₀, served, hstart, hserved, hprioritized⟩

end Simulation
end Uniprocessor
