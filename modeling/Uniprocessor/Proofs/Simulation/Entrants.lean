import Uniprocessor.Proofs.Machine.Entrants
import Uniprocessor.Proofs.Simulation.Accounts

/-!
# The entrants of a run

Who is admitted at a tick of a run depends on the memory that the processes before have left, and so
on the policy.  So the entrants are taken as the run has them.  The log tells of them, in the order in
which they have come and with the tick.

* `Simulation.entrants`: who is admitted at a tick of a run;
* `Simulation.Entering`: the log tells of the entrants of all ticks before;
* `Simulation.run_entrances`, `run_entrants`: **in the end it tells of all**, tick by tick.
-/

namespace Uniprocessor
namespace Simulation

open Machine

variable {m m' : Machine} {ps : List Process} {s s₀ : Simulation} {tick latest : Tick}
  {total n : Nat} {c : Config} {w : Workload}

/-- Who is admitted at a tick of a run, in this order. -/
def entrants (s₀ : Simulation) (tick : Tick) : List Process :=
  match runFor tick s₀ with
  | .running s =>
    (deliver (s.machine.advance s.tick).2 (s.machine.advance s.tick).1).state.entrants s.tick
      (due s.pending s.tick)
  | _ => []

theorem entrants_of_deliver (hreached : runFor s.tick s₀ = .running s)
    (hdeliver : deliver (s.machine.advance s.tick).2 (s.machine.advance s.tick).1 = .done () m) :
    s₀.entrants s.tick = m.entrants s.tick (due s.pending s.tick) := by
  rw [Simulation.entrants, hreached]
  simp only []
  rw [hdeliver]
  rfl

/-- A machine has as many processes to log as entrants, where arrivals are answered. -/
theorem LetIn.entrances (h : LetIn tick m ps m') : m'.journal.log.entrances =
    m.journal.log.entrances ++ (m.entrants tick ps).map fun p => (tick, p.id) := by
  induction h with
  | nil m => exact (List.append_nil _).symm
  | cons ha hsound hrest ih =>
    rw [ih, entrants_cons ha, List.map_append, ← List.append_assoc]
    exact congrArg (· ++ _) (entrances_arrival ha)

/-- Arrivals do nothing to a process. -/
theorem LetIn.process_eq (h : LetIn tick m ps m') :
    m'.journal.log.process = m.journal.log.process := by
  induction h with
  | nil m => rfl
  | cons ha hsound hrest ih => exact ih.trans (process_arrival ha)

/-- Who is admitted in the first ticks of a run, in this order. -/
def admitted (s₀ : Simulation) (n : Nat) : List Process :=
  (List.range n).flatMap s₀.entrants

theorem admitted_succ (s₀ : Simulation) (n : Nat) :
    s₀.admitted (n + 1) = s₀.admitted n ++ s₀.entrants n := by
  rw [admitted, List.range_succ, List.flatMap_append, List.flatMap_singleton, ← admitted]

/-- What the log has to tell of the entrants of the first ticks. -/
def entrances (s₀ : Simulation) (n : Nat) : List (Tick × Nat) :=
  (List.range n).flatMap fun tick => (s₀.entrants tick).map fun p => (tick, p.id)

theorem entrances_succ (s₀ : Simulation) (n : Nat) :
    s₀.entrances (n + 1) = s₀.entrances n ++ (s₀.entrants n).map fun p => (n, p.id) := by
  rw [entrances, List.range_succ, List.flatMap_append, List.flatMap_singleton, ← entrances]

/-- What is told of one tick is told of no other one. -/
theorem filter_told (ps : List Process) (t tick : Tick) :
    (ps.map fun p => (t, p.id)).filter (fun x => x.1 = tick) =
      if t = tick then ps.map fun p => (t, p.id) else [] := by
  split
  · exact List.filter_eq_self.mpr (List.forall_mem_map.mpr fun p _ => decide_eq_true ‹_›)
  · exact List.filter_eq_nil_iff.mpr
      (List.forall_mem_map.mpr fun p _ h => absurd (of_decide_eq_true h) ‹_›)

theorem filter_entrances_of_le (s₀ : Simulation) (hle : n ≤ tick) :
    (s₀.entrances n).filter (fun x => x.1 = tick) = [] := by
  induction n with
  | zero => rfl
  | succ n ih =>
    rw [entrances_succ, List.filter_append, ih (Nat.le_of_succ_le hle), filter_told,
      if_neg (Nat.ne_of_lt hle)]
    rfl

theorem filter_entrances_of_lt (s₀ : Simulation) (hlt : tick < n) :
    (s₀.entrances n).filter (fun x => x.1 = tick) = (s₀.entrants tick).map fun p => (tick, p.id) := by
  induction n, hlt using Nat.le_induction with
  | base =>
    rw [entrances_succ, List.filter_append, filter_entrances_of_le s₀ le_rfl, filter_told,
      if_pos rfl, List.nil_append]
  | succ n hlt ih =>
    rw [entrances_succ, List.filter_append, filter_told, if_neg (Nat.ne_of_gt hlt), List.append_nil, ih]

/-- When the arrivals of a tick have been answered, the log tells of them. -/
theorem entrances_of_settle (hm : s.machine.Sound []) (hreached : runFor s.tick s₀ = .running s)
    (hlog : s.machine.journal.log.entrances = s₀.entrances s.tick) (hsettle : s.settle = .done () m) :
    m.journal.log.entrances = s₀.entrances (s.tick + 1) := by
  obtain ⟨m₁, hdeliver, hreported, -, hletIn⟩ := delivered_of_settle hm hsettle
  rw [hletIn.entrances, hreported.entrances, hlog, ← entrants_of_deliver hreached hdeliver,
    entrances_succ]

/-- A run whose log tells of the entrants of all ticks before. -/
structure Entering (s₀ s : Simulation) (latest : Tick) (total : Nat) : Prop where
  ongoing : s.Ongoing latest total
  reached : runFor s.tick s₀ = .running s
  told : s.machine.journal.log.entrances = s₀.entrances s.tick

theorem Entering.step (h : Entering s₀ s latest total) {next : Simulation}
    (hnext : s.step = .running next) : Entering s₀ next latest total := by
  have ht := step_ticked h.ongoing.sound
  rw [hnext] at ht
  refine ⟨(h.ongoing.step ht).1, reached_step h.reached hnext, ?_⟩
  cases ht with
  | running hreported hsound₁ hletIn hsound₂ hdone hturn hsound₃ hrun hsettle =>
    exact hturn.entrances.trans (entrances_of_settle h.ongoing.sound h.reached h.told hsettle)

theorem start_entering (hc : c.Valid) (w : Workload) :
    ∃ s₀, start c w = .ok s₀ ∧ Entering s₀ s₀ (latestArrival w) (totalRunTime w) ∧ s₀.tick = 0 := by
  obtain ⟨s₀, hstart, hongoing, -, htick, -, hjournal, -⟩ := start_ongoing hc w
  refine ⟨s₀, hstart, ⟨hongoing, htick ▸ rfl, ?_⟩, htick⟩
  rw [hjournal, htick]
  rfl

/-- Nobody enters after the last tick. -/
theorem entrants_of_finished {t : Tick} (hend : runFor n s₀ = .finished m t) (hle : n ≤ tick) :
    s₀.entrants tick = [] := by
  have hover : ∀ next, runFor n s₀ ≠ .running next := by simp [hend]
  rw [Simulation.entrants, runFor_of_le hover hle, hend]

/-- **The log of a whole run tells of the entrants of all ticks.** -/
theorem run_entrances (hstart : start c w = .ok s₀) {r : Report} (hr : run c w = .ok r) :
    ∃ n, r.events.entrances = s₀.entrances (n + 1) ∧ ∀ tick, n < tick → s₀.entrants tick = [] := by
  obtain ⟨s₀', hstart', hentering, htick⟩ := start_entering (valid_of_start hstart) w
  obtain rfl : s₀ = s₀' := Except.ok.inj (hstart.symm.trans hstart')
  have hstep : ∀ s next, Entering s₀ s (latestArrival w) (totalRunTime w) → s.step = .running next →
      Entering s₀ next (latestArrival w) (totalRunTime w) := fun _ _ hs hnext => hs.step hnext
  obtain ⟨last, m, t, hlast, hout, hend, -, rfl⟩ :=
    exists_finish hstep hentering hentering.ongoing hstart htick hr
  refine ⟨last.tick, ?_, fun tick hlt => ?_⟩
  · have ht := step_ticked hlast.ongoing.sound
    rw [hout] at ht
    cases ht with
    | finished hreported hsound₁ hletIn hsound₂ hdone hsettle =>
      exact entrances_of_settle hlast.ongoing.sound hlast.reached hlast.told hsettle
  · exact entrants_of_finished hend (Nat.succ_le_of_lt hlt)

/-- Whoever is logged as admitted at a tick has entered at that tick, in this order. -/
theorem run_entrants (hstart : start c w = .ok s₀) {r : Report} (hr : run c w = .ok r) (tick : Tick) :
    r.events.admittedAt tick = (s₀.entrants tick).map Process.id := by
  obtain ⟨n, htold, hnone⟩ := run_entrances hstart hr
  rw [EventLog.admittedAt, htold]
  rcases Nat.lt_or_ge n tick with hlt | hle
  · rw [filter_entrances_of_le s₀ hlt, hnone tick hlt]
    rfl
  · rw [filter_entrances_of_lt s₀ (Nat.lt_succ_of_le hle), List.map_map]
    rfl

end Simulation
end Uniprocessor
