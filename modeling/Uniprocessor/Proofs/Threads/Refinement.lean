import Mathlib.Logic.Relation
import Uniprocessor.Proofs.Threads.Passage
import Uniprocessor.Threads.Run

/-!
# Runs on threads are lockstep runs

The parties of a run on threads make their steps in any order, and still there is only one thing that
can come of it.  Wherever such a run stands, it stands at a tick of the lockstep run of the same
workload, or between two ticks of it (`System.Follows`); so what the scheduler returns is what the
lockstep run comes to, and it does not get stuck before that.

The lockstep run is not bounded by its horizon here but goes on as far as the run on threads does.
That it is the run that `Simulation.run` cuts off at the horizon is due to `runFor_horizon_ne`.

* `System.Step`: a step of any party that need not wait;
* `System.Agrees`: what a run on threads has to do with the lockstep run;
* `System.agrees_of_steps`: **in every order of steps, a run on threads agrees with the lockstep
  run.**
-/

namespace Uniprocessor

namespace System

variable {c : Config} {w : Workload} {σ σ₀ : Simulation} {s s₀ : System}

/-- Some party that need not wait has made a step. -/
def Step (s s' : System) : Prop :=
  ∃ party, s.step? party = some s'

/-- At the start both runs are before the arrivals of the first tick. -/
theorem start_within (h : Simulation.start c w = .ok σ) :
    ∃ s, start c w = .ok s ∧ Within σ s w.processes := by
  obtain ⟨m, hm, rfl⟩ := ok_of_map h
  obtain ⟨scheduler, hscheduler, rfl⟩ := ok_of_map hm
  obtain ⟨hopen, -⟩ := Clock.open_subscribe (show Clock.start.stopped = false from rfl)
  have hsane : (Generator.start w .start).1.Sane := fun result hresult =>
    absurd (show none = some result from hresult) (by simp)
  have hunsettled : ∀ k, (Generator.start w .start).2.settled = some k → k < 0 := fun k hk =>
    absurd (show none = some k from hk) (by simp)
  rw [start, hscheduler]
  exact ⟨_, rfl, rfl, ⟨Crew.orderly_ofClock rfl,
    ⟨hopen.lt, List.not_mem_nil⟩, hopen, hsane⟩, ⟨rfl, rfl, hunsettled⟩,
    ⟨fun hphase => absurd hphase (by simp), fun _ => rfl⟩, Generator.supplies_start w, rfl, rfl⟩

/-- The lockstep run has come to a tick, and the run on threads follows it there. -/
inductive Accompanied (σ₀ : Simulation) (latest : Tick) (total : Nat) (s : System) : Prop
  | intro (σ : Simulation) (n : Nat) (hrun : σ₀.runFor n = .running σ)
      (hongoing : σ.Ongoing latest total) (hfollows : Follows σ s)

variable {latest : Tick} {total : Nat}

/-- **No step of any party leaves the lockstep run.** -/
theorem Accompanied.step {s' : System} (h : Accompanied σ₀ latest total s) (hstep : Step s s') :
    Accompanied σ₀ latest total s' := by
  obtain ⟨σ, n, hrun, hongoing, hfollows⟩ := h
  obtain ⟨party, hparty⟩ := hstep
  obtain ⟨σ', rfl | hσ', hfollows'⟩ := hfollows.step hongoing.sound hongoing.timely hparty
  · exact ⟨σ', n, hrun, hongoing, hfollows'⟩
  · exact ⟨σ', n + 1, (Simulation.runFor_succ_of_running hrun).trans hσ',
      (hongoing.step (hσ' ▸ Simulation.step_ticked hongoing.sound)).1, hfollows'⟩

/-- What the scheduler has returned is what comes of the lockstep run. -/
theorem Accompanied.result (h : Accompanied σ₀ latest total s) {result : Except Failure Unit}
    (hreturned : s.result? = some result) :
    ∃ n, (∀ next, σ₀.runFor n ≠ .running next) ∧
      (σ₀.runFor n).result = result.map fun () => s.scheduler.report := by
  obtain ⟨σ, n, hrun, -, hfollows⟩ := h
  refine ⟨n + 1, ?_⟩
  rw [Simulation.runFor_succ_of_running hrun, Simulation.step_eq_conclude,
    hfollows.returned hreturned]
  cases result with
  | ok _ => exact ⟨by simp [Simulation.conclude, Except.map], rfl⟩
  | error e => exact ⟨by simp [Simulation.conclude, Except.map], rfl⟩

/-- The generator has not failed. -/
theorem Follows.sane (h : Follows σ s) : s.generator.Sane := by
  cases h with
  | within h =>
    obtain ⟨ps, h⟩ := h
    exact h.kept.sane
  | settled h => exact h.kept.sane
  | moved h => exact h.kept.sane

/-- What a run on threads has to do with the lockstep run of the same workload: until it is over some
party can make a step; once it is over it has the same report, or has been refused for the same
reason; and the generator does not fail. -/
structure Agrees (c : Config) (w : Workload) (s : System) : Prop where
  goes : s.result? = none → ∃ party, (s.step? party).isSome = true
  returned : ∀ result, s.result? = some result →
    Simulation.run c w = result.map fun () => s.scheduler.report
  generator : ∀ result, s.generator.result? = some result → result = .ok ()

/-- A run on threads that the lockstep run accompanies from its start agrees with it. -/
theorem Accompanied.agrees
    (h : Accompanied σ₀ (Simulation.latestArrival w) (Simulation.totalRunTime w) s)
    (hstart : Simulation.start c w = .ok σ₀) (htick : σ₀.tick = 0)
    (hongoing : σ₀.Ongoing (Simulation.latestArrival w) (Simulation.totalRunTime w)) :
    Agrees c w s := by
  refine ⟨?_, ?_, ?_⟩
  · obtain ⟨σ, -, -, -, hfollows⟩ := h
    exact hfollows.goes
  · intro result hreturned
    obtain ⟨n, hover, hresult⟩ := h.result hreturned
    rw [Simulation.run, Simulation.finish, hstart]
    show (σ₀.runFor (Simulation.horizon w + 1)).result = _
    rw [Simulation.runFor_unique hover (Simulation.runFor_horizon_ne hongoing htick), hresult]
  · obtain ⟨σ, -, -, -, hfollows⟩ := h
    exact hfollows.sane

/-- What agrees at the start agrees after any steps. -/
theorem agrees_of_steps (hc : c.Valid) (hstart : start c w = .ok s₀)
    (hsteps : Relation.ReflTransGen Step s₀ s) : Agrees c w s := by
  obtain ⟨σ₀, hsimulation, hongoing, -, htick, -⟩ := Simulation.start_ongoing hc w
  obtain ⟨s₀', hstart', hwithin⟩ := start_within hsimulation
  obtain rfl : s₀ = s₀' := Except.ok.inj (hstart.symm.trans hstart')
  refine Accompanied.agrees ?_ hsimulation htick hongoing
  induction hsteps with
  | refl => exact ⟨σ₀, 0, rfl, hongoing, .within ⟨w.processes, hwithin⟩⟩
  | tail _ hstep ih => exact ih.step hstep

/-- **In every order of steps, a run on threads agrees with the lockstep run.** -/
theorem run_agrees {c : Config} (hc : c.Valid) (w : Workload) :
    ∃ s₀, start c w = .ok s₀ ∧ ∀ s, Relation.ReflTransGen Step s₀ s → Agrees c w s := by
  obtain ⟨σ₀, hsimulation, -⟩ := Simulation.start_ongoing hc w
  obtain ⟨s₀, hstart, -⟩ := start_within hsimulation
  exact ⟨s₀, hstart, fun s hsteps => agrees_of_steps hc hstart hsteps⟩

end System

/-! ## Fair runs -/

namespace Threads

variable {c : Config} {w : Workload} {s : System}

/-- A party that is given the chance makes a step or waits. -/
theorem attempt_steps (s : System) (p : Party) :
    Relation.ReflTransGen System.Step s (attempt s p) := by
  rw [attempt]
  cases hstep : s.step? p with
  | none => exact .refl
  | some s' => exact .single ⟨p, hstep⟩

theorem foldl_attempt_steps (ps : List Party) (s : System) :
    Relation.ReflTransGen System.Step s (ps.foldl attempt s) := by
  induction ps generalizing s with
  | nil => exact .refl
  | cons p ps ih => exact (attempt_steps s p).trans (ih (attempt s p))

theorem runFor_steps (n : Nat) (s : System) : Relation.ReflTransGen System.Step s (runFor n s) := by
  induction n generalizing s with
  | zero => exact .refl
  | succ n ih =>
    rw [runFor]
    split
    · exact .refl
    · exact (foldl_attempt_steps (parties s) s).trans (ih (round s))

/-- **A fair run that is over has the report of the lockstep run**, or has been refused for the same
reason. -/
theorem run_eq (hc : c.Valid) (hfinish : finish c w = .ok s) (hreturned : s.result? ≠ none) :
    run c w = Simulation.run c w := by
  rw [run, hfinish]
  obtain ⟨s₀, hstart, rfl⟩ := ok_of_map hfinish
  have hagrees := System.agrees_of_steps hc hstart (runFor_steps (rounds w) s₀)
  cases hresult : (runFor (rounds w) s₀).result? with
  | none => exact absurd hresult hreturned
  | some result =>
    rw [hagrees.returned result hresult]
    dsimp only
    rw [hresult]
    cases result <;> rfl

end Threads

namespace System

/-- Two processes that take turns, on threads that all make a step in every round. -/
theorem run_agrees_two_turns :
    ∃ c w s, Config.Valid c ∧ Threads.finish c w = .ok s ∧ s.result? = some (.ok ()) ∧
      Agrees c w s := by
  have hc : ({ policy := .roundRobin 1, readyCapacity := 2 } : Config).Valid := by decide
  have hover : ((Threads.finish { policy := .roundRobin 1, readyCapacity := 2 }
    ⟨[⟨1, 0, 2, 0, 100⟩, ⟨2, 0, 1, 0, 100⟩]⟩).toOption.bind result?) = some (.ok ()) := rfl
  obtain ⟨s₀, hstart, hagrees⟩ := run_agrees hc ⟨[⟨1, 0, 2, 0, 100⟩, ⟨2, 0, 1, 0, 100⟩]⟩
  rw [Threads.finish, hstart] at hover
  refine ⟨_, _, _, hc, ?_, hover, hagrees _ (Threads.runFor_steps _ s₀)⟩
  rw [Threads.finish, hstart]
  rfl

end System
end Uniprocessor
