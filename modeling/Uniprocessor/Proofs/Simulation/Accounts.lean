import Uniprocessor.Proofs.Machine.Accounts
import Uniprocessor.Proofs.Simulation.Horizon
import Uniprocessor.Proofs.Workload.Basic

/-!
# The log of a run

A run that was not refused has finished or rejected everybody.  Its log then tells the whole story of
every process of the workload, and of nobody else.

* `EventLog.Complete`: what such a log is like;
* `Simulation.Kept`: the books of a run that goes on;
* `Kept.step`, `Kept.finish`: **the books are kept, and complete when the run is over.**
-/

namespace Uniprocessor

/-- A log that tells the whole story of the processes `ps`. -/
structure EventLog.Complete (log : EventLog) (ps : List Process) : Prop where
  /-- Everybody was admitted, and its events are accounted for from its start to its finish; or was
  rejected, and has no events. -/
  gone : ∀ p ∈ ps, log.Gone p
  /-- Nobody else has events. -/
  known : ∀ e ∈ log.process, ∃ p ∈ ps, p.id = e.process
  process_sorted : log.process.Pairwise fun d e => d.tick ≤ e.tick
  memory_sorted : log.memory.Pairwise fun d e => d.tick ≤ e.tick
  /-- Of two processes, one has lost the processor when the other one gets it. -/
  disjoint : ∀ d e d' e', Tenure log.process d e → Tenure log.process d' e' →
    d.process ≠ d'.process → e.tick ≤ d'.tick ∨ e'.tick ≤ d.tick

/-- Every event is one of those that account for some process. -/
theorem EventLog.Complete.exists_accounted {log : EventLog} {ps : List Process} (h : log.Complete ps)
    {e : ProcessEvent} (he : e ∈ log.process) :
    ∃ p ∈ ps, Accounted p (log.eventsFor p.id) ∧ e ∈ log.eventsFor p.id := by
  obtain ⟨p, hp, hid⟩ := h.known e he
  have hmem : e ∈ log.eventsFor p.id := List.mem_filter.mpr ⟨he, beq_iff_eq.mpr hid.symm⟩
  cases h.gone p hp with
  | finished hrequests hevents => exact ⟨p, hp, hevents, hmem⟩
  | rejected hrequests hevents =>
    rw [hevents] at hmem
    exact absurd hmem List.not_mem_nil

namespace Simulation

open Machine

variable {m m' : Machine} {ps seen : List Process} {s : Simulation} {tick f g latest : Tick}
  {total : Nat}

/-- Arrivals that are answered are in the books. -/
theorem LetIn.recorded (h : LetIn tick m ps m') (hm : m.Sound [])
    (hrecorded : m.Recorded seen (tick + 1) g) (hnodup : ((seen ++ ps).map Process.id).Nodup)
    (hdue : ∀ p ∈ ps, p.arrival ≤ tick) : m'.Recorded (seen ++ ps) (tick + 1) g := by
  induction h generalizing seen with
  | nil m => rwa [List.append_nil]
  | @cons m m' p ps admission s ha hsound hrest ih =>
    have hnew : p.id ∉ seen.map Process.id := by
      intro hmem
      rw [List.map_append, List.map_cons] at hnodup
      exact (List.nodup_append.mp hnodup).2.2 _ hmem _ List.mem_cons_self rfl
    rw [List.append_cons] at hnodup ⊢
    exact ih hsound (hrecorded.arrival hm hnew (hdue p List.mem_cons_self) ha) hnodup
      fun q hq => hdue q (List.mem_cons_of_mem _ hq)

/-- The books of a run of the processes `all` before a tick. -/
structure Kept (s : Simulation) (latest : Tick) (total : Nat) (all : List Process) : Prop where
  ongoing : s.Ongoing latest total
  distinct : (all.map Process.id).Nodup
  recorded : ∃ seen, seen ++ s.pending = all ∧ s.machine.Recorded seen s.tick s.tick

variable {all : List Process}

theorem arrival_le_of_due {p : Process} (hp : p ∈ due ps tick) : p.arrival ≤ tick :=
  of_decide_eq_true (List.all_eq_true.mp List.all_takeWhile p hp)

/-- The books after the reports and the arrivals of a tick. -/
theorem Kept.settled (h : s.Kept latest total all) {reports : List UnitReport} {m₁ m₂ : Machine}
    (hreported : Reported s.machine s.tick reports m₁) (hsound : m₁.Sound [])
    (hletIn : LetIn s.tick m₁ (due s.pending s.tick) m₂) :
    ∃ seen, seen ++ notDue s.pending s.tick = all ∧ m₂.Recorded seen (s.tick + 1) s.tick ∧
      m₂.Timely (s.tick + 1) := by
  obtain ⟨seen, hall, hrecorded⟩ := h.recorded
  have hsplit := due_append_notDue s.pending s.tick
  have hnodup := h.distinct
  rw [← hall, ← hsplit, ← List.append_assoc, List.map_append] at hnodup
  refine ⟨seen ++ due s.pending s.tick, ?_, ?_, ?_⟩
  · rw [List.append_assoc, hsplit, hall]
  · exact hletIn.recorded hsound
      (hrecorded.reported h.ongoing.sound h.ongoing.timely hreported)
      (List.nodup_append.mp hnodup).1 fun p hp => arrival_le_of_due hp
  · exact hletIn.timely hsound (h.ongoing.timely.reported h.ongoing.sound hreported)

theorem Kept.step (h : s.Kept latest total all) {next : Simulation}
    (hnext : s.step = .running next) : next.Kept latest total all := by
  have ht := step_ticked h.ongoing.sound
  rw [hnext] at ht
  have hongoing := (h.ongoing.step ht).1
  cases ht with
  | running hreported hsound₁ hletIn hsound₂ hdone hturn hsound₃ =>
    obtain ⟨seen, hall, hrecorded, htimely⟩ := h.settled hreported hsound₁ hletIn
    exact ⟨hongoing, h.distinct, seen, hall, hrecorded.turn hsound₂ htimely hturn⟩

/-- When nobody is left, the books are complete. -/
theorem Kept.finish (h : s.Kept latest total all) {m : Machine} {t : Tick}
    (hfinish : s.step = .finished m t) : m.journal.log.Complete all := by
  obtain ⟨-, hlive, hpending⟩ := h.ongoing.nobody_left hfinish
  have ht := step_ticked h.ongoing.sound
  rw [hfinish] at ht
  cases ht with
  | finished hreported hsound₁ hletIn hsound₂ hdone =>
    obtain ⟨seen, hall, hrecorded, -⟩ := h.settled hreported hsound₁ hletIn
    rw [hpending, List.append_nil] at hall
    subst hall
    refine ⟨?_, ?_, hrecorded.chronological.process_sorted,
      hrecorded.chronological.memory_sorted, ?_⟩
    · intro p hp
      refine (hrecorded.chronicle.gone p hp).resolve_left ?_
      rintro ⟨slot, b, hslot, -⟩
      exact List.not_mem_nil (hlive ▸ ProcessTable.mem_toList.mpr ⟨slot, hslot⟩)
    · intro e he
      exact List.mem_map.mp (hrecorded.chronicle.process_known e he)
    · intro d e d' e' htenure htenure' hne
      exact hrecorded.rota.disjoint hrecorded.chronological.process_sorted htenure htenure' hne

theorem start_kept {c : Config} (hc : c.Valid) {w : Workload}
    (hw : (w.processes.map Process.id).Nodup) : ∃ s, start c w = .ok s ∧
      s.Kept (latestArrival w) (totalRunTime w) w.processes ∧ s.tick = 0 := by
  obtain ⟨s, hstart, hongoing, hpending, htick, htable, hjournal, hidle⟩ := start_ongoing hc w
  refine ⟨s, hstart, ⟨hongoing, hw, [], hpending, ?_, ?_, ?_⟩, htick⟩
  · rw [htable, hjournal]
    exact .empty _ _
  · rw [hjournal, current?_of_idle hidle]
    exact .nil
  · rw [hjournal]
    exact EventLog.chronological_empty _

/-- **The log of a run is complete.**  Every process of the workload was rejected and has no events,
or was admitted, and then its events are a start, any number of stops and resumptions, and a finish,
each with the figures that follow from the one before; and nobody has the processor while somebody
else has it. -/
theorem run_complete {c : Config} (hc : c.Valid) {ps : List Process} {w : Workload}
    (hw : Workload.ofList ps = .ok w) {r : Report} (hr : Simulation.run c w = .ok r) :
    r.events.Complete w.processes := by
  obtain ⟨-, -, hdistinct⟩ := Workload.ofList_ok hw
  obtain ⟨s, hstart, hkept, htick⟩ := start_kept hc hdistinct
  have hended := runFor_horizon_ne hkept.ongoing htick
  rw [Simulation.run, finish, hstart] at hr
  rcases runFor_induction (fun s next hs hnext => Kept.step hs hnext) hkept (horizon w + 1) with
    ⟨s', hkept', hlast, -⟩ | ⟨s', -, hrunning⟩
  · change TickOutcome.result (runFor (horizon w + 1) s) = .ok r at hr
    rw [← hlast] at hr
    cases hout : s'.step with
    | running next => exact absurd (hlast.symm.trans hout) (hended next)
    | failed e m =>
      rw [hout] at hr
      exact absurd hr (by simp [TickOutcome.result])
    | finished m t =>
      rw [hout] at hr
      obtain rfl := Except.ok.inj hr
      exact hkept'.finish hout
  · exact absurd hrunning (hended s')

/-- Two processes that take turns of one tick, and one that there is no memory for. -/
theorem run_complete_turns :
    ∃ c ps w r, Config.Valid c ∧ Workload.ofList ps = .ok w ∧ Simulation.run c w = .ok r ∧
      w.processes.map Process.id = [1, 2, 3] ∧
      r.events.process.map ProcessEvent.kind =
        [.started, .stopped, .started, .stopped, .resumed, .finished, .resumed, .finished] ∧
      r.events.Complete w.processes := by
  have hc : ({ policy := .roundRobin 1, readyCapacity := 2 } : Config).Valid := by decide
  have hw : Workload.ofList [⟨1, 0, 2, 0, 100⟩, ⟨2, 0, 2, 0, 100⟩, ⟨3, 1, 1, 0, 5000⟩] = .ok ⟨_⟩ :=
    Workload.ofList_of_pairwise rfl (by decide)
  exact ⟨_, _, _, _, hc, hw, rfl, rfl, rfl, run_complete hc hw rfl⟩

end Simulation
end Uniprocessor
