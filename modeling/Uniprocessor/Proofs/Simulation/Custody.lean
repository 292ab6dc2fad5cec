import Uniprocessor.Proofs.Machine.Custody
import Uniprocessor.Proofs.Simulation.Proper

/-!
# The memory log of a run

A run offers a process to the machine in the tick of its arrival, and takes the reports of a tick
before that.  So whoever finishes in a tick has given its block back before anybody is answered in
it, and the answer depends on nothing but what the log tells to be held by then.

* `EventLog.Faithful`: a memory log that tells everything there is to tell about memory;
* `Simulation.LetIn.custody`, `Proper.custody`: a tick keeps the memory log true;
* `Simulation.run_faithful`: **the memory log of a run is faithful.**
-/

namespace Uniprocessor

/-- The memory log of a run of the processes `ps` in an arena of `capacity` bytes tells everything
there is to tell. -/
structure EventLog.Faithful (log : EventLog) (capacity : Nat) (ps : List Process) : Prop where
  /-- A process was rejected at its arrival and never ran, or was given a range at its arrival, which
  it gave back when it finished. -/
  fates : ∀ p ∈ ps,
    (log.memory.filter (fun e => e.process == p.id) =
        [⟨p.arrival, p.id, .rejected, p.memory, none⟩] ∧ log.eventsFor p.id = []) ∨
      ∃ (range : Range) (d : ProcessEvent),
        log.memory.filter (fun e => e.process == p.id) =
          [⟨p.arrival, p.id, .allocated, range.size, some range⟩,
            ⟨d.tick, p.id, .freed, range.size, some range⟩] ∧
        (log.eventsFor p.id).filter ProcessEvent.finishes = [d]
  /-- Nobody else has memory events. -/
  known : ∀ e ∈ log.memory, ∃ p ∈ ps, p.id = e.process
  /-- At every point the ranges that are held are aligned, inside the arena and apart. -/
  laid : ∀ ms, ms <+: log.memory → Laid capacity (heldRanges ms)
  /-- What comes back in a tick comes back before anybody is answered in it. -/
  freed_first : log.memory.Pairwise fun d e => d.tick = e.tick → e.kind = .freed → d.kind = .freed
  /-- A request is rejected exactly if there is no room for it. -/
  rejected_iff : ∀ p ∈ ps, ∀ before e, before ++ [e] <+: log.memory → e.process = p.id →
    e.kind ≠ .freed → (e.kind = .rejected ↔ ¬ Room (heldRanges before) capacity p.memory)

namespace EventLog

variable {log : EventLog} {owners : List (Nat × Buddy.Block)} {capacity : Nat} {ps : List Process}
  {p : Process} {e : MemoryEvent}

/-- The event of a process that is not a return answers its request. -/
theorem Custody.answers (h : log.Custody owners capacity ps) (hdistinct : (ps.map Process.id).Nodup)
    (hp : p ∈ ps) (he : e ∈ log.memory) (hid : e.process = p.id) (hkind : e.kind ≠ .freed) :
    ∃ held, Answers e p capacity held := by
  obtain ⟨before, after, hsplit⟩ := List.append_of_mem he
  have hprefix : before ++ [e] <+: log.memory := ⟨after, by rw [hsplit]; simp⟩
  obtain ⟨q, hq, hanswers⟩ := h.answered before e hprefix hkind
  have hsame : e.process = q.id := by
    cases hanswers with
    | granted block he hroom => rw [he]; rfl
    | refused he hnone => rw [he]
  obtain rfl : q = p := List.inj_on_of_nodup_map hdistinct hq hp (hsame.symm.trans hid)
  exact ⟨_, hanswers⟩

/-- What became of a process that is no longer there. -/
theorem Custody.fate (h : log.Custody owners capacity ps) (hdistinct : (ps.map Process.id).Nodup)
    (hp : p ∈ ps) (hpos : p.runTime ≠ 0) (hgone : log.Gone p) :
    (log.memory.filter (fun e => e.process == p.id) =
        [⟨p.arrival, p.id, .rejected, p.memory, none⟩] ∧ log.eventsFor p.id = []) ∨
      ∃ (range : Range) (d : ProcessEvent),
        log.memory.filter (fun e => e.process == p.id) =
          [⟨p.arrival, p.id, .allocated, range.size, some range⟩,
            ⟨d.tick, p.id, .freed, range.size, some range⟩] ∧
        (log.eventsFor p.id).filter ProcessEvent.finishes = [d] := by
  have hmine : ∀ {e}, e ∈ log.memory.filter (fun e => e.process == p.id) ↔
      e ∈ log.memory ∧ e.process = p.id := by
    intro e
    rw [List.mem_filter, beq_iff_eq]
  cases hgone with
  | rejected hrequests hevents =>
    rw [requestsFor, List.map_eq_singleton_iff] at hrequests
    obtain ⟨a, hlist, hkind⟩ := hrequests
    obtain ⟨ha, hid⟩ := hmine.mp (hlist ▸ List.mem_singleton_self a)
    obtain ⟨held, hanswers⟩ := h.answers hdistinct hp ha hid (by simp [hkind])
    cases hanswers with
    | granted block he hroom =>
      rw [he] at hkind
      exact absurd hkind (by simp [MemoryEvent.ofBlock])
    | refused he hnone => exact Or.inl ⟨by rw [hlist, he], hevents⟩
  | finished hrequests hevents =>
    obtain ⟨a, rest, hlist, hallocated, hrest⟩ := List.map_eq_cons_iff.mp hrequests
    obtain ⟨f, rfl, hfreed⟩ := List.map_eq_singleton_iff.mp hrest
    obtain ⟨ha, haid⟩ := hmine.mp (hlist ▸ List.mem_cons_self)
    obtain ⟨hf, hfid⟩ := hmine.mp (hlist ▸ List.mem_cons_of_mem a (List.mem_singleton_self f))
    obtain ⟨held, hanswers⟩ := h.answers hdistinct hp ha haid (by simp [hallocated])
    obtain ⟨⟨t, block', hf_eq, hsame⟩, d, hd, hdid, hfinish, htick⟩ := h.returned f hf hfreed
    obtain ⟨d', hd'⟩ := hevents.exists_finish hpos
    have hd_mem : d ∈ (log.eventsFor p.id).filter ProcessEvent.finishes :=
      List.mem_filter.mpr ⟨List.mem_filter.mpr ⟨hd, beq_iff_eq.mpr (hdid.trans hfid)⟩, hfinish⟩
    rw [hd'.only] at hd_mem
    obtain rfl := List.mem_singleton.mp hd_mem
    cases hanswers with
    | refused he hnone =>
      rw [he] at hallocated
      exact absurd hallocated (by simp)
    | granted block he hroom =>
      -- the block that came back is the one of the only allocation of the process
      have hwhich := hmine.mpr ⟨hsame, hfid⟩
      rw [hlist, List.mem_cons, List.mem_singleton] at hwhich
      have hblock : MemoryEvent.ofBlock f.process t .allocated block' = a := by
        refine hwhich.resolve_right fun hother => ?_
        rw [← hother] at hfreed
        exact absurd hfreed (by simp [MemoryEvent.ofBlock])
      rw [he] at hblock
      obtain ⟨-, -, -, hsize, hrange⟩ := MemoryEvent.mk.inj hblock
      refine Or.inr ⟨block.range, d, ?_, hd'.only⟩
      rw [hlist, he, hf_eq, hfid, MemoryEvent.ofBlock, MemoryEvent.ofBlock, hsize, hrange, htick]
      rfl

end EventLog

namespace Simulation

open Machine

variable {m m' : Machine} {ps all : List Process} {s s₀ next : Simulation} {tick t : Tick}
  {c : Config} {w : Workload} {capacity : Nat}

/-- Arrivals of a tick are answered according to what is held. -/
theorem LetIn.custody (h : LetIn tick m ps m') (hm : m.Sound []) (hcapacity : capacity ≤ 2 ^ 62)
    (hps : ∀ p ∈ ps, p ∈ all ∧ p.arrival = tick) (hcustody : m.Custody capacity all) :
    m'.Custody capacity all := by
  induction h with
  | nil m => exact hcustody
  | @cons m m' p ps admission s ha hsound hrest ih =>
    obtain ⟨⟨hp, htick⟩, hps⟩ := List.forall_mem_cons.mp hps
    exact ih hsound hps (hcustody.arrival hm hcapacity hp htick ha)

/-- The memory log is true after the reports and the arrivals of a tick. -/
theorem Proper.custody (h : s.Proper c w)
    (hsorted : w.processes.Pairwise fun p q => p.arrival ≤ q.arrival) (hcapacity : capacity ≤ 2 ^ 62)
    (hcustody : s.machine.Custody capacity w.processes) {reports : List UnitReport} {m₁ m₂ : Machine}
    (hreported : Reported s.machine s.tick reports m₁) (hsound : m₁.Sound [])
    (hletIn : LetIn s.tick m₁ (due s.pending s.tick) m₂) : m₂.Custody capacity w.processes := by
  obtain ⟨seen, -, hrecorded⟩ := h.counted.kept.recorded
  exact hletIn.custody hsound hcapacity (h.arrival_eq hsorted)
    (hcustody.reported h.underway.ongoing.sound hrecorded.chronological.memory_before hreported)

/-- What holds before every tick of a run whose memory log is true. -/
structure Entrusted (s : Simulation) (c : Config) (w : Workload) : Prop where
  proper : s.Proper c w
  custody : s.machine.Custody c.arena w.processes

theorem Entrusted.step (h : s.Entrusted c w) (harena : c.arena ≤ 2 ^ 62)
    (hsorted : w.processes.Pairwise fun p q => p.arrival ≤ q.arrival)
    (hnext : s.step = .running next) : next.Entrusted c w := by
  have ht := step_ticked h.proper.underway.ongoing.sound
  rw [hnext] at ht
  cases ht with
  | running hreported hsound₁ hletIn hsound₂ hdone hturn =>
    exact ⟨h.proper.step hnext,
      (h.proper.custody hsorted harena h.custody hreported hsound₁ hletIn).turn hturn⟩

theorem Entrusted.finish (h : s.Entrusted c w) (harena : c.arena ≤ 2 ^ 62)
    (hsorted : w.processes.Pairwise fun p q => p.arrival ≤ q.arrival)
    (hpos : ∀ p ∈ w.processes, p.runTime ≠ 0) (hfinish : s.step = .finished m t) :
    m.journal.log.Faithful c.arena w.processes := by
  have hcomplete := h.proper.counted.kept.finish hfinish
  have hdistinct := h.proper.counted.kept.distinct
  have ht := step_ticked h.proper.underway.ongoing.sound
  rw [hfinish] at ht
  cases ht with
  | finished hreported hsound₁ hletIn hsound₂ hdone =>
    obtain ⟨seen, hall, hrecorded, -⟩ := h.proper.counted.kept.settled hreported hsound₁ hletIn
    have hlog := (h.proper.custody hsorted harena h.custody hreported hsound₁ hletIn).log
    refine ⟨fun p hp => hlog.fate hdistinct hp (hpos p hp) (hcomplete.gone p hp), fun e he => ?_,
      hlog.laid, hlog.freed_first, fun p hp before e hprefix hid hkind => ?_⟩
    · obtain ⟨p, hp, hid⟩ := List.mem_map.mp (hrecorded.chronicle.memory_known e he)
      exact ⟨p, hall ▸ List.mem_append_left _ hp, hid⟩
    · obtain ⟨q, hq, hanswers⟩ := hlog.answered before e hprefix hkind
      cases hanswers with
      | granted block he hroom =>
        subst he
        obtain rfl : q = p := List.inj_on_of_nodup_map hdistinct hq hp hid
        exact ⟨fun hrejected => absurd hrejected (by simp [MemoryEvent.ofBlock]),
          fun hnone => absurd hroom hnone⟩
      | refused he hnone =>
        subst he
        obtain rfl : q = p := List.inj_on_of_nodup_map hdistinct hq hp hid
        exact ⟨fun _ => hnone, fun _ => rfl⟩

/-- Before the first tick nothing is held. -/
theorem start_entrusted (hc : c.Valid) (hw : Workload.ofList ps = .ok w) :
    ∃ s, start c w = .ok s ∧ s.Entrusted c w ∧ s.tick = 0 := by
  obtain ⟨s, hstart, hproper, htick, -⟩ := start_proper hc hw
  obtain rfl := Except.ok.inj ((start_eq hc w).symm.trans hstart)
  exact ⟨_, hstart, ⟨hproper, (Scheduler.ofConfig_eq hc w.size).2.1, EventLog.custody_empty _ _⟩, htick⟩

/-- **The memory log of a run is faithful.**  Every process was rejected at its arrival, or was
given a range then and gave it back when it finished.  Whoever reads the log in order knows what is
held: ranges that are aligned, inside the arena and apart; and a process was rejected exactly if
there was no such range left for it. -/
theorem run_faithful {c : Config} (hc : c.Valid) (harena : c.arena ≤ 2 ^ 62) {ps : List Process}
    {w : Workload} (hw : Workload.ofList ps = .ok w) {r : Report} (hr : run c w = .ok r) :
    r.events.Faithful c.arena w.processes := by
  obtain ⟨-, hpos, -⟩ := Workload.ofList_ok hw
  have hsorted := Workload.pairwise_ofList hw
  obtain ⟨s, hstart, hs, htick⟩ := start_entrusted hc hw
  obtain ⟨last, m, t, hlast, hout, -, -, rfl⟩ :=
    exists_finish (fun s next h hnext => Entrusted.step h harena hsorted hnext) hs
      hs.proper.underway.ongoing hstart htick hr
  exact hlast.finish harena hsorted hpos hout

/-- Two processes fill an arena; a third one comes too early, and a fourth one when one of the two
has just gone. -/
theorem run_faithful_full :
    ∃ c ps w r, Config.Valid c ∧ c.arena ≤ 2 ^ 62 ∧ Workload.ofList ps = .ok w ∧ run c w = .ok r ∧
      r.events.memory.map (fun e => (e.tick, e.process, e.kind)) =
        [(0, 1, .allocated), (0, 2, .allocated), (1, 3, .rejected), (2, 1, .freed),
          (2, 4, .allocated), (5, 2, .freed), (6, 4, .freed)] ∧
      r.events.Faithful 256 w.processes := by
  have hc : ({ policy := .roundRobin 4, arena := 256, readyCapacity := 2 } : Config).Valid := by
    decide
  have hw : Workload.ofList [⟨1, 0, 2, 0, 100⟩, ⟨2, 0, 3, 0, 128⟩, ⟨3, 1, 1, 0, 20⟩,
      ⟨4, 2, 1, 0, 90⟩] = .ok ⟨_⟩ := Workload.ofList_of_pairwise rfl (by decide)
  exact ⟨_, _, _, _, hc, by decide, hw, rfl, rfl, run_faithful hc (by decide) hw rfl⟩

end Simulation
end Uniprocessor
