import Uniprocessor.Proofs.Backlog
import Uniprocessor.Proofs.Journal.Figures

/-!
# When the processes finished

Where nobody was rejected, the log of a run has one finish of each process.  The number of processes
that have arrived by a tick and not finished is then a matter of how many finishes there are by that
tick; and so are the total turnaround and the total waiting time, since the time until a process
finishes is made up of its arrival, its waiting time and its run time.

* `EventLog.unfinished`: the processes that have arrived by a tick and not finished;
* `EventLog.finishedBy`: the finishes by a tick;
* `EventLog.Served`: a log that has one finish of each process;
* `Served.unfinished_add`: who is not finished has arrived, and the others are finished;
* `Served.totals_le`: **of two logs, the one with more finishes by every tick has the smaller
  totals.**
-/

namespace Uniprocessor

variable {es : List ProcessEvent} {ms : List MemoryEvent} {p : Process} {log log' : EventLog}
  {ps : List Process} {t tick : Tick}

/-! ## Process by process -/

/-- The events of several processes, gone through process by process. -/
theorem perm_flatMap_filter {ids : List Nat} (hnodup : ids.Nodup)
    (hknown : ∀ e ∈ es, e.process ∈ ids) :
    es.Perm (ids.flatMap fun id => es.filter fun e => e.process == id) := by
  induction ids generalizing es with
  | nil =>
    obtain rfl : es = [] := List.eq_nil_iff_forall_not_mem.mpr fun e he =>
      List.not_mem_nil (hknown e he)
    exact List.Perm.refl _
  | cons id ids ih =>
    obtain ⟨hnew, hnodup⟩ := List.nodup_cons.mp hnodup
    have hrest := ih hnodup (known_filter_ne hknown)
    have hsame : ∀ id' ∈ ids, (es.filter fun e => e.process != id).filter
        (fun e => e.process == id') = es.filter fun e => e.process == id' := fun id' hid' =>
      filter_filter_ne (fun heq : id' = id => hnew (heq ▸ hid')) es
    rw [List.flatMap_congr hsame] at hrest
    rw [List.flatMap_cons]
    exact (List.filter_append_perm (fun e : ProcessEvent => e.process == id) es).symm.trans
      (hrest.append_left _)

/-! ## One finish -/

/-- An event is the finish of a process whose events are `es`, with the figures of that process. -/
structure ProcessEvent.Completes (e : ProcessEvent) (p : Process) (es : List ProcessEvent) :
    Prop where
  only : es.filter ProcessEvent.finishes = [e]
  about : e.About p
  turnaround : e.turnaround? = some (e.waiting + p.runTime)
  tick : e.tick = p.arrival + (e.waiting + p.runTime)

/-- An accounted process has one finish. -/
theorem Accounted.exists_finish (h : Accounted p es) (hpos : p.runTime ≠ 0) :
    ∃ e : ProcessEvent, e.Completes p es := by
  obtain ⟨n, hkinds⟩ := h.kinds
  rcases List.eq_nil_or_concat es with rfl | ⟨init, e, rfl⟩
  · exact absurd hkinds (by simp)
  · rw [List.concat_eq_append] at *
    rw [List.map_append, List.map_singleton] at hkinds
    obtain ⟨hinit, hlast⟩ := List.append_inj' hkinds rfl
    obtain ⟨c, hc, hturnaround, hsum⟩ := h.ends e (List.getLast?_concat ..)
    have hnone : init.filter ProcessEvent.finishes = [] := by
      refine List.filter_eq_nil_iff.mpr fun x hx hfinish => ?_
      have hmem : x.kind ∈ init.map ProcessEvent.kind := List.mem_map_of_mem hx
      rw [hinit, of_decide_eq_true hfinish] at hmem
      simp at hmem
    have hfinish : e.finishes = true := decide_eq_true (List.cons.inj hlast).1
    refine ⟨e, ?_, h.about e (by simp), ?_, ?_⟩
    · rw [List.filter_append, hnone, List.filter_cons_of_pos hfinish]
      rfl
    · rw [ProcessEvent.turnaround?, hc, Option.map_some, hsum]
    · rw [hsum] at hturnaround
      dsimp only [Tick] at *
      omega

namespace EventLog

/-! ## All finishes -/

/-- The finishes by a tick. -/
def finishedBy (log : EventLog) (t : Tick) : Nat :=
  (log.process.filter ProcessEvent.finishes).countP fun e => e.tick ≤ t

/-- Later events tell of no finish by now. -/
theorem finishedBy_extend_of_lt (hes : ∀ e ∈ es, e.tick = tick) (ht : t < tick) :
    (log.extend es ms).finishedBy t = log.finishedBy t := by
  have hlate : (es.filter ProcessEvent.finishes).countP (fun e => e.tick ≤ t) = 0 := by
    refine List.countP_eq_zero.mpr fun e he => ?_
    rw [hes e (List.mem_filter.mp he).1]
    exact fun hle => absurd (of_decide_eq_true hle) (Nat.not_le_of_lt ht)
  rw [finishedBy, extend, List.filter_append, List.countP_append, hlate]
  rfl

/-- Events that are no finishes tell of none. -/
theorem finishedBy_extend_of_none (hes : ∀ e ∈ es, e.finishes = false) (t : Tick) :
    (log.extend es ms).finishedBy t = log.finishedBy t := by
  have hnone : es.filter ProcessEvent.finishes = [] :=
    List.filter_eq_nil_iff.mpr fun e he => by simp [hes e he]
  rw [finishedBy, extend, List.filter_append, hnone, List.append_nil, finishedBy]

/-- By the latest tick there are all finishes. -/
theorem finishedBy_of_le (h : ∀ e ∈ log.process, e.tick < tick + 1) (ht : tick ≤ t) :
    log.finishedBy t = log.process.countP ProcessEvent.finishes := by
  rw [finishedBy, List.countP_eq_length_filter (p := ProcessEvent.finishes)]
  refine List.countP_eq_length.mpr fun e he => ?_
  have hle : e.tick ≤ t := (Nat.le_of_lt_succ (h e (List.mem_filter.mp he).1)).trans ht
  exact decide_eq_true hle

/-- A process has finished by a tick. -/
def hasFinishedBy (log : EventLog) (p : Process) (t : Tick) : Bool :=
  ((log.eventsFor p.id).filter ProcessEvent.finishes).any fun e => e.tick ≤ t

/-- The processes that have arrived by a tick and not finished. -/
def unfinished (log : EventLog) (ps : List Process) (t : Tick) : Nat :=
  ps.countP fun p => p.arrival ≤ t && !log.hasFinishedBy p t

/-- A log that has one finish of each process of a list, and no other one. -/
def Served (log : EventLog) (ps : List Process) : Prop :=
  ∃ fs, (log.process.filter ProcessEvent.finishes).Perm fs ∧
    List.Forall₂ (fun p e => ProcessEvent.Completes e p (log.eventsFor p.id)) ps fs

/-- **Where everybody is gone and nobody was rejected, everybody was served.** -/
theorem served (hnodup : (ps.map Process.id).Nodup) (hgone : ∀ p ∈ ps, log.Gone p)
    (hknown : ∀ e ∈ log.process, ∃ p ∈ ps, p.id = e.process) (hpos : ∀ p ∈ ps, p.runTime ≠ 0)
    (hnone : log.memory.countP MemoryEvent.rejects = 0) : log.Served ps := by
  have hfinish : ∀ p ∈ ps, ∃ e : ProcessEvent, e.Completes p (log.eventsFor p.id) := by
    intro p hp
    cases hgone p hp with
    | finished hrequests hevents => exact hevents.exists_finish (hpos p hp)
    | rejected hrequests hevents =>
      have hmem : MemoryEventKind.rejected ∈ log.requestsFor p.id := by simp [hrequests]
      obtain ⟨e, he, hkind⟩ := List.mem_map.mp hmem
      have hrejects := List.countP_eq_zero.mp hnone e (List.mem_filter.mp he).1
      exact absurd (decide_eq_true hkind) hrejects
  have hids : ∀ e ∈ log.process, e.process ∈ ps.map Process.id := fun e he => by
    obtain ⟨p, hp, hid⟩ := hknown e he
    exact hid ▸ List.mem_map_of_mem hp
  have hperm := (perm_flatMap_filter hnodup hids).filter ProcessEvent.finishes
  rw [List.flatMap_map, List.filter_flatMap] at hperm
  refine ⟨_, hperm, ?_⟩
  clear hperm hids hknown hgone hnodup hpos
  induction ps with
  | nil => exact .nil
  | cons p ps ih =>
    obtain ⟨⟨e, he⟩, hrest⟩ := List.forall_mem_cons.mp hfinish
    have honly : (log.process.filter fun e => e.process == p.id).filter ProcessEvent.finishes = [e] :=
      he.only
    rw [List.flatMap_cons, honly]
    exact .cons he (ih hrest)

namespace Served

/-- **Who has arrived is unfinished or finished.** -/
theorem unfinished_add (h : log.Served ps) (t : Tick) :
    log.unfinished ps t + log.finishedBy t = ps.countP fun p => p.arrival ≤ t := by
  obtain ⟨fs, hperm, hfinish⟩ := h
  rw [unfinished, finishedBy, hperm.countP_eq]
  clear hperm
  induction hfinish with
  | nil => rfl
  | @cons p e ps fs hp hrest ih =>
    have hby : log.hasFinishedBy p t = decide (e.tick ≤ t) := by
      rw [hasFinishedBy, hp.only, List.any_cons, List.any_nil, Bool.or_false]
    have htick := hp.tick
    rw [List.countP_cons, List.countP_cons, List.countP_cons, hby, ← ih]
    by_cases hdone : e.tick ≤ t
    · have harrival : p.arrival ≤ t := by
        dsimp only [Tick] at *
        omega
      simp only [harrival, hdone, decide_true, Bool.not_true, Bool.and_false, if_true,
        Bool.false_eq_true, if_false]
      omega
    · simp only [hdone, decide_false, Bool.not_false, Bool.and_true, Bool.false_eq_true, if_false]
      omega

/-- The times at which the processes finish are made up of their arrivals, their waiting times and
their run times. -/
theorem sums (h : log.Served ps) :
    ((log.process.filter ProcessEvent.finishes).map ProcessEvent.tick).sum =
        (ps.map Process.arrival).sum +
          ((log.process.filter ProcessEvent.finishes).filterMap ProcessEvent.turnaround?).sum ∧
      ((log.process.filter ProcessEvent.finishes).filterMap ProcessEvent.turnaround?).sum =
        ((log.process.filter ProcessEvent.finishes).map ProcessEvent.waiting).sum +
          (ps.map Process.runTime).sum := by
  obtain ⟨fs, hperm, hfinish⟩ := h
  rw [(hperm.map _).sum_nat, (hperm.filterMap _).sum_nat, (hperm.map ProcessEvent.waiting).sum_nat]
  clear hperm
  induction hfinish with
  | nil => exact ⟨rfl, rfl⟩
  | @cons p e ps fs hp hrest ih =>
    obtain ⟨htick, hturnaround⟩ := ih
    have hsum := hp.tick
    rw [List.filterMap_cons_some hp.turnaround, List.map_cons, List.map_cons, List.map_cons,
      List.map_cons, List.sum_cons, List.sum_cons, List.sum_cons, List.sum_cons, List.sum_cons, htick,
      hturnaround]
    dsimp only [Tick] at *
    omega

/-- There are as many finishes as processes. -/
theorem length_eq (h : log.Served ps) :
    (log.process.filter ProcessEvent.finishes).length = ps.length := by
  obtain ⟨fs, hperm, hfinish⟩ := h
  exact hperm.length_eq.trans hfinish.length_eq.symm

/-- **Of two logs of the same processes, the one with more finishes by every tick has the smaller
totals.** -/
theorem totals_le (h : log.Served ps) (h' : log'.Served ps)
    (hle : ∀ t, log'.finishedBy t ≤ log.finishedBy t) :
    ((log.process.filter ProcessEvent.finishes).map ProcessEvent.waiting).sum ≤
        ((log'.process.filter ProcessEvent.finishes).map ProcessEvent.waiting).sum ∧
      ((log.process.filter ProcessEvent.finishes).filterMap ProcessEvent.turnaround?).sum ≤
        ((log'.process.filter ProcessEvent.finishes).filterMap ProcessEvent.turnaround?).sum := by
  have hticks : ((log.process.filter ProcessEvent.finishes).map ProcessEvent.tick).sum ≤
      ((log'.process.filter ProcessEvent.finishes).map ProcessEvent.tick).sum := by
    refine Backlog.sum_le_of_countP_le fun k => ?_
    have hlen := h.length_eq.trans h'.length_eq.symm
    have hmore := hle k
    rw [finishedBy, finishedBy] at hmore
    rw [List.countP_map, List.countP_map]
    have hsplit : ∀ es : List ProcessEvent, es.length = es.countP (fun e => decide (e.tick ≤ k)) +
        es.countP ((fun x => decide (k < x)) ∘ ProcessEvent.tick) := fun es => by
      rw [List.length_eq_countP_add_countP fun e : ProcessEvent => decide (e.tick ≤ k)]
      congr 2
      funext e
      simp
    rw [hsplit, hsplit] at hlen
    omega
  obtain ⟨htick, hturnaround⟩ := h.sums
  obtain ⟨htick', hturnaround'⟩ := h'.sums
  dsimp only [Tick] at *
  omega

end Served
end EventLog
end Uniprocessor
