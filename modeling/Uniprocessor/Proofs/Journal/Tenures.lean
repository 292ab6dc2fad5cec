import Uniprocessor.Proofs.Journal.Chronicle
import Uniprocessor.Proofs.Journal.Rota

/-!
# How long the processor was held

The time the processor was held can be read off a log: from each dispatch to the next event of the
same process, and from a dispatch without such an event until now.

Until an event is noted, the time held grows by one a tick for each process that has not been
released, of which there is at most one; and noting an event of the current tick changes nothing.
Nor does it matter in which order the processes are gone through: the time held is the sum of what
each process held, and of an accounted process that is its run time.

* `tenures`: the dispatches of a log with the events that end them, `mem_tenures`: as in `Tenure`,
  `map_fst_tenures`: all of them;
* `held`: the time held until a tick; `held_append_of_tick`, `held_succ`: as time goes on;
* `Rota.map_unreleased`: who has not been released;
* `held_eq_sum`, `Accounted.held_eq`: process by process;
* `EventLog.held_eq`: **the time held is the run time of the finished processes.**
-/

namespace Uniprocessor

variable {es es' : List ProcessEvent} {d e : ProcessEvent} {t : Tick} {p : Process}

/-- The first event of a process. -/
def nextOf (process : Nat) (es : List ProcessEvent) : Option ProcessEvent :=
  es.find? fun e => e.process == process

/-- The dispatches of a log, each with the next event of the same process. -/
def tenures : List ProcessEvent → List (ProcessEvent × ProcessEvent)
  | [] => []
  | d :: es =>
    match d.kind.dispatches, nextOf d.process es with
    | true, some e => (d, e) :: tenures es
    | _, _ => tenures es

/-- The dispatches of a log that no event of the same process comes after. -/
def unreleased : List ProcessEvent → List ProcessEvent
  | [] => []
  | d :: es =>
    match d.kind.dispatches, nextOf d.process es with
    | true, none => d :: unreleased es
    | _, _ => unreleased es

/-- The time that the processor was held until a tick. -/
def held : List ProcessEvent → Tick → Nat
  | [], _ => 0
  | d :: es, t =>
    (if d.kind.dispatches then ((nextOf d.process es).elim t ProcessEvent.tick) - d.tick else 0) +
      held es t

/-- The first event of a process has events of other processes only in front of it. -/
theorem nextOf_eq_some_iff {process : Nat} : nextOf process es = some e ↔
    ∃ between after, es = between ++ e :: after ∧ e.process = process ∧
      ∀ x ∈ between, x.process ≠ process := by
  rw [nextOf, List.find?_eq_some_iff_append]
  refine ⟨?_, ?_⟩
  · rintro ⟨he, between, after, rfl, hbetween⟩
    exact ⟨between, after, rfl, beq_iff_eq.mp he, fun x hx => by simpa using hbetween x hx⟩
  · rintro ⟨between, after, rfl, he, hbetween⟩
    exact ⟨beq_iff_eq.mpr he, between, after, rfl, fun x hx => by simpa using hbetween x hx⟩

/-- A tenure begins with the first event or with a later one. -/
theorem tenure_cons_iff {x : ProcessEvent} : Tenure (x :: es) d e ↔
    (d = x ∧ x.kind.dispatches = true ∧ nextOf x.process es = some e) ∨ Tenure es d e := by
  refine ⟨?_, ?_⟩
  · rintro ⟨before, between, after, h, hd, he, hbetween⟩
    cases before with
    | nil =>
      obtain ⟨rfl, rfl⟩ := List.cons.inj h
      exact Or.inl ⟨rfl, hd, nextOf_eq_some_iff.mpr ⟨between, after, rfl, he, hbetween⟩⟩
    | cons y before =>
      obtain ⟨-, rfl⟩ := List.cons.inj h
      exact Or.inr ⟨before, between, after, rfl, hd, he, hbetween⟩
  · rintro (⟨rfl, hd, hnext⟩ | ⟨before, between, after, rfl, hrest⟩)
    · obtain ⟨between, after, rfl, he, hbetween⟩ := nextOf_eq_some_iff.mp hnext
      exact ⟨[], between, after, rfl, hd, he, hbetween⟩
    · exact ⟨x :: before, between, after, rfl, hrest⟩

theorem mem_tenures : (d, e) ∈ tenures es ↔ Tenure es d e := by
  induction es with
  | nil =>
    refine ⟨fun h => absurd h List.not_mem_nil, ?_⟩
    rintro ⟨before, between, after, h, -⟩
    exact absurd h (by simp)
  | cons x es ih =>
    rw [tenure_cons_iff, ← ih, tenures]
    cases x.kind.dispatches with
    | false => simp
    | true =>
      cases nextOf x.process es with
      | none => simp
      | some y => simp [eq_comm]

theorem nextOf_concat (process : Nat) (es : List ProcessEvent) (e : ProcessEvent) :
    nextOf process (es ++ [e]) =
      (nextOf process es).or (if e.process = process then some e else none) := by
  rw [nextOf, List.find?_append, List.find?_singleton]
  simp [nextOf]

/-! ## As time goes on -/

/-- An event of the current tick does not change the time held. -/
theorem held_concat (es : List ProcessEvent) (e : ProcessEvent) :
    held (es ++ [e]) e.tick = held es e.tick := by
  induction es with
  | nil =>
    show (if _ then e.tick - e.tick else 0) + 0 = 0
    rw [Nat.sub_self, ite_self]
  | cons d es ih =>
    rw [List.cons_append, held, held, ih, nextOf_concat]
    cases nextOf d.process es with
    | some x => rfl
    | none =>
      by_cases hsame : e.process = d.process
      · rw [if_pos hsame]
        rfl
      · rw [if_neg hsame]
        rfl

/-- Nor do several. -/
theorem held_append_of_tick (hes : ∀ e ∈ es', e.tick = t) : held (es ++ es') t = held es t := by
  induction es' generalizing es with
  | nil => rw [List.append_nil]
  | cons e es' ih =>
    obtain ⟨rfl, hrest⟩ := List.forall_mem_cons.mp hes
    rw [List.append_cons, ih hrest, held_concat]

/-- In a tick the time held grows by one for each process that has not been released. -/
theorem held_succ (hbefore : ∀ e ∈ es, e.tick ≤ t) :
    held es (t + 1) = held es t + (unreleased es).length := by
  induction es with
  | nil => rfl
  | cons d es ih =>
    obtain ⟨hd, hrest⟩ := List.forall_mem_cons.mp hbefore
    rw [held, held, unreleased, ih hrest]
    cases d.kind.dispatches with
    | false => exact (Nat.add_assoc 0 _ _).symm
    | true =>
      cases nextOf d.process es with
      | some x => exact (Nat.add_assoc _ _ _).symm
      | none =>
        show t + 1 - d.tick + (held es t + _) = t - d.tick + held es t + (_ + 1)
        dsimp only [Tick] at *
        omega

/-- An event releases its process, and is a dispatch itself or not. -/
theorem unreleased_concat (es : List ProcessEvent) (e : ProcessEvent) :
    unreleased (es ++ [e]) = (unreleased es).filter (fun d => d.process != e.process) ++
      if e.kind.dispatches then [e] else [] := by
  induction es with
  | nil =>
    cases he : e.kind.dispatches <;> simp [unreleased, nextOf, he]
  | cons d es ih =>
    rw [List.cons_append, unreleased, unreleased, ih, nextOf_concat]
    cases d.kind.dispatches with
    | false => rfl
    | true =>
      cases nextOf d.process es with
      | some x => rfl
      | none =>
        by_cases hsame : e.process = d.process
        · simp [hsame]
        · simp [hsame, Ne.symm hsame]

/-- The process that has not been released is the one whose turn it is. -/
theorem Rota.map_unreleased {current : Option Nat} (h : Rota es current) :
    (unreleased es).map ProcessEvent.process = current.toList := by
  induction h with
  | nil => rfl
  | dispatch h e he ih =>
    rw [unreleased_concat, List.map_eq_nil_iff.mp ih, if_pos he]
    rfl
  | @release es e h he ih =>
    obtain ⟨d, hd, hprocess⟩ : ∃ d, unreleased es = [d] ∧ d.process = e.process := by
      obtain ⟨d, hd⟩ := List.map_eq_singleton_iff.mp ih
      exact ⟨d, hd⟩
    rw [unreleased_concat, hd, he, if_neg Bool.false_ne_true, List.filter_cons_of_neg (by simp [hprocess])]
    rfl

/-- Where everybody has been released, the first event is no dispatch or has an event that ends it. -/
theorem tenures_cons (h : unreleased (d :: es) = []) : unreleased es = [] ∧
    (d.kind.dispatches = false ∧ tenures (d :: es) = tenures es ∨
      d.kind.dispatches = true ∧
        ∃ x, nextOf d.process es = some x ∧ tenures (d :: es) = (d, x) :: tenures es) := by
  rw [unreleased] at h
  rw [tenures]
  cases hd : d.kind.dispatches with
  | false =>
    rw [hd] at h
    exact ⟨h, Or.inl ⟨rfl, rfl⟩⟩
  | true =>
    rw [hd] at h
    cases hnext : nextOf d.process es with
    | none =>
      rw [hnext] at h
      exact absurd h (by simp)
    | some x =>
      rw [hnext] at h
      exact ⟨h, Or.inr ⟨rfl, x, rfl, rfl⟩⟩

/-- Where everybody has been released, every dispatch has an event that ends it. -/
theorem map_fst_tenures (h : unreleased es = []) :
    (tenures es).map Prod.fst = es.filter fun e => e.kind.dispatches := by
  induction es with
  | nil => rfl
  | cons d es ih =>
    obtain ⟨hrest, ⟨hd, htenures⟩ | ⟨hd, x, -, htenures⟩⟩ := tenures_cons h
    · rw [htenures, ih hrest, List.filter_cons_of_neg (by simp [hd])]
    · rw [htenures, List.map_cons, ih hrest, List.filter_cons_of_pos (by simp [hd])]

/-- Where everybody has been released, the time held is that between dispatches and what ends
them. -/
theorem held_eq_tenures (h : unreleased es = []) (t : Tick) :
    held es t = ((tenures es).map fun x => x.2.tick - x.1.tick).sum := by
  induction es with
  | nil => rfl
  | cons d es ih =>
    obtain ⟨hrest, ⟨hd, htenures⟩ | ⟨hd, x, hnext, htenures⟩⟩ := tenures_cons h
    · rw [held, htenures, ih hrest, hd, if_neg Bool.false_ne_true, Nat.zero_add]
    · rw [held, htenures, ih hrest, hd, if_pos rfl, hnext]
      rfl

/-! ## Process by process -/

theorem nextOf_filter {process : Nat} {q : ProcessEvent → Bool}
    (h : ∀ e : ProcessEvent, e.process = process → q e = true) :
    nextOf process (es.filter q) = nextOf process es := by
  rw [nextOf, nextOf, List.find?_filter]
  refine congrArg (List.find? · es) (funext fun e => ?_)
  by_cases he : e.process = process
  · simp [he, h e he]
  · simp [he]

/-- The time held is what one process held and what the others held. -/
theorem held_split (es : List ProcessEvent) (t : Tick) (process : Nat) :
    held es t = held (es.filter fun e => e.process == process) t +
      held (es.filter fun e => e.process != process) t := by
  induction es with
  | nil => rfl
  | cons d es ih =>
    by_cases hd : d.process = process
    · rw [List.filter_cons_of_pos (by simp [hd]), List.filter_cons_of_neg (by simp [hd]), held, held,
        nextOf_filter (by simp [hd]), ih, Nat.add_assoc]
    · rw [List.filter_cons_of_neg (by simp [hd]), List.filter_cons_of_pos (by simp [hd]), held, held,
        nextOf_filter (by rintro e he; simp [he, hd]), ih]
      exact Nat.add_left_comm _ _ _

/-- The events of one of several processes, where those of another one have been left out. -/
theorem filter_filter_ne {process process' : Nat} (h : process' ≠ process)
    (es : List ProcessEvent) :
    (es.filter fun e => e.process != process).filter (fun e => e.process == process') =
      es.filter fun e => e.process == process' := by
  rw [List.filter_filter]
  refine List.filter_congr fun e _ => ?_
  by_cases heq : e.process = process'
  · simp [heq, h]
  · simp [heq]

theorem known_filter_ne {id : Nat} {ids : List Nat} (h : ∀ e ∈ es, e.process ∈ id :: ids) :
    ∀ e ∈ es.filter fun e => e.process != id, e.process ∈ ids := by
  intro e he
  obtain ⟨he, hother⟩ := List.mem_filter.mp he
  exact (List.mem_cons.mp (h e he)).resolve_left (bne_iff_ne.mp hother)

/-- The time held is the sum of what each process held. -/
theorem held_eq_sum {ids : List Nat} (hnodup : ids.Nodup) (hknown : ∀ e ∈ es, e.process ∈ ids)
    (t : Tick) : held es t = (ids.map fun id => held (es.filter fun e => e.process == id) t).sum := by
  induction ids generalizing es with
  | nil =>
    obtain rfl : es = [] := List.eq_nil_iff_forall_not_mem.mpr fun e he =>
      List.not_mem_nil (hknown e he)
    rfl
  | cons id ids ih =>
    obtain ⟨hnew, hnodup⟩ := List.nodup_cons.mp hnodup
    have hsame : ∀ id' ∈ ids, (es.filter fun e => e.process != id).filter
        (fun e => e.process == id') = es.filter fun e => e.process == id' := fun id' hid' =>
      filter_filter_ne (fun heq : id' = id => hnew (heq ▸ hid')) es
    rw [held_split es t id, ih hnodup (known_filter_ne hknown), List.map_cons, List.sum_cons]
    exact congrArg (fun xs => _ + List.sum xs)
      (List.map_congr_left fun id' hid' => congrArg (held · t) (hsame id' hid'))

/-- A process that has come to its finish has held the processor for all that it had left. -/
theorem held_of_isChain (hchain : (d :: es).IsChain ProcessEvent.Follows)
    (hsame : ∀ e ∈ es, e.process = d.process)
    (hlast : ∀ x ∈ (d :: es).getLast?, x.kind = .finished) (hd : d.kind ≠ .finished) (t : Tick) :
    held (d :: es) t = d.remaining := by
  induction es generalizing d with
  | nil => exact absurd (hlast d rfl) hd
  | cons e es ih =>
    obtain ⟨hfollows, hrest⟩ := List.isChain_cons_cons.mp hchain
    obtain ⟨he, hsame⟩ := List.forall_mem_cons.mp hsame
    have hlast' : ∀ x ∈ (e :: es).getLast?, x.kind = .finished := fun x hx =>
      hlast x (by rwa [List.getLast?_cons_cons])
    have hnext : nextOf d.process (e :: es) = some e := List.find?_cons_of_pos (by simp [he])
    have hsame' : ∀ x ∈ es, x.process = e.process := fun x hx => (hsame x hx).trans he.symm
    rw [held, hnext]
    cases hfollows with
    | stopped hdispatch hkind hran =>
      rw [ih hrest hsame' hlast' (by simp [hkind]), if_pos hdispatch, Nat.add_comm]
      exact hran.remaining
    | finished hdispatch hkind hran hleft =>
      -- nothing follows a finish
      obtain rfl : es = [] := by
        cases es with
        | nil => rfl
        | cons x es =>
          cases (List.isChain_cons_cons.mp hrest).1 with
          | stopped hd => exact absurd hd (by simp [hkind, ProcessEventKind.dispatches])
          | finished hd => exact absurd hd (by simp [hkind, ProcessEventKind.dispatches])
          | resumed hd => exact absurd (hkind.symm.trans hd) (by simp)
      have hzero : held [e] t = 0 := by simp [held, hkind, ProcessEventKind.dispatches]
      have hremaining := hran.remaining
      rw [hzero, if_pos hdispatch, Nat.add_zero]
      rwa [hleft, Nat.zero_add] at hremaining
    | resumed hstopped hkind hwaited =>
      rw [ih hrest hsame' hlast' (by simp [hkind]), hwaited.remaining, hstopped]
      exact Nat.zero_add _

/-- **An accounted process has held the processor for its run time.** -/
theorem Accounted.held_eq (h : Accounted p es) (t : Tick) : held es t = p.runTime := by
  obtain ⟨n, hkinds⟩ := h.kinds
  cases es with
  | nil => exact absurd hkinds (by simp)
  | cons d es =>
    have hd : d.kind = .started := (List.cons.inj hkinds).1
    have habout := List.forall_mem_cons.mp h.about
    rw [held_of_isChain h.follows, (h.starts d rfl).2.1]
    · exact fun e he => (habout.2 e he).process.trans habout.1.process.symm
    · intro x hx
      have hlast := congrArg List.getLast? hkinds
      rw [List.getLast?_map, hx, List.getLast?_concat] at hlast
      exact Option.some.inj hlast
    · simp [hd]

/-- A log tells that a process has finished. -/
def EventLog.hasFinished (log : EventLog) (p : Process) : Bool :=
  (log.eventsFor p.id).any fun e => e.kind = .finished

/-- A process that is gone has held the processor for its run time if it has finished, and else not
at all. -/
theorem EventLog.Gone.held_eq {log : EventLog} (h : log.Gone p) (t : Tick) :
    held (log.eventsFor p.id) t = if log.hasFinished p then p.runTime else 0 := by
  cases h with
  | finished hrequests hevents =>
    obtain ⟨n, hkinds⟩ := hevents.kinds
    have hfinished : log.hasFinished p = true := by
      have hmem : ProcessEventKind.finished ∈ (log.eventsFor p.id).map ProcessEvent.kind :=
        hkinds ▸ List.mem_append_right _ (List.mem_singleton_self _)
      obtain ⟨e, he, hkind⟩ := List.mem_map.mp hmem
      exact List.any_eq_true.mpr ⟨e, he, decide_eq_true hkind⟩
    rw [hevents.held_eq, hfinished, if_pos rfl]
  | rejected hrequests hevents =>
    rw [EventLog.hasFinished, hevents]
    rfl

/-- **The time held is the run time of the finished processes.** -/
theorem EventLog.held_eq {log : EventLog} {ps : List Process} (hnodup : (ps.map Process.id).Nodup)
    (hgone : ∀ p ∈ ps, log.Gone p) (hknown : ∀ e ∈ log.process, e.process ∈ ps.map Process.id)
    (t : Tick) : held log.process t = ((ps.filter log.hasFinished).map Process.runTime).sum := by
  rw [held_eq_sum hnodup hknown, List.map_map]
  have hall : ∀ p ∈ ps, ((fun id => held (log.process.filter fun e => e.process == id) t) ∘
      Process.id) p = if log.hasFinished p then p.runTime else 0 := fun p hp => (hgone p hp).held_eq t
  rw [List.map_congr_left hall]
  clear hnodup hgone hknown hall
  induction ps with
  | nil => rfl
  | cons p ps ih =>
    rw [List.map_cons, List.sum_cons, ih]
    cases hp : log.hasFinished p with
    | true => rw [List.filter_cons_of_pos hp, List.map_cons, List.sum_cons, if_pos rfl]
    | false =>
      rw [List.filter_cons_of_neg (by simp [hp]), if_neg Bool.false_ne_true, Nat.zero_add]

end Uniprocessor
