import Uniprocessor.Proofs.Machine.Service
import Uniprocessor.Proofs.Simulation.Proper

/-!
# First come, first served

Where a policy makes no difference among the processes of a workload, its run serves those that are
admitted one after the other, in the order of admission.  Two such policies let the same happen:
before every tick the same processes run and wait, in the same order, whatever the structure they
wait in.  So the logs and the figures of their runs are the same, or both runs are refused.

* `Machine.InOrder`, `Machine.Paired`: machines that serve in the order of admission, one and two;
* `Simulation.Paired.step`, `Paired.runFor`: **two such runs do the same in every tick**;
* `Simulation.run_impartial`: **impartial policies come down to first come, first served.**
-/

namespace Uniprocessor

namespace Machine

variable {m m' n n' : Machine} {c c' : Config} {key key' : Nat} {f g tick : Tick}
  {admitted : List Process} {line : List Slot} {p : Process}

/-- A machine that serves the processes that were admitted in their order. -/
structure InOrder (m : Machine) (c : Config) (key : Nat) (f g : Tick) (admitted : List Process)
    (line : List Slot) : Prop where
  sound : m.Sound []
  timely : m.Timely f
  obeys : m.Obeys c
  attends : m.Attends key f g admitted line

/-- Two machines that serve the same processes in their order, and have logged and counted the same.
-/
structure Paired (m n : Machine) (c c' : Config) (key key' : Nat) (f g : Tick)
    (admitted : List Process) : Prop where
  twins : m.Twins n
  log : n.journal.log = m.journal.log
  metrics : n.metrics = m.metrics
  inOrder : ∃ line, m.InOrder c key f g admitted line ∧ n.InOrder c' key' f g admitted line

theorem Attends.queued (h : m.Attends key f g admitted line) : m.ready.Line key line := by
  cases h with
  | idle served waiting line hrun hlined => exact hlined.queued
  | busy served p waiting line start slot b hrun hslot hid hlined => exact hlined.queued

theorem InOrder.reported (h : m.InOrder c key tick tick admitted line) {reports : List UnitReport}
    (hr : Reported m tick reports m') (hm' : m'.Sound []) :
    m'.InOrder c key (tick + 1) tick admitted line :=
  ⟨hm', h.timely.reported h.sound hr, h.obeys.reported hr, h.attends.reported h.sound h.timely hr⟩

theorem InOrder.arrive (h : m.InOrder c key (tick + 1) tick admitted line)
    (hrated : c.policy.Rates key p) (harrival : p.arrival = tick) {admission : Admission}
    {s : Scheduler} (hs : m.toScheduler.arrive tick p = .done admission s) :
    (admission = .rejected p.id ∧
      (m.withScheduler s).InOrder c key (tick + 1) tick admitted line) ∨
    ∃ block : Buddy.Block, admission = .admitted p.id block.range ∧
      (m.withScheduler s).InOrder c key (tick + 1) tick (admitted ++ [p])
        (line ++ [(m.table.insert (.ofProcess p block)).1]) := by
  have ha : m.toScheduler.Arrival tick p (.done admission s) := hs ▸ h.sound.scheduler.arrival tick p
  have hsound := h.sound.arrive tick p
  rw [Machine.arrive, schedule, hs] at hsound
  have htimely := h.timely.arrival h.sound ha
  have hobeys := h.obeys.arrival ha
  rw [← h.obeys.policy] at hrated
  rcases h.attends.arrival h.sound hrated harrival ha with ⟨rfl, hattends⟩ | ⟨block, rfl, hattends⟩
  · exact Or.inl ⟨rfl, hsound, htimely, hobeys, hattends⟩
  · exact Or.inr ⟨block, rfl, hsound, htimely, hobeys, hattends⟩

theorem InOrder.runTick (h : m.InOrder c key (tick + 1) tick admitted line) (hturn : Turn m tick m')
    (hm' : m'.Sound []) (hrun : m.runTick tick = .done () m') :
    ∃ line', m'.InOrder c key (tick + 1) (tick + 1) admitted line' ∧
      Dispatched m tick line m' line' := by
  obtain ⟨hpolicy, -, -⟩ := runTick_counted hrun
  obtain ⟨line', hattends, hdispatched⟩ := h.attends.turn h.sound h.timely hturn hpolicy
  exact ⟨line', ⟨hm', h.timely.turn h.sound hturn, h.obeys.runTick hrun, hattends⟩, hdispatched⟩

/-! ## Two machines -/

/-- The reports of a tick are the same. -/
theorem Paired.reported (h : m.Paired n c c' key key' tick tick admitted)
    {reports reports' : List UnitReport} (hsame : reports' = reports)
    (hr : Reported m tick reports m') (hm' : m'.Sound []) (hr' : Reported n tick reports' n')
    (hn' : n'.Sound []) : m'.Paired n' c c' key key' (tick + 1) tick admitted := by
  obtain ⟨line, hm, hn⟩ := h.inOrder
  obtain ⟨htwins, es, ms, hnoted, hnoted'⟩ := h.twins.reported hsame hr hr'
  exact ⟨htwins, hnoted.log_eq hnoted' h.log, hnoted.metrics_eq hnoted' h.metrics, line,
    hm.reported hr hm', hn.reported hr' hn'⟩

/-- An arrival is answered alike. -/
theorem Paired.arrive (h : m.Paired n c c' key key' (tick + 1) tick admitted)
    (hcapacity : c'.readyCapacity = c.readyCapacity) (hrated : c.policy.Rates key p)
    (hrated' : c'.policy.Rates key' p) (harrival : p.arrival = tick) :
    (∃ admission m' n' more, m.arrive tick p = .done admission m' ∧
      n.arrive tick p = .done admission n' ∧ more.Sublist [p] ∧
      m'.Paired n' c c' key key' (tick + 1) tick (admitted ++ more)) ∨
    ∃ e m' n', m.arrive tick p = .refused e m' ∧ n.arrive tick p = .refused e n' := by
  obtain ⟨line, hm, hn⟩ := h.inOrder
  have hsize : n.ready.size = m.ready.size := by
    rw [hm.attends.queued.size_eq hm.sound.scheduler.ready,
      hn.attends.queued.size_eq hn.sound.scheduler.ready]
  have hroom : n.ready.capacity = m.ready.capacity := by
    rw [hn.obeys.capacity, hm.obeys.capacity, hcapacity]
  rcases h.twins.arrive hm.sound hn.sound hsize hroom tick p with
    ⟨admission, s, s', hs, hs', htwins, ms, hnoted, hnoted'⟩ | ⟨e, s, s', hs, hs'⟩
  · have hdone : m.arrive tick p = .done admission (m.withScheduler s) :=
      congrArg (Attempt.within · _) hs
    have hdone' : n.arrive tick p = .done admission (n.withScheduler s') :=
      congrArg (Attempt.within · _) hs'
    have hlog := hnoted.log_eq hnoted' h.log
    have hmetrics := hnoted.metrics_eq hnoted' h.metrics
    refine Or.inl ⟨admission, m.withScheduler s, n.withScheduler s', ?_⟩
    rcases hm.arrive hrated harrival hs with ⟨rfl, hm'⟩ | ⟨block, rfl, hm'⟩
    · rcases hn.arrive hrated' harrival hs' with ⟨-, hn'⟩ | ⟨block', hother, -⟩
      · refine ⟨[], hdone, hdone', List.nil_sublist _, htwins, hlog, hmetrics, line, ?_⟩
        rw [List.append_nil]
        exact ⟨hm', hn'⟩
      · exact absurd hother (by simp)
    · rcases hn.arrive hrated' harrival hs' with ⟨hother, -⟩ | ⟨block', -, hn'⟩
      · exact absurd hother (by simp)
      · rw [h.twins.table, ProcessTable.fst_insert m.table _ (.ofProcess p block)] at hn'
        exact ⟨[p], hdone, hdone', List.Sublist.refl _, htwins, hlog, hmetrics, _, hm', hn'⟩
  · exact Or.inr ⟨e, _, _, congrArg (Attempt.within · _) hs, congrArg (Attempt.within · _) hs'⟩

/-- The end of a tick gives the processor to the same process. -/
theorem Paired.runTick (h : m.Paired n c c' key key' (tick + 1) tick admitted)
    (hturn : Turn m tick m') (hm' : m'.Sound []) (hrun : m.runTick tick = .done () m')
    (hturn' : Turn n tick n') (hn' : n'.Sound []) (hrun' : n.runTick tick = .done () n') :
    m'.Paired n' c c' key key' (tick + 1) (tick + 1) admitted := by
  obtain ⟨line, hm, hn⟩ := h.inOrder
  obtain ⟨line₁, hm₁, hdispatched⟩ := hm.runTick hturn hm' hrun
  obtain ⟨line₂, hn₂, hdispatched'⟩ := hn.runTick hturn' hn' hrun'
  obtain ⟨rfl, htwins, es, hlog, hlog'⟩ := h.twins.dispatched hdispatched hdispatched'
  refine ⟨htwins, by rw [hlog, hlog', h.log], ?_, line₂, hm₁, hn₂⟩
  rw [(runTick_counted hrun).2.2, (runTick_counted hrun').2.2, h.metrics, htwins.running]

/-- A new machine serves those who have been admitted, since nobody has. -/
theorem attends_fresh (c : Config) (expected key : Nat) :
    (fresh c expected).Attends key 0 0 [] [] := by
  have hnobody : ∀ {P : Process → Prop}, ∀ p ∈ ([] : List Process), P p := fun _ hp =>
    absurd hp List.not_mem_nil
  exact .idle [] [] [] rfl
    ⟨ReadyQueue.line_ofPolicy c.policy c.readyCapacity key, .nil, hnobody, hnobody⟩ rfl rfl
    (Nat.le_refl 0) hnobody

/-- Where nothing is left, all have been served who were admitted. -/
theorem Attends.cleared (h : m.Attends key f g admitted line) (hcleared : m.Cleared) (hm : m.Sound []) :
    m.journal.log.outline = timetable 0 admitted ∧
      m.journal.log.admitted = admitted.map Process.id := by
  cases h with
  | busy served p waiting line start slot b hrun =>
    exact absurd (hrun.symm.trans hcleared.running) (by simp)
  | idle served waiting line hrun hlined houtline hadmitted =>
    obtain ⟨rfl, rfl⟩ := hlined.nil_of_ready (hm.toList_ready_eq_nil hcleared.table)
    rw [List.append_nil] at hadmitted ⊢
    exact ⟨houtline, hadmitted⟩

end Machine

namespace Simulation

open Machine

variable {m m' n n' : Machine} {ps : List Process} {s s' : Simulation} {c c' : Config} {w : Workload}
  {key key' k : Nat} {tick : Tick} {admitted : List Process}

/-- A list of arrivals is answered alike. -/
theorem admitAll_paired (h : m.Paired n c c' key key' (tick + 1) tick admitted)
    (hcapacity : c'.readyCapacity = c.readyCapacity) (hrated : ∀ p ∈ ps, c.policy.Rates key p)
    (hrated' : ∀ p ∈ ps, c'.policy.Rates key' p) (harrival : ∀ p ∈ ps, p.arrival = tick) :
    (∃ m' n' more, admitAll m tick ps = .done () m' ∧ admitAll n tick ps = .done () n' ∧
      more.Sublist ps ∧ m'.Paired n' c c' key key' (tick + 1) tick (admitted ++ more)) ∨
    ∃ e m' n', admitAll m tick ps = .refused e m' ∧ admitAll n tick ps = .refused e n' := by
  induction ps generalizing m n admitted with
  | nil =>
    refine Or.inl ⟨m, n, [], rfl, rfl, List.Sublist.refl _, ?_⟩
    rw [List.append_nil]
    exact h
  | cons p ps ih =>
    obtain ⟨hp, hrated⟩ := List.forall_mem_cons.mp hrated
    obtain ⟨hp', hrated'⟩ := List.forall_mem_cons.mp hrated'
    obtain ⟨htick, harrival⟩ := List.forall_mem_cons.mp harrival
    rw [admitAll_cons, admitAll_cons]
    rcases h.arrive hcapacity hp hp' htick with
      ⟨admission, m₁, n₁, more, hm, hn, hmore, hpaired⟩ | ⟨e, m₁, n₁, hm, hn⟩
    · rw [hm, hn, Attempt.andThen_done, Attempt.andThen_done]
      rcases ih hpaired hrated hrated' harrival with
        ⟨m', n', rest, hm', hn', hrest, hpaired'⟩ | hrefused
      · rw [List.append_assoc] at hpaired'
        exact Or.inl ⟨m', n', more ++ rest, hm', hn', hmore.append hrest, hpaired'⟩
      · exact Or.inr hrefused
    · rw [hm, hn]
      exact Or.inr ⟨e, m₁, n₁, rfl, rfl⟩

/-- Two runs of the same processes under policies that serve them in the order of admission. -/
structure Paired (s s' : Simulation) (c c' : Config) (w : Workload) (key key' : Nat) : Prop where
  proper : s.Proper c w
  proper' : s'.Proper c' w
  tick : s'.tick = s.tick
  pending : s'.pending = s.pending
  machines : ∃ admitted, s.machine.Paired s'.machine c c' key key' s.tick s.tick admitted ∧
    (admitted ++ s.pending).Sublist w.processes

/-- What two runs of the same processes come to: both go on, or are over, or are refused. -/
inductive Alongside (c c' : Config) (w : Workload) (key key' : Nat) :
    TickOutcome → TickOutcome → Prop
  | running (next next' : Simulation) (h : next.Paired next' c c' w key key') :
      Alongside c c' w key key' (.running next) (.running next')
  | finished (m n : Machine) (t : Tick) (admitted : List Process)
      (hlog : n.journal.log = m.journal.log) (hmetrics : n.metrics = m.metrics)
      (hadmitted : admitted.Sublist w.processes)
      (houtline : m.journal.log.outline = timetable 0 admitted)
      (hids : m.journal.log.admitted = admitted.map Process.id) :
      Alongside c c' w key key' (.finished m t) (.finished n t)
  | failed (m n : Machine) :
      Alongside c c' w key key' (.failed (.full c.readyCapacity) m) (.failed (.full c'.readyCapacity) n)

/-- The beginning of a tick is the same in both runs. -/
theorem Paired.settle (h : s.Paired s' c c' w key key') (hcapacity : c'.readyCapacity = c.readyCapacity)
    (hsorted : w.processes.Pairwise fun p q => p.arrival ≤ q.arrival)
    (hrated : ∀ p ∈ w.processes, c.policy.Rates key p)
    (hrated' : ∀ p ∈ w.processes, c'.policy.Rates key' p) :
    (∃ m n admitted, s.settle = .done () m ∧ s'.settle = .done () n ∧
      m.Paired n c c' key key' (s.tick + 1) s.tick admitted ∧
      (admitted ++ notDue s.pending s.tick).Sublist w.processes) ∨
    ∃ e m n, s.settle = .refused e m ∧ s'.settle = .refused e n := by
  obtain ⟨admitted, hpaired, hsublist⟩ := h.machines
  obtain ⟨m₁, hdeliver, hreported, hm₁⟩ := h.proper.underway.ongoing.sound.report s.tick
  obtain ⟨n₁, hdeliver', hreported', hn₁⟩ := h.proper'.underway.ongoing.sound.report s.tick
  have hpaired₁ := hpaired.reported (hpaired.twins.reports s.tick) hreported hm₁ hreported' hn₁
  have hdue := h.proper.arrival_eq hsorted
  rw [settle_eq, settle_eq, h.tick, h.pending, hdeliver, hdeliver', Attempt.andThen_done,
    Attempt.andThen_done]
  refine (admitAll_paired hpaired₁ hcapacity (fun p hp => hrated p (hdue p hp).1)
    (fun p hp => hrated' p (hdue p hp).1) fun p hp => (hdue p hp).2).imp_left ?_
  rintro ⟨m, n, more, hm, hn, hmore, hpaired₂⟩
  have hrest := hmore.append_right (notDue s.pending s.tick)
  rw [due_append_notDue] at hrest
  refine ⟨m, n, admitted ++ more, hm, hn, hpaired₂, ?_⟩
  rw [List.append_assoc]
  exact ((List.Sublist.refl admitted).append hrest).trans hsublist

/-- **Two such runs do the same in a tick.** -/
theorem Paired.step (h : s.Paired s' c c' w key key') (hcapacity : c'.readyCapacity = c.readyCapacity)
    (hsorted : w.processes.Pairwise fun p q => p.arrival ≤ q.arrival)
    (hrated : ∀ p ∈ w.processes, c.policy.Rates key p)
    (hrated' : ∀ p ∈ w.processes, c'.policy.Rates key' p) :
    Alongside c c' w key key' s.step s'.step := by
  rcases h.settle hcapacity hsorted hrated hrated' with
    ⟨m, n, admitted, hm, hn, hpaired, hsublist⟩ | ⟨e, m, n, hm, hn⟩
  · obtain ⟨line, hinOrder, hinOrder'⟩ := hpaired.inOrder
    -- as many are left in both runs, so both are over or both go on
    have hleft : n.outstanding = m.outstanding := by
      have hawaits := h.proper.underway.awaits_of_settle hm
      have hawaits' := h.proper'.underway.awaits_of_settle hn
      rw [Awaits] at hawaits hawaits'
      rw [hawaits, hawaits', hpaired.twins.table, h.pending, h.tick]
    rcases step_of_settle hm hinOrder.sound with
      ⟨hdone, hstep⟩ | ⟨m', hmore, hstep, hrun, hturn, hm'⟩
    · rcases step_of_settle hn hinOrder'.sound with ⟨hdone', hstep'⟩ | ⟨n', hmore', -⟩
      · obtain ⟨-, hcleared, -⟩ := h.proper.underway.finish hstep
        obtain ⟨houtline, hids⟩ := hinOrder.attends.cleared hcleared hinOrder.sound
        rw [hstep, hstep', h.tick]
        exact .finished m n s.tick admitted hpaired.log hpaired.metrics
          ((List.sublist_append_left _ _).trans hsublist) houtline hids
      · exact absurd (hleft.trans hdone) hmore'
    · rcases step_of_settle hn hinOrder'.sound with
        ⟨hdone', -⟩ | ⟨n', hmore', hstep', hrun', hturn', hn'⟩
      · exact absurd (hleft.symm.trans hdone') hmore
      · have hnext := h.proper.step hstep
        have hnext' := h.proper'.step hstep'
        rw [h.tick] at hturn' hrun'
        rw [hstep, hstep']
        exact .running _ _ ⟨hnext, hnext', congrArg (· + 1) h.tick, by rw [h.pending, h.tick],
          admitted, hpaired.runTick hturn hm' hrun hturn' hn' hrun', hsublist⟩
  · have hstep := step_of_refused hm
    have hstep' := step_of_refused hn
    obtain ⟨he, -⟩ := h.proper.underway.fail (n := 0) hstep rfl
    obtain ⟨he', -⟩ := h.proper'.underway.fail (n := 0) hstep' rfl
    have hfailed : Alongside c c' w key key' _ _ := .failed m n
    rw [← he, ← he'] at hfailed
    rw [hstep, hstep']
    exact hfailed

theorem Paired.runFor (h : s.Paired s' c c' w key key') (hcapacity : c'.readyCapacity = c.readyCapacity)
    (hsorted : w.processes.Pairwise fun p q => p.arrival ≤ q.arrival)
    (hrated : ∀ p ∈ w.processes, c.policy.Rates key p)
    (hrated' : ∀ p ∈ w.processes, c'.policy.Rates key' p) (k : Nat) :
    Alongside c c' w key key' (runFor k s) (runFor k s') := by
  induction k generalizing s s' with
  | zero => exact .running s s' h
  | succ k ih =>
    have hstep := h.step hcapacity hsorted hrated hrated'
    rw [Simulation.runFor, Simulation.runFor]
    generalize s.step = x at hstep
    generalize s'.step = y at hstep
    cases hstep with
    | running next next' hnext => exact ih hnext
    | finished m n t admitted hlog hmetrics hadmitted houtline hids =>
      exact .finished m n t admitted hlog hmetrics hadmitted houtline hids
    | failed m n => exact .failed m n

/-- Two runs of the same workload are paired when they start. -/
theorem start_paired (hc : c.Valid) (hc' : c'.Valid) (harena : c'.arena = c.arena)
    (hw : Workload.ofList ps = .ok w) (key key' : Nat) :
    ∃ s s', start c w = .ok s ∧ start c' w = .ok s' ∧ s.tick = 0 ∧ s.Paired s' c c' w key key' := by
  obtain ⟨s, hstart, hs, htick, -⟩ := start_proper hc hw
  obtain ⟨s', hstart', hs', htick', -⟩ := start_proper hc' hw
  obtain rfl := Except.ok.inj ((start_eq hc w).symm.trans hstart)
  obtain rfl := Except.ok.inj ((start_eq hc' w).symm.trans hstart')
  have hgo := hs.underway.ongoing
  have hgo' := hs'.underway.ongoing
  have hmemory : Buddy.ofOrder c'.arena.log2 = Buddy.ofOrder c.arena.log2 := by rw [harena]
  exact ⟨_, _, hstart, hstart', rfl, hs, hs', rfl, rfl, [], ⟨⟨rfl, hmemory, rfl, rfl⟩, rfl, rfl, [],
    ⟨hgo.sound, hgo.timely, hs.underway.obeys, attends_fresh c w.size key⟩,
    ⟨hgo'.sound, hgo'.timely, hs'.underway.obeys, attends_fresh c' w.size key'⟩⟩,
    List.Sublist.refl _⟩

/-- What two runs of the same workload come to that are paired. -/
theorem run_paired (hc : c.Valid) (hc' : c'.Valid) (harena : c'.arena = c.arena)
    (hcapacity : c'.readyCapacity = c.readyCapacity) (hw : Workload.ofList ps = .ok w)
    (himpartial : c.policy.Impartial w.processes) (himpartial' : c'.policy.Impartial w.processes) :
    (∃ r r' admitted, run c w = .ok r ∧ run c' w = .ok r' ∧ r'.events = r.events ∧
      r'.summary = r.summary ∧ admitted.Sublist w.processes ∧
      r.events.admitted = admitted.map Process.id ∧ r.events.outline = timetable 0 admitted) ∨
    run c w = .error (.full c.readyCapacity) ∧ run c' w = .error (.full c'.readyCapacity) := by
  obtain ⟨key, hrated⟩ := himpartial.exists_key
  obtain ⟨key', hrated'⟩ := himpartial'.exists_key
  obtain ⟨s, s', hstart, hstart', htick, hpaired⟩ := start_paired hc hc' harena hw key key'
  have hended := runFor_horizon_ne hpaired.proper.underway.ongoing htick
  have hruns := hpaired.runFor hcapacity (Workload.pairwise_ofList hw) hrated hrated' (horizon w + 1)
  rw [run, run, finish, finish, hstart, hstart']
  simp only [Except.map]
  generalize runFor (horizon w + 1) s = x at hruns hended
  generalize runFor (horizon w + 1) s' = y at hruns
  cases hruns with
  | running next next' => exact absurd rfl (hended next)
  | finished m n t admitted hlog hmetrics hadmitted houtline hids =>
    exact Or.inl ⟨m.report, n.report, admitted, rfl, rfl, hlog, congrArg Metrics.summary hmetrics,
      hadmitted, hids, houtline⟩
  | failed m n => exact Or.inr ⟨rfl, rfl⟩

/-- **Impartial policies come down to first come, first served.**  Where priorities are equal under
highest priority first, run times are equal under shortest remaining time next, or no run time is
longer than a turn under round robin, the processes that are admitted are served one after the
other, in the order of admission and each to its end.  So any two such policies give the same events
and the same figures, or both runs are refused for the same lack of room. -/
theorem run_impartial {c : Config} (hc : c.Valid) {ps : List Process} {w : Workload}
    (hw : Workload.ofList ps = .ok w) (himpartial : c.policy.Impartial w.processes) :
    (∀ r, run c w = .ok r → ∃ admitted : List Process, admitted.Sublist w.processes ∧
      r.events.admitted = admitted.map Process.id ∧ r.events.outline = timetable 0 admitted ∧
      ∀ e ∈ r.events.process, e.kind ≠ .stopped) ∧
    ∀ other : Policy, { c with policy := other }.Valid → other.Impartial w.processes →
      (∃ r r', run c w = .ok r ∧ run { c with policy := other } w = .ok r' ∧
        r'.events = r.events ∧ r'.summary = r.summary) ∨
      run c w = .error (.full c.readyCapacity) ∧
        run { c with policy := other } w = .error (.full c.readyCapacity) := by
  refine ⟨fun r hr => ?_, fun other hc' himpartial' => ?_⟩
  · rcases run_paired hc hc rfl rfl hw himpartial himpartial with
      ⟨r₁, -, admitted, hr₁, -, -, -, hsublist, hids, houtline⟩ | ⟨herror, -⟩
    · obtain rfl : r₁ = r := Except.ok.inj (hr₁.symm.trans hr)
      exact ⟨admitted, hsublist, hids, houtline, EventLog.not_stopped_of_outline houtline⟩
    · exact absurd (hr.symm.trans herror) (by simp)
  · refine (run_paired hc hc' rfl rfl hw himpartial himpartial').imp_left ?_
    rintro ⟨r, r', -, hr, hr', hevents, hsummary, -⟩
    exact ⟨r, r', hr, hr', hevents, hsummary⟩

/-- Three processes of the same length under round robin and under shortest remaining time next: the
second one has come before the first one is finished, and the third one comes late. -/
theorem run_impartial_three :
    ∃ (c : Config) (ps : List Process) (w : Workload) (r r' : Report), c.Valid ∧
      { c with policy := .shortestRemainingTimeNext }.Valid ∧ Workload.ofList ps = .ok w ∧
      c.policy.Impartial w.processes ∧ Policy.Impartial .shortestRemainingTimeNext w.processes ∧
      run c w = .ok r ∧ run { c with policy := .shortestRemainingTimeNext } w = .ok r' ∧
      r.events.outline = [(.started, 1, 1), (.finished, 1, 3), (.started, 2, 3), (.finished, 2, 5),
        (.started, 3, 7), (.finished, 3, 9)] ∧ (∀ e ∈ r.events.process, e.kind ≠ .stopped) ∧
      r'.events = r.events ∧ r'.summary = r.summary := by
  let c : Config := { policy := .roundRobin 2, readyCapacity := 2 }
  let ps : List Process := [⟨1, 1, 2, 4, 100⟩, ⟨2, 2, 2, 0, 100⟩, ⟨3, 7, 2, 9, 100⟩]
  have hc : c.Valid := by decide
  have hc' : { c with policy := .shortestRemainingTimeNext }.Valid := by decide
  have hw : Workload.ofList ps = .ok ⟨ps⟩ := Workload.ofList_of_pairwise rfl (by decide)
  have himpartial : c.policy.Impartial ps := by decide
  have himpartial' : Policy.Impartial .shortestRemainingTimeNext ps := by decide
  have hrun : ((run c ⟨ps⟩).toOption.map fun r => r.events.outline) =
      some [(.started, 1, 1), (.finished, 1, 3), (.started, 2, 3), (.finished, 2, 5),
        (.started, 3, 7), (.finished, 3, 9)] := by decide +kernel
  obtain ⟨r, hr, houtline⟩ := exists_of_toOption_map hrun
  obtain ⟨hserved, htwo⟩ := run_impartial hc hw himpartial
  obtain ⟨-, -, -, -, hnone⟩ := hserved r hr
  rcases htwo _ hc' himpartial' with ⟨r₁, r', hr₁, hr', hevents, hsummary⟩ | ⟨herror, -⟩
  · obtain rfl : r₁ = r := Except.ok.inj (hr₁.symm.trans hr)
    exact ⟨c, ps, ⟨ps⟩, r₁, r', hc, hc', hw, himpartial, himpartial', hr, hr', houtline, hnone,
      hevents, hsummary⟩
  · exact absurd (hr.symm.trans herror) (by simp)

end Simulation
end Uniprocessor
