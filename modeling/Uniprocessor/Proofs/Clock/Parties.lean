import Uniprocessor.Proofs.Clock.Attendance

/-!
# What the parties around the clock can rely on

The clock moves only past a tick that has been settled, so it is never more than one tick ahead of
the settled ones.  Between the look at the clock and the settling of what it showed somebody may
still move it, and between the settling and the stop there may be anything; that all this makes no
difference is the invariant `Clockwork.Regular`, which every step of every party keeps.

A subscriber that listens has been sent the ticks after the one it subscribed at, up to the current
one.  The others do not come into this: the clock sends each of them the same tick, and what becomes
of one channel does not concern another one.

After a stop all this stays as it is.  A subscriber that listens has still been sent the ticks up to
the current one, and this tick does not change any more, so nothing is missing and nothing is added.

* `Clockwork.Regular`, `Regular.step`: the invariant, one lemma for each kind of step;
* `Clockwork.Later`, `Regular.later_run`: what never goes back;
* `Clockwork.Attended`: what those have been sent who have subscribed;
* `Clockwork.Halted`, `Regular.halted`: **a stop puts an end to everything**;
* `Clockwork.run_punctual`: **in every order of steps the clock keeps its promises.**
-/

namespace Uniprocessor

namespace Clock

variable {c : Clock}

theorem isSettled_iff : c.isSettled = true ↔ ∃ k, c.settled = some k ∧ c.tick ≤ k := by
  rw [isSettled]
  cases c.settled with
  | none => simp
  | some k => simp

/-- The latest settled tick counts. -/
theorem settled_settle {ticks : List Tick} (h : c.settled = ticks.max?) (tick : Tick) :
    (c.settle tick).settled = (tick :: ticks).max? := by
  rw [List.max?_cons, ← h, settle]
  cases c.settled with
  | none => rfl
  | some k => exact congrArg some (Nat.max_comm k tick)

end Clock

/-- What the pacer knows of a clock and of the ticks it has settled. -/
def Pacer.Knows (clock : Clock) (settles : List Tick) : Pacer → Prop
  | idle => True
  | seen tick => tick ≤ clock.tick ∧ ∀ k ∈ settles, k ≤ tick
  | awaiting tick => tick ∈ settles ∧ ∀ k ∈ settles, k ≤ tick
  | answered tick (some next) => next = tick + 1
  | answered _ none => clock.stopped = true

/-- What the party that moves a clock knows of it. -/
def ClockDriver.Knows (clock : Clock) (settles : List Tick) : ClockDriver → Prop
  | waiting => True
  | advancing => clock.stopped = true ∨ ∃ k ∈ settles, clock.tick ≤ k
  | ended => clock.stopped = true

/-- The clock may move and be stopped without the pacer's noticing. -/
theorem Pacer.Knows.mono {pacer : Pacer} {c c' : Clock} {settles : List Tick}
    (h : pacer.Knows c settles) (htick : c.tick ≤ c'.tick)
    (hstopped : c.stopped = true → c'.stopped = true) : pacer.Knows c' settles := by
  cases pacer with
  | idle => trivial
  | seen tick => exact ⟨Nat.le_trans h.1 htick, h.2⟩
  | awaiting tick => exact h
  | answered tick next? =>
    cases next? with
    | none => exact hstopped h
    | some next => exact h

/-- While the clock stands still, ticks may be settled and it may be stopped. -/
theorem ClockDriver.Knows.mono {driver : ClockDriver} {c c' : Clock} {settles settles' : List Tick}
    (h : driver.Knows c settles) (htick : c'.tick = c.tick)
    (hstopped : c.stopped = true → c'.stopped = true) (hsettles : settles ⊆ settles') :
    driver.Knows c' settles' := by
  cases driver with
  | waiting => trivial
  | advancing =>
    exact h.imp hstopped fun ⟨k, hk, hle⟩ => ⟨k, hsettles hk, htick ▸ hle⟩
  | ended => exact hstopped h

namespace Clockwork

/-- A subscriber that has not hung up has been sent the ticks after the one it subscribed at, and
will be sent the next one unless the clock is stopped. -/
structure Hears (clock : Clock) (r : Subscriber) (m : Mailbox) : Prop where
  since : r.since ≤ clock.tick
  connected : m.connected = !clock.stopped
  ticks : r.taken ++ m.queue = List.range' (r.since + 1) (clock.tick - r.since)

/-- The state of a clock among its parties. -/
structure Regular (s : Clockwork) : Prop where
  numbered : s.subscribers.length = s.clock.mailboxes.length
  listed : s.clock.settled = s.settles.max?
  reached : ∀ k ∈ s.settles, k ≤ s.clock.tick
  ahead : s.clock.tick = 0 ∨ ∃ k ∈ s.settles, s.clock.tick ≤ k + 1
  driver : s.driver.Knows s.clock s.settles
  pacer : s.pacer.Knows s.clock s.settles
  hears : ∀ i r m, s.subscribers[i]? = some r → s.clock.mailbox? i = some m →
    m.listening = true → Hears s.clock r m

variable {s s' : Clockwork} {tick : Tick} {i : SubscriberId} {r : Subscriber} {m : Mailbox}

theorem regular_start : start.Regular where
  numbered := rfl
  listed := rfl
  reached _ hk := absurd hk List.not_mem_nil
  ahead := Or.inl rfl
  driver := trivial
  pacer := trivial
  hears i r m hr := absurd hr (by simp [start])

/-! ## The steps of the pacer -/

/-- Settling a tick that the clock has reached leaves everything but the pacer in order. -/
theorem Regular.settle (h : s.Regular) (htick : tick ≤ s.clock.tick) {pacer : Pacer}
    (hpacer : pacer.Knows (s.clock.settle tick) (tick :: s.settles)) :
    { s.settle tick with pacer := pacer }.Regular where
  numbered := h.numbered
  listed := Clock.settled_settle h.listed tick
  reached k hk := by
    rcases List.mem_cons.mp hk with rfl | hk
    · exact htick
    · exact h.reached k hk
  ahead := h.ahead.imp_right fun ⟨k, hk, hle⟩ => ⟨k, List.mem_cons_of_mem _ hk, hle⟩
  driver := h.driver.mono rfl id (List.subset_cons_self _ _)
  pacer := hpacer
  hears i r m hr hm hlistening :=
    let hears := h.hears i r m hr hm hlistening
    ⟨hears.since, hears.connected, hears.ticks⟩

/-- The pacer goes on to what it knows. -/
theorem Regular.withPacer (h : s.Regular) {pacer : Pacer}
    (hpacer : pacer.Knows s.clock s.settles) : { s with pacer := pacer }.Regular :=
  ⟨h.numbered, h.listed, h.reached, h.ahead, h.driver, hpacer, h.hears⟩

theorem Regular.settleStep (h : s.Regular) (hstep : s.step? (.settle tick) = some s') :
    s'.Regular := by
  rw [step?] at hstep
  split at hstep
  · rename_i hguard
    obtain rfl := Option.some.inj hstep
    rw [Bool.and_eq_true, decide_eq_true_eq] at hguard
    have hknows := h.pacer
    refine @Regular.settle s tick h hguard.2 s.pacer ?_
    cases hp : s.pacer with
    | idle => trivial
    | answered t next? =>
      rw [hp] at hknows
      cases next? <;> exact hknows
    | seen t => exact absurd hguard.1 (by simp [hp, Pacer.isFree])
    | awaiting t => exact absurd hguard.1 (by simp [hp, Pacer.isFree])
  · exact absurd hstep (by simp)

theorem Regular.look (h : s.Regular) (hstep : s.step? .look = some s') : s'.Regular := by
  rw [step?] at hstep
  split at hstep
  · obtain rfl := Option.some.inj hstep
    exact h.withPacer ⟨Nat.le_refl _, h.reached⟩
  · exact absurd hstep (by simp)

theorem Regular.settleSeen (h : s.Regular) (hstep : s.step? .settleSeen = some s') :
    s'.Regular := by
  have hknows := h.pacer
  rw [step?] at hstep
  split at hstep
  · rename_i t hp
    obtain rfl := Option.some.inj hstep
    rw [hp] at hknows
    refine h.settle hknows.1 ⟨List.mem_cons_self, ?_⟩
    intro k hk
    rcases List.mem_cons.mp hk with rfl | hk
    · exact Nat.le_refl _
    · exact hknows.2 k hk
  · exact absurd hstep (by simp)

/-- **The tick that the pacer is told of is the one after the tick it has settled.** -/
theorem Regular.awaken (h : s.Regular) (hstep : s.step? .awaken = some s') : s'.Regular := by
  have hknows := h.pacer
  rw [step?] at hstep
  split at hstep
  · rename_i t hp
    rw [hp] at hknows
    obtain ⟨next?, hnext, rfl⟩ := Option.map_eq_some_iff.mp hstep
    refine h.withPacer ?_
    unfold Clock.waitPast? at hnext
    split at hnext
    · rename_i hstopped
      obtain rfl := Option.some.inj hnext
      exact hstopped
    · split at hnext
      · rename_i hpast
        obtain rfl := Option.some.inj hnext
        show s.clock.tick = t + 1
        rcases h.ahead with hzero | ⟨k, hk, hle⟩
        · exact absurd hpast (hzero ▸ Nat.not_lt_zero t)
        · exact Nat.le_antisymm (Nat.le_trans hle (Nat.succ_le_succ (hknows.2 k hk))) hpast
      · exact absurd hnext (by simp)
  · exact absurd hstep (by simp)

/-! ## The steps of the party that moves the clock -/

/-- A subscriber that hears every tick hears the next one. -/
theorem Hears.advanced {c : Clock} (h : Hears c r m) (hrun : c.stopped = false)
    (hlistening : m.listening = true) : Hears c.advanced r (m.send (c.tick + 1)) := by
  have hconnected : m.connected = true := by rw [h.connected, hrun]; rfl
  have hsend : m.send (c.tick + 1) = { m with queue := m.queue ++ [c.tick + 1] } := by
    rw [Mailbox.send, if_pos hconnected, if_pos hlistening]
  refine ⟨Nat.le_succ_of_le h.since, ?_, ?_⟩
  · rw [hsend]
    exact h.connected
  · rw [hsend, ← List.append_assoc, h.ticks]
    show _ = List.range' (r.since + 1) (c.tick + 1 - r.since)
    rw [Nat.succ_sub h.since, List.range'_concat, Nat.one_mul, Nat.add_right_comm,
      Nat.add_sub_cancel' h.since]

/-- The clock moves past a settled tick. -/
theorem Regular.advance (h : s.Regular) (hrun : s.clock.stopped = false)
    (hsettled : ∃ k ∈ s.settles, s.clock.tick ≤ k) :
    { s with driver := .waiting, clock := s.clock.advanced }.Regular where
  numbered := h.numbered.trans (List.length_map _).symm
  listed := h.listed
  reached k hk := Nat.le_succ_of_le (h.reached k hk)
  ahead := by
    obtain ⟨k, hk, hle⟩ := hsettled
    exact Or.inr ⟨k, hk, Nat.succ_le_succ hle⟩
  driver := trivial
  pacer := h.pacer.mono (Nat.le_succ _) id
  hears i r m hr hm hlistening := by
    obtain ⟨m, hold, rfl⟩ := Option.map_eq_some_iff.mp ((s.clock.mailbox?_advanced i).symm.trans hm)
    have hlistening' : m.listening = true := (m.listening_send _).symm.trans hlistening
    exact (h.hears i r m hr hold hlistening').advanced hrun hlistening'

theorem Regular.withDriver (h : s.Regular) {driver : ClockDriver}
    (hdriver : driver.Knows s.clock s.settles) : { s with driver := driver }.Regular :=
  ⟨h.numbered, h.listed, h.reached, h.ahead, hdriver, h.pacer, h.hears⟩

theorem Regular.drive (h : s.Regular) (hstep : s.step? .drive = some s') : s'.Regular := by
  rw [step?] at hstep
  obtain ⟨⟨driver, clock⟩, hdrive, rfl⟩ := Option.map_eq_some_iff.mp hstep
  cases hstopped : s.clock.stopped with
  | false =>
    rcases ClockDriver.step?_cases hstopped hdrive with
      ⟨-, hsettled, rfl, rfl⟩ | ⟨hadvancing, rfl, rfl⟩
    · refine h.withDriver (Or.inr ?_)
      obtain ⟨k, hk, hle⟩ := Clock.isSettled_iff.mp hsettled
      exact ⟨k, List.max?_mem (h.listed ▸ hk), hle⟩
    · have hknows := h.driver
      rw [hadvancing] at hknows
      exact h.advance hstopped (hknows.resolve_left (by simp [hstopped]))
  | true =>
    obtain ⟨rfl, rfl⟩ := ClockDriver.step?_of_stopped hstopped hdrive
    exact @Regular.withDriver s h .ended hstopped

/-! ## The steps of everybody else -/

/-- What happens to the channels alone does not concern the pacer and the driver. -/
theorem Regular.withMailboxes (h : s.Regular) {clock : Clock} {subscribers : List Subscriber}
    (htick : clock.tick = s.clock.tick) (hsettled : clock.settled = s.clock.settled)
    (hstopped : clock.stopped = s.clock.stopped)
    (hnumbered : subscribers.length = clock.mailboxes.length)
    (hears : ∀ i r m, subscribers[i]? = some r → clock.mailbox? i = some m →
      m.listening = true → Hears clock r m) :
    { s with clock := clock, subscribers := subscribers }.Regular where
  numbered := hnumbered
  listed := hsettled.trans h.listed
  reached k hk := htick ▸ h.reached k hk
  ahead := by
    show clock.tick = 0 ∨ ∃ k ∈ s.settles, clock.tick ≤ k + 1
    rw [htick]
    exact h.ahead
  driver := h.driver.mono htick hstopped.trans (List.Subset.refl _)
  pacer := h.pacer.mono (Nat.le_of_eq htick.symm) hstopped.trans
  hears := hears

/-- What a subscriber hears depends on the clock by what it shows. -/
theorem Hears.congr {c c' : Clock} (h : Hears c r m) (htick : c'.tick = c.tick)
    (hstopped : c'.stopped = c.stopped) : Hears c' r m :=
  ⟨htick.symm ▸ h.since, hstopped.symm ▸ h.connected, htick.symm ▸ h.ticks⟩

theorem Regular.subscribe (h : s.Regular) (hstep : s.step? .subscribe = some s') :
    s'.Regular := by
  rw [step?] at hstep
  obtain rfl := Option.some.inj hstep
  refine h.withMailboxes rfl rfl rfl (by simp [Clock.subscribe, h.numbered]) ?_
  intro i r m hr hm hlistening
  rw [Clock.mailbox?_subscribe] at hm
  rw [List.getElem?_append, h.numbered] at hr
  by_cases hi : i = s.clock.mailboxes.length
  · rw [if_pos hi] at hm
    rw [hi, if_neg (Nat.lt_irrefl _), Nat.sub_self] at hr
    obtain rfl := Option.some.inj hr
    obtain rfl := Option.some.inj hm
    refine ⟨Nat.le_refl _, rfl, ?_⟩
    show [] = List.range' (s.clock.tick + 1) (s.clock.tick - s.clock.tick)
    rw [Nat.sub_self]
    rfl
  · rw [if_neg hi] at hm
    have hlt : i < s.clock.mailboxes.length := (List.getElem?_eq_some_iff.mp hm).1
    rw [if_pos hlt] at hr
    exact (h.hears i r m hr hm hlistening).congr rfl rfl

theorem Regular.take (h : s.Regular) (hstep : s.step? (.take i) = some s') : s'.Regular := by
  rw [step?] at hstep
  obtain ⟨⟨tick?, clock⟩, htake, rfl⟩ := Option.map_eq_some_iff.mp hstep
  rcases Clock.take?_cases htake with ⟨tick, rest, connected, hmailbox, rfl, rfl⟩ | ⟨rfl, rfl⟩
  · refine h.withMailboxes rfl rfl rfl ?_ ?_
    · rw [List.length_modify, Clock.length_modifyMailbox]
      exact h.numbered
    · intro j r m hr hm hlistening
      rw [Clock.mailbox?_modify] at hm
      rw [List.getElem?_modify] at hr
      obtain ⟨r₀, hr₀, rfl⟩ := Option.map_eq_some_iff.mp hr
      by_cases hij : i = j
      · -- the tick goes from the channel to what has been taken
        subst hij
        rw [if_pos rfl, hmailbox] at hm
        obtain rfl := Option.some.inj hm
        have hold := h.hears i r₀ _ hr₀ hmailbox rfl
        rw [if_pos rfl]
        exact ⟨hold.since, hold.connected, (List.append_assoc r₀.taken [tick] rest).trans hold.ticks⟩
      · rw [if_neg hij] at hm ⊢
        exact (h.hears j r₀ m hr₀ hm hlistening).congr rfl rfl
  · refine h.withMailboxes rfl rfl rfl ?_ ?_
    · rw [List.length_modify]
      exact h.numbered
    · intro j r m hr hm hlistening
      rw [List.getElem?_modify] at hr
      obtain ⟨r', hr', rfl⟩ := Option.map_eq_some_iff.mp hr
      have hold := h.hears j r' m hr' hm hlistening
      split
      · exact ⟨hold.since, hold.connected, by
          show (r'.taken ++ []) ++ m.queue = _
          rw [List.append_nil]
          exact hold.ticks⟩
      · exact hold

theorem Regular.hangUp (h : s.Regular) (hstep : s.step? (.hangUp i) = some s') : s'.Regular := by
  rw [step?] at hstep
  obtain rfl := Option.some.inj hstep
  refine h.withMailboxes rfl rfl rfl ?_ ?_
  · exact h.numbered.trans (Clock.length_modifyMailbox _ _ _).symm
  · intro j r m hr hm hlistening
    rw [Clock.hangUp, Clock.mailbox?_modify] at hm
    by_cases hij : i = j
    · rw [if_pos hij] at hm
      obtain ⟨m, -, rfl⟩ := Option.map_eq_some_iff.mp hm
      exact absurd hlistening (by simp [Mailbox.hangUp])
    · rw [if_neg hij] at hm
      exact (h.hears j r m hr hm hlistening).congr rfl rfl

theorem Regular.stop (h : s.Regular) (hstep : s.step? .stop = some s') : s'.Regular := by
  rw [step?] at hstep
  obtain rfl := Option.some.inj hstep
  refine ⟨?_, h.listed, h.reached, h.ahead, h.driver.mono rfl (fun _ => rfl) (List.Subset.refl _),
    h.pacer.mono (Nat.le_refl _) fun _ => rfl, ?_⟩
  · exact h.numbered.trans (List.length_map _).symm
  · intro i r m hr hm hlistening
    obtain ⟨m₀, hm₀, rfl⟩ := Option.map_eq_some_iff.mp ((s.clock.mailbox?_stop i).symm.trans hm)
    have hold := h.hears i r m₀ hr hm₀ hlistening
    exact ⟨hold.since, rfl, hold.ticks⟩

/-- **Every step of every party keeps the clock regular.** -/
theorem Regular.step (h : s.Regular) {move : ClockMove} (hstep : s.step? move = some s') :
    s'.Regular := by
  cases move with
  | subscribe => exact h.subscribe hstep
  | take i => exact h.take hstep
  | hangUp i => exact h.hangUp hstep
  | drive => exact h.drive hstep
  | settle tick => exact h.settleStep hstep
  | look => exact h.look hstep
  | settleSeen => exact h.settleSeen hstep
  | awaken => exact h.awaken hstep
  | stop => exact h.stop hstep

theorem Regular.attempt (h : s.Regular) (move : ClockMove) : (s.attempt move).Regular := by
  rw [Clockwork.attempt]
  cases hstep : s.step? move with
  | none => exact h
  | some s' => exact h.step hstep

theorem Regular.run (h : s.Regular) (moves : List ClockMove) : (s.run moves).Regular := by
  induction moves generalizing s with
  | nil => exact h
  | cons move moves ih => exact ih (h.attempt move)

/-! ## What never goes back -/

/-- What one state of a clock has to do with a later one: the settled ticks and the tick do not go
back, and when the clock is stopped they stay, and nothing more is sent. -/
structure Later (s s' : Clockwork) : Prop where
  settled : ∀ k, s.clock.settled = some k → ∃ k', s'.clock.settled = some k' ∧ k ≤ k'
  tick : s.clock.tick ≤ s'.clock.tick
  halted : s.clock.stopped = true → s'.clock.stopped = true ∧ s'.clock.tick = s.clock.tick
  silent : s.clock.stopped = true → ∀ i, s'.sent i <+: s.sent i

theorem Later.refl (s : Clockwork) : s.Later s :=
  ⟨fun k hk => ⟨k, hk, Nat.le_refl k⟩, Nat.le_refl _, fun h => ⟨h, rfl⟩, fun _ _ => List.prefix_rfl⟩

theorem Later.trans {s'' : Clockwork} (h : s.Later s') (h' : s'.Later s'') : s.Later s'' where
  settled k hk := by
    obtain ⟨k', hk', hle⟩ := h.settled k hk
    obtain ⟨k'', hk'', hle'⟩ := h'.settled k' hk'
    exact ⟨k'', hk'', Nat.le_trans hle hle'⟩
  tick := Nat.le_trans h.tick h'.tick
  halted hs := ⟨(h'.halted (h.halted hs).1).1,
    ((h'.halted (h.halted hs).1).2).trans (h.halted hs).2⟩
  silent hs i := (h'.silent (h.halted hs).1 i).trans (h.silent hs i)

/-- A step that leaves what the clock shows as it is, and sends nothing. -/
theorem Later.of_still (htick : s'.clock.tick = s.clock.tick)
    (hsettled : s'.clock.settled = s.clock.settled)
    (hstopped : s.clock.stopped = true → s'.clock.stopped = true)
    (hsent : s.clock.stopped = true → ∀ i, s'.sent i <+: s.sent i) : s.Later s' where
  settled k hk := ⟨k, hsettled.trans hk, Nat.le_refl k⟩
  tick := Nat.le_of_eq htick.symm
  halted hs := ⟨hstopped hs, htick⟩
  silent := hsent

/-- A step after which everybody has been sent what it had been sent before. -/
theorem Later.of_sent (htick : s'.clock.tick = s.clock.tick)
    (hsettled : s'.clock.settled = s.clock.settled)
    (hstopped : s.clock.stopped = true → s'.clock.stopped = true)
    (hsent : ∀ i, s'.sent i = s.sent i) : s.Later s' :=
  Later.of_still htick hsettled hstopped fun _ i => hsent i ▸ List.prefix_rfl

theorem later_settle (s : Clockwork) (tick : Tick) (pacer : Pacer) :
    s.Later { s.settle tick with pacer := pacer } where
  settled k hk := ⟨max k tick, by simp [settle, Clock.settle, hk], Nat.le_max_left k tick⟩
  tick := Nat.le_refl _
  halted hs := ⟨hs, rfl⟩
  silent _ _ := List.prefix_rfl

theorem later_drive (hstep : s.step? .drive = some s') : s.Later s' := by
  rw [step?] at hstep
  obtain ⟨⟨driver, clock⟩, hdrive, rfl⟩ := Option.map_eq_some_iff.mp hstep
  cases hstopped : s.clock.stopped with
  | false =>
    have hnever : s.clock.stopped = true → False := by simp [hstopped]
    rcases ClockDriver.step?_cases hstopped hdrive with ⟨-, -, -, rfl⟩ | ⟨-, -, rfl⟩
    · exact Later.of_still rfl rfl id fun hs => (hnever hs).elim
    · exact ⟨fun k hk => ⟨k, hk, Nat.le_refl k⟩, Nat.le_succ _, fun hs => (hnever hs).elim,
        fun hs => (hnever hs).elim⟩
  | true =>
    obtain ⟨-, rfl⟩ := ClockDriver.step?_of_stopped hstopped hdrive
    exact Later.of_still rfl rfl id fun _ _ => List.prefix_rfl

theorem later_subscribe (hstep : s.step? .subscribe = some s') : s.Later s' := by
  rw [step?] at hstep
  obtain rfl := Option.some.inj hstep
  refine Later.of_sent rfl rfl id fun i => ?_
  -- neither the new subscriber nor its channel holds anything
  rw [sent, sent, Clock.mailbox?_subscribe, List.getElem?_append]
  congr 1
  · split
    · rfl
    · rename_i hle
      rw [List.getElem?_eq_none (Nat.le_of_not_lt hle), List.getElem?_singleton]
      split <;> rfl
  · split
    · rename_i heq
      have hnone : s.clock.mailbox? i = none := List.getElem?_eq_none (Nat.le_of_eq heq.symm)
      rw [hnone]
      rfl
    · rfl

theorem Regular.later_take (h : s.Regular) (hstep : s.step? (.take i) = some s') : s.Later s' := by
  rw [step?] at hstep
  obtain ⟨⟨tick?, clock⟩, htake, rfl⟩ := Option.map_eq_some_iff.mp hstep
  rcases Clock.take?_cases htake with ⟨tick, rest, connected, hmailbox, rfl, rfl⟩ | ⟨rfl, rfl⟩
  · refine Later.of_sent rfl rfl id fun j => ?_
    rw [sent, sent, Clock.mailbox?_modify, List.getElem?_modify]
    by_cases hij : i = j
    · subst hij
      have hlt : i < s.subscribers.length :=
        h.numbered ▸ (List.getElem?_eq_some_iff.mp hmailbox).1
      rw [if_pos rfl, hmailbox, List.getElem?_eq_getElem hlt]
      simp
    · simp [hij]
  · refine Later.of_sent rfl rfl id fun j => ?_
    rw [sent, sent, List.getElem?_modify]
    cases s.subscribers[j]? with
    | none => rfl
    | some r =>
      by_cases hij : i = j <;> simp [hij]

theorem later_hangUp (hstep : s.step? (.hangUp i) = some s') : s.Later s' := by
  rw [step?] at hstep
  obtain rfl := Option.some.inj hstep
  refine Later.of_still rfl rfl id fun _ j => ?_
  rw [sent, sent, Clock.hangUp, Clock.mailbox?_modify]
  refine List.prefix_append_right_inj _ |>.mpr ?_
  by_cases hij : i = j
  · rw [if_pos hij]
    cases s.clock.mailbox? j with
    | none => exact List.prefix_rfl
    | some m => exact List.nil_prefix
  · exact ⟨[], by rw [if_neg hij, List.append_nil]⟩

/-- What has been sent before a stop can be taken after it. -/
theorem sent_stop (s : Clockwork) (i : SubscriberId) : (s.attempt .stop).sent i = s.sent i := by
  show _ ++ ((s.clock.stop.mailbox? i).map Mailbox.queue).getD [] = s.sent i
  rw [sent, Clock.mailbox?_stop]
  cases s.clock.mailbox? i <;> rfl

theorem later_stop (hstep : s.step? .stop = some s') : s.Later s' := by
  rw [step?] at hstep
  obtain rfl := Option.some.inj hstep
  exact Later.of_sent rfl rfl (fun _ => rfl) (sent_stop s)

/-- **No step goes back.** -/
theorem Regular.later (h : s.Regular) {move : ClockMove} (hstep : s.step? move = some s') :
    s.Later s' := by
  cases move with
  | subscribe => exact later_subscribe hstep
  | take i => exact h.later_take hstep
  | hangUp i => exact later_hangUp hstep
  | drive => exact later_drive hstep
  | settle tick =>
    rw [step?] at hstep
    split at hstep
    · obtain rfl := Option.some.inj hstep
      exact later_settle s tick s.pacer
    · exact absurd hstep (by simp)
  | look =>
    rw [step?] at hstep
    split at hstep
    · obtain rfl := Option.some.inj hstep
      exact Later.of_still rfl rfl id fun _ _ => List.prefix_rfl
    · exact absurd hstep (by simp)
  | settleSeen =>
    rw [step?] at hstep
    split at hstep
    · obtain rfl := Option.some.inj hstep
      exact later_settle s _ _
    · exact absurd hstep (by simp)
  | awaken =>
    rw [step?] at hstep
    split at hstep
    · obtain ⟨next?, -, rfl⟩ := Option.map_eq_some_iff.mp hstep
      exact Later.of_still rfl rfl id fun _ _ => List.prefix_rfl
    · exact absurd hstep (by simp)
  | stop => exact later_stop hstep

theorem Regular.later_run (h : s.Regular) (moves : List ClockMove) : s.Later (s.run moves) := by
  induction moves generalizing s with
  | nil => exact Later.refl s
  | cons move moves ih =>
    have hfirst : s.Later (s.attempt move) := by
      rw [Clockwork.attempt]
      cases hstep : s.step? move with
      | none => exact Later.refl s
      | some s' => exact h.later hstep
    exact hfirst.trans (ih (h.attempt move))

/-! ## Waiting for the next tick -/

/-- The pacer that waits need not wait longer. -/
def Awake (s : Clockwork) : Prop :=
  (s.step? .awaken).isSome = true

theorem awake_of_past (tick : Tick) (hpacer : s.pacer = .awaiting tick)
    (h : s.clock.stopped = true ∨ tick < s.clock.tick) : s.Awake := by
  rw [Awake, step?, hpacer]
  dsimp only
  rw [Option.isSome_map, Clock.waitPast?]
  split
  · rfl
  · rename_i hrun
    rw [if_pos (h.resolve_left hrun)]
    rfl

/-- **A wait for the next tick is over after two steps of the party that moves the clock.** -/
theorem Regular.awake (h : s.Regular) (hpacer : s.pacer = .awaiting tick) :
    ∃ n ≤ 2, (s.run (List.replicate n .drive)).Awake := by
  have hknows := h.pacer
  rw [hpacer] at hknows
  by_cases hpast : s.clock.stopped = true ∨ tick < s.clock.tick
  · exact ⟨0, by omega, awake_of_past tick hpacer hpast⟩
  obtain ⟨hrun, hle⟩ := not_or.mp hpast
  have hrun : s.clock.stopped = false := by simpa using hrun
  -- the clock stands at the tick the pacer has settled
  have htick : s.clock.tick = tick :=
    Nat.le_antisymm (Nat.le_of_not_lt hle) (h.reached tick hknows.1)
  have hmoved : tick < s.clock.advanced.tick := htick ▸ Nat.lt_succ_self _
  cases hd : s.driver with
  | waiting =>
    have hsettled : s.clock.isSettled = true := Clock.isSettled_iff.mpr <| by
      cases hmax : s.settles.max? with
      | none => exact absurd hknows.1 (by simp [List.max?_eq_none_iff.mp hmax])
      | some k =>
        exact ⟨k, h.listed.trans hmax, htick ▸ (List.max?_eq_some_iff.mp hmax).2 _ hknows.1⟩
    refine ⟨2, Nat.le_refl 2, awake_of_past tick ?_ (Or.inr ?_)⟩ <;>
      simp [Clockwork.run, Clockwork.attempt, step?, ClockDriver.step?, hd, Clock.waitSettled?, hrun, hsettled,
        Clock.advance?_eq, hpacer, hmoved]
  | advancing =>
    refine ⟨1, by omega, awake_of_past tick ?_ (Or.inr ?_)⟩ <;>
      simp [Clockwork.run, Clockwork.attempt, step?, ClockDriver.step?, hd, Clock.advance?_eq hrun, hpacer, hmoved]
  | ended =>
    have hstopped := h.driver
    rw [hd] at hstopped
    exact absurd (hrun.symm.trans hstopped) (by simp)

/-! ## The promises of the clock -/

/-- What a clock promises to those who deal with it. -/
structure Punctual (s : Clockwork) : Prop where
  /-- What the clock keeps is the latest of all ticks that were settled. -/
  latest : s.clock.settled = s.settles.max?
  /-- The clock is at most one tick ahead of it, and does not move before there is one. -/
  ahead : s.clock.tick = 0 ∨ ∃ k, s.clock.settled = some k ∧ s.clock.tick ≤ k + 1
  /-- The pacer is told of the tick after the one it settled, unless the clock has been stopped. -/
  next : ∀ tick next?, s.pacer = .answered tick next? →
    next? = some (tick + 1) ∨ next? = none ∧ s.clock.stopped = true
  /-- While the pacer waits, two steps of the party that moves the clock are enough. -/
  soon : ∀ tick, s.pacer = .awaiting tick → ∃ n ≤ 2, (s.run (List.replicate n .drive)).Awake
  /-- A subscriber that has not hung up has been sent the ticks after the one at which it subscribed,
  up to the current one, each of them once and in order. -/
  hears : ∀ i r m, s.subscribers[i]? = some r → s.clock.mailbox? i = some m → m.listening = true →
    r.since ≤ s.clock.tick ∧
      s.sent i = List.range' (r.since + 1) (s.clock.tick - r.since)
  /-- A stopped clock has given up all its channels. -/
  released : s.clock.stopped = true → ∀ i m, s.clock.mailbox? i = some m → m.listening = true →
    m.connected = false
  numbered : s.subscribers.length = s.clock.mailboxes.length

theorem Regular.punctual (h : s.Regular) : s.Punctual where
  latest := h.listed
  ahead := h.ahead.imp_right fun ⟨k, hk, hle⟩ => by
    cases hmax : s.settles.max? with
    | none => exact absurd hk (by simp [List.max?_eq_none_iff.mp hmax])
    | some k' =>
      exact ⟨k', h.listed.trans hmax,
        Nat.le_trans hle (Nat.succ_le_succ ((List.max?_eq_some_iff.mp hmax).2 _ hk))⟩
  next tick next? hpacer := by
    have hknows := h.pacer
    rw [hpacer] at hknows
    cases next? with
    | none => exact Or.inr ⟨rfl, hknows⟩
    | some next => exact Or.inl (congrArg some hknows)
  soon _ hpacer := h.awake hpacer
  hears i r m hr hm hlistening := by
    have hears := h.hears i r m hr hm hlistening
    refine ⟨hears.since, ?_⟩
    rw [sent, hr, hm]
    exact hears.ticks
  released hstopped i m hm hlistening := by
    have hlt : i < s.subscribers.length := h.numbered ▸ (List.getElem?_eq_some_iff.mp hm).1
    have hears := h.hears i _ m (List.getElem?_eq_getElem hlt) hm hlistening
    rw [hears.connected, hstopped]
    rfl
  numbered := h.numbered

/-- How those who have subscribed in the course of some moves have fared. -/
structure Attended (moves : List ClockMove) : Prop where
  numbered : (start.run moves).subscribers.length = moves.count .subscribe
  /-- Whoever subscribes listens until it hangs up, whatever the others do. -/
  attends : ∀ before after, moves = before ++ .subscribe :: after →
    (start.run moves).Attends (before.count .subscribe) (start.run before).clock.tick
      (decide (.hangUp (before.count .subscribe) ∉ after))
  /-- Until then it is sent the ticks that come after the one at which it subscribed. -/
  sent : ∀ before after, moves = before ++ .subscribe :: after →
    .hangUp (before.count .subscribe) ∉ after →
    (start.run moves).sent (before.count .subscribe) =
      List.range' ((start.run before).clock.tick + 1)
        ((start.run moves).clock.tick - (start.run before).clock.tick)

theorem Regular.sent_eq (h : s.Regular) {since : Tick} (hattends : s.Attends i since true) :
    s.sent i = List.range' (since + 1) (s.clock.tick - since) := by
  obtain ⟨r, m, hr, rfl, hm, hlistening⟩ := hattends.exists
  exact (h.punctual.hears i r m hr hm hlistening).2

theorem attends_run (before after : List ClockMove) :
    (start.run (before ++ .subscribe :: after)).Attends (before.count .subscribe)
      (start.run before).clock.tick (decide (.hangUp (before.count .subscribe) ∉ after)) := by
  have hjoins := attends_subscribe (regular_start.run before).numbered
  have hcount : (start.run before).subscribers.length = before.count .subscribe :=
    (length_run start before).trans (Nat.zero_add _)
  rw [hcount] at hjoins
  rw [run_append]
  exact hjoins.run after

theorem attended (moves : List ClockMove) : Attended moves where
  numbered := (length_run start moves).trans (Nat.zero_add _)
  attends := by
    rintro before after rfl
    exact attends_run before after
  sent := by
    rintro before after rfl hlistens
    have hattends := attends_run before after
    rw [decide_eq_true hlistens] at hattends
    exact (regular_start.run _).sent_eq hattends

/-! ## Stopping -/

/-- What has become of a clock that was stopped in the state `s`. -/
structure Halted (s s' : Clockwork) : Prop where
  stopped : s'.clock.stopped = true
  tick : s'.clock.tick = s.clock.tick
  /-- Nothing more is sent. -/
  sent : ∀ i, s'.sent i <+: s.sent i
  /-- Whoever listens gets all that was sent before. -/
  kept : ∀ i since, s'.Attends i since true → s'.sent i = s.sent i
  /-- Those who subscribe later are sent nothing. -/
  late : ∀ i, s.subscribers.length ≤ i → s'.sent i = []
  /-- Nobody waits for the next tick, neither at a channel nor at the clock. -/
  taken : ∀ i, (s'.clock.take? i).isSome = true
  past : ∀ tick, s'.clock.waitPast? tick = some none
  settled : s'.clock.waitSettled? = some false
  advance : s'.clock.advance? = none
  /-- The party that moves the clock is at its end with its next step. -/
  ended : (s'.attempt .drive).driver = .ended

theorem Regular.sent_eq_nil (h : s.Regular) (hi : s.subscribers.length ≤ i) : s.sent i = [] := by
  have hmailbox : s.clock.mailbox? i = none := List.getElem?_eq_none (h.numbered ▸ hi)
  rw [sent, hmailbox, List.getElem?_eq_none hi]
  rfl

theorem Regular.exists_attends (h : s.Regular) (hi : i < s.subscribers.length) :
    ∃ since listening, s.Attends i since listening := by
  have hmailbox : i < s.clock.mailboxes.length := h.numbered ▸ hi
  exact ⟨_, _, congrArg (Option.map _) (List.getElem?_eq_getElem hi),
    congrArg (Option.map _) (List.getElem?_eq_getElem hmailbox)⟩

/-- The party that moves the clock finds it stopped. -/
theorem drive_of_stopped (hstopped : s.clock.stopped = true) :
    (s.attempt .drive).driver = .ended := by
  rw [Clockwork.attempt]
  cases hstep : s.step? .drive with
  | some s' =>
    rw [step?] at hstep
    obtain ⟨⟨driver, clock⟩, hdrive, rfl⟩ := Option.map_eq_some_iff.mp hstep
    exact (ClockDriver.step?_of_stopped hstopped hdrive).1
  | none =>
    -- only at its end it has nothing to do
    cases hdriver : s.driver with
    | waiting =>
      exact absurd hstep
        (by simp [step?, hdriver, ClockDriver.step?, Clock.waitSettled?, hstopped])
    | advancing =>
      exact absurd hstep (by simp [step?, hdriver, ClockDriver.step?, Clock.advance?, hstopped])
    | ended => exact hdriver

/-- **A stop puts an end to everything**, whatever is tried after it. -/
theorem Regular.halted (h : s.Regular) (later : List ClockMove) :
    s.Halted ((s.attempt .stop).run later) := by
  have hregular := (h.attempt .stop).run later
  have hlater := (h.attempt .stop).later_run later
  obtain ⟨hstopped, htick⟩ := hlater.halted rfl
  have hsent : ∀ i, ((s.attempt .stop).run later).sent i <+: s.sent i := fun i =>
    sent_stop s i ▸ hlater.silent rfl i
  have hlate : ∀ i, s.subscribers.length ≤ i → ((s.attempt .stop).run later).sent i = [] :=
    fun i hi => List.prefix_nil.mp (h.sent_eq_nil hi ▸ hsent i)
  refine ⟨hstopped, htick, hsent, fun i since hattends => ?_, hlate, fun i =>
    Clock.isSome_take? (hregular.punctual.released hstopped i), ?_, ?_, ?_, ?_⟩
  · rcases Nat.lt_or_ge i s.subscribers.length with hi | hi
    · -- it has listened all the time, and the clock has stood still
      obtain ⟨since', listening, hbefore⟩ := h.exists_attends hi
      have hafter := (hbefore.attempt (by simp : ClockMove.stop ≠ .hangUp i)).run later
      obtain rfl : since' = since := Option.some.inj (hafter.since.symm.trans hattends.since)
      have hboth := Option.some.inj (hafter.listening.symm.trans hattends.listening)
      rw [(Bool.and_eq_true_iff.mp hboth).1] at hbefore
      rw [hregular.sent_eq hattends, h.sent_eq hbefore, htick]
      rfl
    · rw [hlate i hi, h.sent_eq_nil hi]
  · exact fun tick => if_pos hstopped
  · exact if_pos hstopped
  · exact if_pos hstopped
  · exact drive_of_stopped hstopped

/-- **In every order of steps the clock keeps its promises**, nothing goes back, and a stop puts an
end to everything. -/
theorem run_punctual (moves later : List ClockMove) :
    (start.run moves).Punctual ∧ (start.run moves).Later ((start.run moves).run later) ∧
      Attended moves ∧ (start.run moves).Halted (start.run (moves ++ .stop :: later)) := by
  have hregular := regular_start.run moves
  refine ⟨hregular.punctual, hregular.later_run later, attended moves, ?_⟩
  rw [run_append]
  exact hregular.halted later

/-- The clock is stopped when it was just about to move on to the second tick, for which the pacer
waits; without the stop it would have been sent. -/
theorem run_punctual_stopped :
    let moves : List ClockMove := [.subscribe, .look, .settleSeen, .drive, .drive, .awaken, .look,
      .settleSeen, .drive]
    let later : List ClockMove := [.drive, .awaken, .subscribe, .drive, .take 0, .take 0, .take 1]
    let s := start.run (moves ++ .stop :: later)
    ((start.run moves).driver, (start.run moves).pacer) = (.advancing, .awaiting 1) ∧
      ((start.run (moves ++ later)).clock.tick, (start.run (moves ++ later)).sent 0) = (2, [1, 2]) ∧
      (s.clock.tick, s.driver, s.pacer) = (1, .ended, .answered 1 none) ∧
      s.subscribers = [⟨0, [1]⟩, ⟨1, []⟩] ∧ (s.sent 0, s.sent 1) = ([1], []) ∧
      Attended moves ∧ (start.run moves).Halted s := by
  obtain ⟨-, -, hattended, hhalted⟩ := run_punctual
    [.subscribe, .look, .settleSeen, .drive, .drive, .awaken, .look, .settleSeen, .drive]
    [.drive, .awaken, .subscribe, .drive, .take 0, .take 0, .take 1]
  exact ⟨rfl, rfl, rfl, rfl, rfl, hattended, hhalted⟩

end Clockwork
end Uniprocessor
