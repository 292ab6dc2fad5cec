import Uniprocessor.Clock.Driver

/-!
# Mailboxes of the clock

A subscription that neither side has closed is *open*.  It hears every tick the clock moves to, in
order, and nothing that is done to another subscription concerns it.

* `Clock.queue`: what a subscriber has been sent and not taken;
* `Clock.Open`: a subscription that is open;
* `Clock.take?_cons`, `take?_nil`: what taking from it comes to;
* `Clock.open_advanced`: what it hears when the clock moves;
* `ClockDriver.step?_cases`, `step?_of_stopped`: the steps of the party that moves the clock.
-/

namespace Uniprocessor

/-- Sending does not concern the other end. -/
theorem Mailbox.listening_send (m : Mailbox) (tick : Tick) : (m.send tick).listening = m.listening := by
  rw [send]
  split
  · split <;> rfl
  · rfl

namespace Clock

/-- What a subscriber has been sent and has not taken. -/
def queue (c : Clock) (i : SubscriberId) : List Tick :=
  ((c.mailbox? i).map Mailbox.queue).getD []

/-- A subscription both of whose ends are open. -/
def Open (c : Clock) (i : SubscriberId) : Prop :=
  c.mailbox? i = some ⟨c.queue i, true, true⟩

variable {c c' : Clock} {i j : SubscriberId} {queue : List Tick} {tick? : Option Tick}

theorem open_of_mailbox? (h : c.mailbox? i = some ⟨queue, true, true⟩) :
    c.Open i ∧ c.queue i = queue := by
  have hqueue : c.queue i = queue := by
    rw [Clock.queue, h]
    rfl
  exact ⟨by rw [Open, hqueue]; exact h, hqueue⟩

/-- A subscription that exists. -/
theorem Open.lt (h : c.Open i) : i < c.mailboxes.length :=
  (List.getElem?_eq_some_iff.mp h).1

/-- What the same mailbox says of two clocks. -/
theorem congr_of_mailbox? (h : c'.mailbox? i = c.mailbox? i) :
    c'.queue i = c.queue i ∧ (c.Open i → c'.Open i) := by
  have hqueue : c'.queue i = c.queue i := by rw [Clock.queue, h, Clock.queue]
  exact ⟨hqueue, fun hopen => by rw [Open, h, hqueue]; exact hopen⟩

/-! ## Taking and hanging up -/

theorem mailbox?_modify (c : Clock) (i j : SubscriberId) (f : Mailbox → Mailbox) :
    (c.modifyMailbox i f).mailbox? j = if i = j then (c.mailbox? j).map f else c.mailbox? j := by
  show (c.mailboxes.modify i f)[j]? = if i = j then c.mailboxes[j]?.map f else c.mailboxes[j]?
  rw [List.getElem?_modify]
  by_cases hij : i = j
  · simp [hij]
  · simp [hij]

/-- What is done to one subscription does not concern another one. -/
theorem mailbox?_modify_of_ne (h : i ≠ j) (f : Mailbox → Mailbox) :
    (c.modifyMailbox i f).mailbox? j = c.mailbox? j := by
  rw [mailbox?_modify, if_neg h]

theorem length_modifyMailbox (c : Clock) (i : SubscriberId) (f : Mailbox → Mailbox) :
    (c.modifyMailbox i f).mailboxes.length = c.mailboxes.length :=
  List.length_modify ..

/-- The next tick is taken. -/
theorem take?_cons {tick : Tick} (h : c.Open i) (hqueue : c.queue i = tick :: queue) :
    c.take? i = some (some tick, c.modifyMailbox i fun m => { m with queue := queue }) := by
  rw [Open, hqueue] at h
  rw [take?, h]

/-- With nothing to take, one has to wait. -/
theorem take?_nil (h : c.Open i) (hqueue : c.queue i = []) : c.take? i = none := by
  rw [Open, hqueue] at h
  rw [take?, h]

/-- What is taken from a channel is the next tick it holds, or nothing. -/
theorem take?_cases (h : c.take? i = some (tick?, c')) :
    (∃ tick rest connected, c.mailbox? i = some ⟨tick :: rest, connected, true⟩ ∧
      tick? = some tick ∧ c' = c.modifyMailbox i fun m => { m with queue := rest }) ∨
      tick? = none ∧ c' = c := by
  unfold take? at h
  split at h
  · rename_i tick rest connected hmailbox
    obtain ⟨rfl, rfl⟩ := Prod.mk.inj (Option.some.inj h)
    exact Or.inl ⟨tick, rest, connected, hmailbox, rfl, rfl⟩
  · exact absurd h (by simp)
  · obtain ⟨rfl, rfl⟩ := Prod.mk.inj (Option.some.inj h)
    exact Or.inr ⟨rfl, rfl⟩

/-- Nobody waits at a channel that has been given up. -/
theorem isSome_take? (h : ∀ m, c.mailbox? i = some m → m.listening = true → m.connected = false) :
    (c.take? i).isSome = true := by
  unfold take?
  split
  · rfl
  · rename_i hmailbox
    exact absurd (h _ hmailbox rfl) (by simp)
  · rfl

/-- After taking, the rest is there. -/
theorem open_taken (h : c.Open i) (queue : List Tick) :
    (c.modifyMailbox i fun m => { m with queue := queue }).Open i ∧
      (c.modifyMailbox i fun m => { m with queue := queue }).queue i = queue := by
  apply open_of_mailbox?
  rw [mailbox?_modify, if_pos rfl, h]
  rfl

/-- Who has hung up has nothing more to take. -/
theorem queue_hangUp (h : c.Open i) : (c.hangUp i).queue i = [] := by
  rw [hangUp, queue, mailbox?_modify, if_pos rfl, h]
  rfl

/-! ## Subscribing -/

theorem mailbox?_subscribe (c : Clock) (i : SubscriberId) :
    c.subscribe.2.mailbox? i =
      if i = c.mailboxes.length then some ⟨[], !c.stopped, true⟩ else c.mailbox? i := by
  show (c.mailboxes ++ [_])[i]? = _
  rw [List.getElem?_append]
  split
  · rename_i hlt
    rw [if_neg (Nat.ne_of_lt hlt)]
    rfl
  · rename_i hle
    by_cases heq : i = c.mailboxes.length
    · simp [heq]
    · have hlt : c.mailboxes.length < i := Nat.lt_of_le_of_ne (Nat.le_of_not_lt hle) (Ne.symm heq)
      have hpos : i - c.mailboxes.length ≠ 0 := Nat.sub_ne_zero_of_lt hlt
      rw [if_neg heq, List.getElem?_singleton, if_neg hpos]
      exact (List.getElem?_eq_none (Nat.le_of_lt hlt)).symm

theorem mailbox?_subscribe_of_lt (h : i < c.mailboxes.length) :
    c.subscribe.2.mailbox? i = c.mailbox? i :=
  List.getElem?_append_left h

/-- A new subscription has been sent nothing. -/
theorem open_subscribe (h : c.stopped = false) :
    c.subscribe.2.Open c.subscribe.1 ∧ c.subscribe.2.queue c.subscribe.1 = [] := by
  apply open_of_mailbox?
  show (c.mailboxes ++ [⟨[], !c.stopped, true⟩])[c.mailboxes.length]? = _
  rw [List.getElem?_concat_length, h]
  rfl

/-! ## Moving and stopping -/

/-- The clock after it has moved. -/
def advanced (c : Clock) : Clock :=
  { c with tick := c.tick + 1, mailboxes := c.mailboxes.map (·.send (c.tick + 1)) }

theorem advance?_eq (h : c.stopped = false) : c.advance? = some c.advanced := by
  rw [advance?, if_neg (by simp [h])]
  rfl

theorem mailbox?_advanced (c : Clock) (i : SubscriberId) :
    c.advanced.mailbox? i = (c.mailbox? i).map (·.send (c.tick + 1)) :=
  List.getElem?_map ..

/-- **An open subscription hears every tick.** -/
theorem open_advanced (h : c.Open i) :
    c.advanced.Open i ∧ c.advanced.queue i = c.queue i ++ [c.tick + 1] := by
  apply open_of_mailbox?
  rw [mailbox?_advanced, h]
  rfl

theorem mailbox?_stop (c : Clock) (i : SubscriberId) :
    c.stop.mailbox? i = (c.mailbox? i).map Mailbox.disconnect :=
  List.getElem?_map ..

end Clock

namespace ClockDriver

variable {d d' : ClockDriver} {c c' : Clock}

/-- The party that moves the clock waits while the tick is not settled, and moves it once it is. -/
theorem step?_cases (hrun : c.stopped = false) (h : d.step? c = some (d', c')) :
    (d = .waiting ∧ c.isSettled = true ∧ d' = .advancing ∧ c' = c) ∨
      (d = .advancing ∧ d' = .waiting ∧ c' = c.advanced) := by
  cases d with
  | waiting =>
    rw [step?, Clock.waitSettled?, hrun, if_neg Bool.false_ne_true] at h
    cases hsettled : c.isSettled with
    | true =>
      rw [hsettled] at h
      obtain ⟨rfl, rfl⟩ := Prod.mk.inj (Option.some.inj h)
      exact Or.inl ⟨rfl, rfl, rfl, rfl⟩
    | false =>
      rw [hsettled] at h
      exact absurd h (by simp)
  | advancing =>
    rw [step?, Clock.advance?_eq hrun] at h
    obtain ⟨rfl, rfl⟩ := Prod.mk.inj (Option.some.inj h)
    exact Or.inr ⟨rfl, rfl, rfl⟩
  | ended => exact absurd h (by simp [step?])

/-- Whatever the party that moves the clock was about to do, it finds the clock stopped and ends. -/
theorem step?_of_stopped (hstopped : c.stopped = true)
    (h : d.step? c = some (d', c')) : d' = .ended ∧ c' = c := by
  cases d with
  | waiting =>
    rw [step?, Clock.waitSettled?, if_pos hstopped] at h
    obtain ⟨rfl, rfl⟩ := Prod.mk.inj (Option.some.inj h)
    exact ⟨rfl, rfl⟩
  | advancing =>
    rw [step?, Clock.advance?, if_pos hstopped] at h
    obtain ⟨rfl, rfl⟩ := Prod.mk.inj (Option.some.inj h)
    exact ⟨rfl, rfl⟩
  | ended => exact absurd h (by simp [step?])

end ClockDriver
end Uniprocessor
