import Uniprocessor.Clock.Parties
import Uniprocessor.Proofs.Clock.Basic

/-!
# Who listens to the clock

Subscribers are numbered in the order they subscribe.  Each of them listens from then on until it
hangs up itself: whatever the others do, the clock among them and whoever stops it, does not close
its end of the channel, nor does it change the tick at which it subscribed.

* `Clockwork.Attends`: a subscriber with the tick it subscribed at, and whether it listens;
* `Clockwork.Attends.step`: what a step of anybody else leaves as it is;
* `Clockwork.Attends.run`: **a subscriber listens until it hangs up**;
* `Clockwork.length_run`: how many have subscribed.
-/

namespace Uniprocessor
namespace Clockwork

/-- A subscriber has subscribed at a tick, and listens or has hung up. -/
structure Attends (s : Clockwork) (i : SubscriberId) (since : Tick) (listening : Bool) : Prop where
  since : s.subscribers[i]?.map Subscriber.since = some since
  listening : (s.clock.mailbox? i).map Mailbox.listening = some listening

variable {s s' : Clockwork} {i : SubscriberId} {since : Tick} {listening : Bool} {move : ClockMove}

theorem Attends.lt (h : s.Attends i since listening) : i < s.subscribers.length := by
  obtain ⟨r, hr, -⟩ := Option.map_eq_some_iff.mp h.since
  exact (List.getElem?_eq_some_iff.mp hr).1

theorem Attends.exists (h : s.Attends i since listening) : ∃ r m, s.subscribers[i]? = some r ∧
    r.since = since ∧ s.clock.mailbox? i = some m ∧ m.listening = listening := by
  obtain ⟨r, hr, hsince⟩ := Option.map_eq_some_iff.mp h.since
  obtain ⟨m, hm, hlistening⟩ := Option.map_eq_some_iff.mp h.listening
  exact ⟨r, m, hr, hsince, hm, hlistening⟩

/-- What happens neither to the subscribers nor to the channels is of no concern. -/
theorem Attends.congr (h : s.Attends i since listening) (hsubscribers : s'.subscribers = s.subscribers)
    (hmailboxes : s'.clock.mailboxes = s.clock.mailboxes) : s'.Attends i since listening where
  since := hsubscribers ▸ h.since
  listening := by
    rw [Clock.mailbox?, hmailboxes]
    exact h.listening

/-- A subscriber that takes a tick goes on to listen. -/
theorem Attends.take (h : s.Attends i since listening) {j : SubscriberId}
    (hstep : s.step? (.take j) = some s') : s'.Attends i since listening := by
  rw [step?] at hstep
  obtain ⟨⟨tick?, clock⟩, htake, rfl⟩ := Option.map_eq_some_iff.mp hstep
  obtain ⟨r, m, hr, hsince, hm, hlistening⟩ := h.exists
  refine ⟨?_, ?_⟩
  · rw [List.getElem?_modify, hr]
    by_cases hij : j = i <;> simp [hij, hsince]
  · rcases Clock.take?_cases htake with ⟨tick, rest, connected, -, -, rfl⟩ | ⟨-, rfl⟩
    · rw [Clock.mailbox?_modify, hm]
      by_cases hij : j = i <;> simp [hij, hlistening]
    · exact h.listening

/-- The clock moves on without asking who listens. -/
theorem Attends.drive (h : s.Attends i since listening) (hstep : s.step? .drive = some s') :
    s'.Attends i since listening := by
  rw [step?] at hstep
  obtain ⟨⟨driver, clock⟩, hdrive, rfl⟩ := Option.map_eq_some_iff.mp hstep
  cases hstopped : s.clock.stopped with
  | false =>
    rcases ClockDriver.step?_cases hstopped hdrive with ⟨-, -, -, rfl⟩ | ⟨-, -, rfl⟩
    · exact h.congr rfl rfl
    · obtain ⟨r, m, -, -, hm, hlistening⟩ := h.exists
      refine ⟨h.since, ?_⟩
      rw [Clock.mailbox?_advanced, hm]
      exact congrArg some ((m.listening_send _).trans hlistening)
  | true =>
    obtain ⟨-, rfl⟩ := ClockDriver.step?_of_stopped hstopped hdrive
    exact h.congr rfl rfl

/-- **Nobody else makes a subscriber hang up.** -/
theorem Attends.step (h : s.Attends i since listening) (hmove : move ≠ .hangUp i)
    (hstep : s.step? move = some s') : s'.Attends i since listening := by
  cases move with
  | subscribe =>
    rw [step?] at hstep
    obtain rfl := Option.some.inj hstep
    obtain ⟨r, m, -, -, hm, -⟩ := h.exists
    refine ⟨?_, ?_⟩
    · rw [List.getElem?_append_left h.lt]
      exact h.since
    · rw [Clock.mailbox?_subscribe_of_lt (List.getElem?_eq_some_iff.mp hm).1]
      exact h.listening
  | take j => exact h.take hstep
  | hangUp j =>
    rw [step?] at hstep
    obtain rfl := Option.some.inj hstep
    refine ⟨h.since, ?_⟩
    rw [Clock.hangUp, Clock.mailbox?_modify_of_ne fun hji => hmove (congrArg _ hji)]
    exact h.listening
  | drive => exact h.drive hstep
  | settle | look | settleSeen =>
    rw [step?] at hstep
    split at hstep
    · obtain rfl := Option.some.inj hstep
      exact h.congr rfl rfl
    · exact absurd hstep (by simp)
  | awaken =>
    rw [step?] at hstep
    split at hstep
    · obtain ⟨next?, -, rfl⟩ := Option.map_eq_some_iff.mp hstep
      exact h.congr rfl rfl
    · exact absurd hstep (by simp)
  | stop =>
    rw [step?] at hstep
    obtain rfl := Option.some.inj hstep
    obtain ⟨r, m, -, -, hm, hlistening⟩ := h.exists
    refine ⟨h.since, ?_⟩
    rw [Clock.mailbox?_stop, hm]
    exact congrArg some hlistening

/-- A subscriber that hangs up does not listen. -/
theorem Attends.hangUp (h : s.Attends i since listening) :
    (s.attempt (.hangUp i)).Attends i since false := by
  obtain ⟨r, m, -, -, hm, -⟩ := h.exists
  refine ⟨h.since, ?_⟩
  show (((s.clock.hangUp i).mailbox? i).map Mailbox.listening) = some false
  rw [Clock.hangUp, Clock.mailbox?_modify, if_pos rfl, hm]
  rfl

theorem Attends.attempt (h : s.Attends i since listening) (hmove : move ≠ .hangUp i) :
    (s.attempt move).Attends i since listening := by
  rw [Clockwork.attempt]
  cases hstep : s.step? move with
  | none => exact h
  | some s' => exact h.step hmove hstep

/-- **A subscriber listens until it hangs up.** -/
theorem Attends.run (h : s.Attends i since listening) (moves : List ClockMove) :
    (s.run moves).Attends i since (listening && decide (.hangUp i ∉ moves)) := by
  induction moves generalizing s listening with
  | nil =>
    show s.Attends i since (listening && _)
    simpa using h
  | cons move moves ih =>
    show ((s.attempt move).run moves).Attends i since (listening && _)
    by_cases hmove : move = .hangUp i
    · subst hmove
      simpa using ih h.hangUp
    · simpa [Ne.symm hmove] using ih (h.attempt hmove)

/-! ## Subscribing -/

theorem run_append (s : Clockwork) (before after : List ClockMove) :
    s.run (before ++ after) = (s.run before).run after :=
  List.foldl_append

/-- Nobody comes but by subscribing, and nobody is forgotten. -/
theorem length_attempt (s : Clockwork) (move : ClockMove) :
    (s.attempt move).subscribers.length = s.subscribers.length + [move].count .subscribe := by
  rw [Clockwork.attempt]
  cases move with
  | subscribe => exact List.length_append
  | take j =>
    rw [step?]
    cases s.clock.take? j with
    | none => rfl
    | some x => exact List.length_modify ..
  | drive =>
    rw [step?]
    cases s.driver.step? s.clock with
    | none => rfl
    | some x => rfl
  | awaken =>
    rw [step?]
    split
    · rename_i tick _
      cases s.clock.waitPast? tick with
      | none => rfl
      | some x => rfl
    · rfl
  | settle | look | settleSeen =>
    rw [step?]
    split <;> rfl
  | hangUp | stop => rfl

/-- **Subscribers are numbered in the order they subscribe.** -/
theorem length_run (s : Clockwork) (moves : List ClockMove) :
    (s.run moves).subscribers.length = s.subscribers.length + moves.count .subscribe := by
  induction moves generalizing s with
  | nil => rfl
  | cons move moves ih =>
    show ((s.attempt move).run moves).subscribers.length = _
    rw [ih, length_attempt, Nat.add_assoc, ← List.count_append]
    rfl

/-- Whoever subscribes listens from now on. -/
theorem attends_subscribe (hnumbered : s.subscribers.length = s.clock.mailboxes.length) :
    (s.attempt .subscribe).Attends s.subscribers.length s.clock.tick true := by
  refine ⟨?_, ?_⟩
  · show (s.subscribers ++ [_])[_]?.map _ = _
    rw [List.getElem?_concat_length]
    rfl
  · show (s.clock.subscribe.2.mailbox? _).map _ = _
    rw [Clock.mailbox?_subscribe, if_pos hnumbered]
    rfl

end Clockwork
end Uniprocessor
