import Uniprocessor.Arrivals.Generator
import Uniprocessor.Proofs.Clock.Basic
import Uniprocessor.Simulation

/-!
# The batches of the generator

The generator sends the batch of a tick message by message, while the scheduler takes the messages
in the same order.  Between the two there is always the rest of one batch: what has been sent and
not taken, and what is still to be sent, make up the batch of the processes that have not been let
in (`Generator.Supplies`).  Once the batch is closed and taken, the generator rests until the clock
moves (`Generator.Drained`).

* `Supplies.step`: **the generator sends the batch and nothing else**;
* `Supplies.told`: what the scheduler learns from a message;
* `Drained.advance`: the next tick brings the next batch.
-/

namespace Uniprocessor
namespace Generator

/-- A generator that has nothing to do at a tick: nothing to send any more, or not yet. -/
inductive Resting (g : Generator) (clock : Clock) : Prop
  | ended (hphase : g.phase = .ended (.ok ())) (hpending : g.pending = [])
  | listening (hphase : g.phase = .listening) (hpending : g.pending ≠ [])
      (hqueue : clock.queue g.mailbox = [])

/-- The batch of a tick has been closed and taken, and the processes `ps` are left for later. -/
structure Drained (g : Generator) (clock : Clock) (arrivals : List ArrivalMessage) (isOpen : Bool)
    (ps : List Process) : Prop where
  taken : arrivals = []
  pending : g.pending = ps
  resting : g.Resting clock
  closed : isOpen = !ps.isEmpty

/-- The processes `ps` have not been let in, and the messages to come at a tick, sent or not, are
the batch of those. -/
inductive Supplies (g : Generator) (clock : Clock) (arrivals : List ArrivalMessage) (isOpen : Bool)
    (tick : Tick) (ps : List Process) : Prop
  /-- The generator has not taken the tick. -/
  | behind (hopen : isOpen = true) (hsent : arrivals = []) (hphase : g.phase = .listening)
      (hpending : g.pending = ps) (hqueue : clock.queue g.mailbox = [tick])
  | sending (hopen : isOpen = true) (hphase : g.phase = .sending) (htick : g.tick = tick)
      (hqueue : clock.queue g.mailbox = [])
      (hsent : arrivals ++ (batch tick g.pending).1 = (batch tick ps).1)
      (hleft : (batch tick g.pending).2 = (batch tick ps).2)
  /-- All messages have been sent. -/
  | sent (hopen : isOpen = true) (hsent : arrivals = (batch tick ps).1)
      (hleft : g.pending = (batch tick ps).2) (hresting : g.Resting clock)
  /-- The generator has said that it is done. -/
  | finished (hdone : ps = []) (hdrained : g.Drained clock arrivals isOpen ps)

variable {g g' : Generator} {clock clock' : Clock} {arrivals : List ArrivalMessage} {isOpen : Bool}
  {tick : Tick} {ps : List Process} {p : Process} {message? : Option ArrivalMessage}

@[simp] theorem batch_nil (tick : Tick) : batch tick [] = ([.exhausted], []) := rfl

theorem batch_of_due (hp : p.arrival ≤ tick) (ps : List Process) :
    batch tick (p :: ps) = (.arrival p :: (batch tick ps).1, (batch tick ps).2) := by
  rw [batch, if_pos hp]

theorem batch_of_not_due (hp : ¬ p.arrival ≤ tick) (ps : List Process) :
    batch tick (p :: ps) = ([.batchComplete tick], p :: ps) := by
  rw [batch, if_neg hp]

/-- A batch is never without messages: at least it is closed. -/
theorem batch_ne_nil (tick : Tick) (ps : List Process) : (batch tick ps).1 ≠ [] := by
  cases ps with
  | nil => simp
  | cons p ps =>
    by_cases hp : p.arrival ≤ tick
    · simp [batch_of_due hp]
    · simp [batch_of_not_due hp]

/-! ## Steps of the generator -/

theorem nextMessage_of_nil (h : g.pending = []) :
    g.nextMessage = (.exhausted, { g with phase := .ended (.ok ()) }) := by
  rw [nextMessage, h]

theorem nextMessage_of_due (h : g.pending = p :: ps) (hp : p.arrival ≤ g.tick) :
    g.nextMessage = (.arrival p, { g with pending := ps }) := by
  rw [nextMessage, h]
  exact if_pos hp

theorem nextMessage_of_not_due (h : g.pending = p :: ps) (hp : ¬ p.arrival ≤ g.tick) :
    g.nextMessage = (.batchComplete g.tick, { g with phase := .listening }) := by
  rw [nextMessage, h]
  exact if_neg hp

/-- A generator that rests makes no step. -/
theorem Resting.step? (h : g.Resting clock) (hopen : clock.Open g.mailbox) :
    g.step? clock true = none := by
  cases h with
  | ended hphase hpending => rw [Generator.step?, hphase]
  | listening hphase hpending hqueue =>
    rw [Generator.step?, hphase]
    show (clock.take? g.mailbox).map _ = none
    rw [Clock.take?_nil hopen hqueue]
    rfl

/-- A generator that has not failed. -/
def Sane (g : Generator) : Prop :=
  ∀ result, g.result? = some result → result = .ok ()

/-- What a step of the generator leaves alone; it does not fail. -/
structure Sent (g g' : Generator) (clock clock' : Clock) : Prop where
  sane : g'.Sane
  mailbox : g'.mailbox = g.mailbox
  listens : clock'.Open g.mailbox
  tick : clock'.tick = clock.tick
  settled : clock'.settled = clock.settled
  stopped : clock'.stopped = clock.stopped
  length : clock'.mailboxes.length = clock.mailboxes.length
  others : ∀ i, i ≠ g.mailbox → clock'.mailbox? i = clock.mailbox? i

/-- A step of a generator that sends. -/
theorem step?_of_sending (h : g.phase = .sending) :
    g.step? clock true = some (some g.nextMessage.1, g.nextMessage.2, clock) := by
  rw [step?, h]
  rfl

/-- A step of a generator that takes a tick. -/
theorem step?_of_listening {queue : List Tick} (h : g.phase = .listening)
    (hopen : clock.Open g.mailbox) (hqueue : clock.queue g.mailbox = tick :: queue) :
    g.step? clock true = some (none, { g with tick := tick, phase := .sending },
      clock.modifyMailbox g.mailbox fun m => { m with queue := queue }) := by
  rw [step?, h]
  show (clock.take? g.mailbox).map _ = _
  rw [Clock.take?_cons hopen hqueue]
  rfl

theorem nextMessage_mailbox (g : Generator) : g.nextMessage.2.mailbox = g.mailbox := by
  rw [nextMessage]
  split
  · rfl
  · split <;> rfl

/-- While its messages are received, a generator that sends does not fail. -/
theorem nextMessage_sane (h : g.phase = .sending) : g.nextMessage.2.Sane := by
  intro result hresult
  cases hpending : g.pending with
  | nil =>
    rw [nextMessage_of_nil hpending] at hresult
    exact (Option.some.inj hresult).symm
  | cons p rest =>
    by_cases hp : p.arrival ≤ g.tick
    · rw [nextMessage_of_due hpending hp, result?, h] at hresult
      exact absurd hresult (by simp)
    · rw [nextMessage_of_not_due hpending hp] at hresult
      exact absurd hresult (by simp [result?])

/-- A step of the generator concerns nobody else. -/
theorem step?_sent (hopen : clock.Open g.mailbox)
    (hstep : g.step? clock true = some (message?, g', clock')) : g.Sent g' clock clock' := by
  cases hphase : g.phase with
  | sending =>
    rw [step?_of_sending hphase] at hstep
    obtain ⟨-, hnext⟩ := Prod.mk.inj (Option.some.inj hstep)
    obtain ⟨rfl, rfl⟩ := Prod.mk.inj hnext
    exact ⟨nextMessage_sane hphase, g.nextMessage_mailbox, hopen, rfl, rfl, rfl, rfl, fun _ _ => rfl⟩
  | listening =>
    cases hqueue : clock.queue g.mailbox with
    | nil =>
      rw [step?, hphase] at hstep
      change (clock.take? g.mailbox).map _ = _ at hstep
      rw [Clock.take?_nil hopen hqueue] at hstep
      exact absurd hstep (by simp)
    | cons tick queue =>
      rw [step?_of_listening hphase hopen hqueue] at hstep
      obtain ⟨-, hnext⟩ := Prod.mk.inj (Option.some.inj hstep)
      obtain ⟨rfl, rfl⟩ := Prod.mk.inj hnext
      exact ⟨fun _ hresult => absurd hresult (by simp [result?]), rfl,
        (Clock.open_taken hopen queue).1, rfl, rfl, rfl,
        clock.length_modifyMailbox _ _, fun i hi => Clock.mailbox?_modify_of_ne hi.symm _⟩
  | ended result =>
    rw [step?, hphase] at hstep
    exact absurd hstep (by simp)

/-- **The generator sends the batch and nothing else.** -/
theorem Supplies.step (h : g.Supplies clock arrivals isOpen tick ps) (hopen : clock.Open g.mailbox)
    (hstep : g.step? clock true = some (message?, g', clock')) :
    g'.Supplies clock' (arrivals ++ message?.toList) isOpen tick ps := by
  cases h with
  | behind hisOpen hsent hphase hpending hqueue =>
    rw [step?_of_listening hphase hopen hqueue] at hstep
    obtain ⟨rfl, hnext⟩ := Prod.mk.inj (Option.some.inj hstep)
    obtain ⟨rfl, rfl⟩ := Prod.mk.inj hnext
    refine .sending hisOpen rfl rfl (Clock.open_taken hopen []).2 ?_ ?_
    · rw [hsent, hpending]
      rfl
    · rw [hpending]
  | sending hisOpen hphase htick hqueue hsent hleft =>
    rw [step?_of_sending hphase] at hstep
    obtain ⟨rfl, hnext⟩ := Prod.mk.inj (Option.some.inj hstep)
    obtain ⟨rfl, rfl⟩ := Prod.mk.inj hnext
    cases hpending : g.pending with
    | nil =>
      rw [hpending, batch_nil] at hsent hleft
      rw [nextMessage_of_nil hpending]
      exact .sent hisOpen hsent (hpending.trans hleft) (.ended rfl hpending)
    | cons p rest =>
      rw [hpending] at hsent hleft
      by_cases hp : p.arrival ≤ tick
      · rw [batch_of_due hp] at hsent hleft
        rw [nextMessage_of_due hpending (htick ▸ hp)]
        refine .sending hisOpen hphase htick hqueue ?_ hleft
        rw [← hsent, List.append_assoc]
        rfl
      · rw [batch_of_not_due hp] at hsent hleft
        rw [nextMessage_of_not_due hpending (htick ▸ hp), htick]
        exact .sent hisOpen hsent (hpending.trans hleft)
          (.listening rfl (by simp [hpending]) hqueue)
  | sent hisOpen hsent hleft hresting =>
    exact absurd (hresting.step? hopen) (by simp [hstep])
  | finished hdone hdrained => exact absurd (hdrained.resting.step? hopen) (by simp [hstep])

/-- While a message is awaited and none has been sent, the generator need not wait. -/
theorem Supplies.step?_isSome (h : g.Supplies clock [] true tick ps)
    (hopen : clock.Open g.mailbox) : (g.step? clock true).isSome = true ∧ g.result? = none := by
  cases h with
  | behind hisOpen hsent hphase hpending hqueue =>
    rw [step?_of_listening hphase hopen hqueue, result?, hphase]
    exact ⟨rfl, rfl⟩
  | sending hisOpen hphase htick hqueue hsent hleft =>
    rw [step?, result?, hphase]
    exact ⟨rfl, rfl⟩
  | sent hisOpen hsent hleft hresting => exact absurd hsent.symm (batch_ne_nil tick ps)
  | finished hdone hdrained => exact absurd hdrained.closed (by simp [hdone])

/-- What is in other mailboxes than the generator's does not matter to it. -/
theorem Resting.congr (h : g.Resting clock)
    (hqueue : clock'.queue g.mailbox = clock.queue g.mailbox) : g.Resting clock' := by
  cases h with
  | ended hphase hpending => exact .ended hphase hpending
  | listening hphase hpending hnone => exact .listening hphase hpending (hqueue.trans hnone)

theorem Drained.congr (h : g.Drained clock arrivals isOpen ps)
    (hqueue : clock'.queue g.mailbox = clock.queue g.mailbox) :
    g.Drained clock' arrivals isOpen ps :=
  ⟨h.taken, h.pending, h.resting.congr hqueue, h.closed⟩

theorem Supplies.congr (h : g.Supplies clock arrivals isOpen tick ps)
    (hqueue : clock'.queue g.mailbox = clock.queue g.mailbox) :
    g.Supplies clock' arrivals isOpen tick ps := by
  cases h with
  | behind hisOpen hsent hphase hpending hticks =>
    exact .behind hisOpen hsent hphase hpending (hqueue.trans hticks)
  | sending hisOpen hphase htick hticks hsent hleft =>
    exact .sending hisOpen hphase htick (hqueue.trans hticks) hsent hleft
  | sent hisOpen hsent hleft hresting => exact .sent hisOpen hsent hleft (hresting.congr hqueue)
  | finished hdone hdrained => exact .finished hdone (hdrained.congr hqueue)

/-- The next tick brings the next batch. -/
theorem Drained.advance (h : g.Drained clock arrivals isOpen ps) (hopen : clock.Open g.mailbox) :
    g.Supplies clock.advanced arrivals isOpen (clock.tick + 1) ps := by
  obtain ⟨htaken, hpending, hresting, hclosed⟩ := h
  cases hresting with
  | ended hphase hnone =>
    obtain rfl : [] = ps := hnone.symm.trans hpending
    exact .finished rfl ⟨htaken, hpending, .ended hphase hnone, hclosed⟩
  | listening hphase hnone hqueue =>
    refine .behind ?_ htaken hphase hpending ?_
    · rw [hclosed, ← hpending]
      simpa using hnone
    · rw [(Clock.open_advanced hopen).2, hqueue, List.nil_append]

/-! ## What the scheduler learns from a message -/

/-- Nothing more is to come from a generator that has said so. -/
theorem Supplies.drained (h : g.Supplies clock arrivals false tick ps) :
    ps = [] ∧ g.Drained clock arrivals false ps := by
  cases h with
  | behind hisOpen => exact absurd hisOpen (by simp)
  | sending hisOpen => exact absurd hisOpen (by simp)
  | sent hisOpen => exact absurd hisOpen (by simp)
  | finished hdone hdrained => exact ⟨hdone, hdrained⟩

/-- What follows the first message of a batch: the rest of it, which is all there is once the batch
is closed. -/
theorem Supplies.tail {message : ArrivalMessage} {messages : List ArrivalMessage}
    (h : g.Supplies clock (message :: arrivals) true tick ps)
    (hbatch : (batch tick ps).1 = message :: messages) :
    (messages = [] → arrivals = [] ∧ g.pending = (batch tick ps).2 ∧ g.Resting clock) ∧
      ∀ rest, (batch tick rest).1 = messages → (batch tick rest).2 = (batch tick ps).2 →
        g.Supplies clock arrivals true tick rest := by
  cases h with
  | behind hisOpen hsent => exact absurd hsent (by simp)
  | sending hisOpen hphase htick hqueue hsent hleft =>
    obtain ⟨-, htail⟩ := List.cons.inj (hsent.trans hbatch)
    refine ⟨?_, fun rest hrest hrest' =>
      .sending hisOpen hphase htick hqueue (htail.trans hrest.symm) (hleft.trans hrest'.symm)⟩
    intro hlast
    exact absurd (List.append_eq_nil_iff.mp (htail.trans hlast)).2 (batch_ne_nil tick g.pending)
  | sent hisOpen hsent hleft hresting =>
    obtain ⟨-, htail⟩ := List.cons.inj (hsent.trans hbatch)
    exact ⟨fun hlast => ⟨htail.trans hlast, hleft, hresting⟩, fun rest hrest hrest' =>
      .sent hisOpen (htail.trans hrest.symm) (hleft.trans hrest'.symm) hresting⟩
  | finished hdone hdrained => exact absurd hdrained.taken (by simp)

/-- The first message that a generator has sent is the first one of the batch. -/
theorem Supplies.head {message : ArrivalMessage}
    (h : g.Supplies clock (message :: arrivals) true tick ps) :
    (batch tick ps).1.head? = some message := by
  cases h with
  | behind hisOpen hsent => exact absurd hsent (by simp)
  | sending hisOpen hphase htick hqueue hsent hleft => rw [← hsent]; rfl
  | sent hisOpen hsent hleft hresting => rw [← hsent]; rfl
  | finished hdone hdrained => exact absurd hdrained.taken (by simp)

/-- **What a message says**: the first process that has not been let in is due; or the next one is
not; or there is none. -/
inductive Told (g : Generator) (clock : Clock) (arrivals : List ArrivalMessage) (tick : Tick) :
    ArrivalMessage → List Process → Prop
  | arrival (p : Process) (rest : List Process) (hdue : p.arrival ≤ tick)
      (hrest : g.Supplies clock arrivals true tick rest) :
      Told g clock arrivals tick (.arrival p) (p :: rest)
  | batchComplete (p : Process) (rest : List Process) (hdue : ¬ p.arrival ≤ tick)
      (hrest : g.Drained clock arrivals true (p :: rest)) :
      Told g clock arrivals tick (.batchComplete tick) (p :: rest)
  | exhausted (hrest : g.Drained clock arrivals false []) :
      Told g clock arrivals tick .exhausted []

theorem Supplies.told {message : ArrivalMessage}
    (h : g.Supplies clock (message :: arrivals) true tick ps) :
    Told g clock arrivals tick message ps := by
  have hhead := h.head
  cases ps with
  | nil =>
    obtain rfl : .exhausted = message := Option.some.inj hhead
    obtain ⟨hlast, -⟩ := h.tail (congrArg Prod.fst (batch_nil tick))
    obtain ⟨harrivals, hpending, hresting⟩ := hlast rfl
    exact .exhausted ⟨harrivals, hpending, hresting, rfl⟩
  | cons p rest =>
    by_cases hp : p.arrival ≤ tick
    · rw [batch_of_due hp] at hhead
      obtain rfl : .arrival p = message := Option.some.inj hhead
      obtain ⟨-, htail⟩ := h.tail (by rw [batch_of_due hp])
      exact .arrival p rest hp (htail rest rfl (by rw [batch_of_due hp]))
    · rw [batch_of_not_due hp] at hhead
      obtain rfl : .batchComplete tick = message := Option.some.inj hhead
      obtain ⟨hlast, -⟩ := h.tail (by rw [batch_of_not_due hp])
      obtain ⟨harrivals, hpending, hresting⟩ := hlast rfl
      rw [batch_of_not_due hp] at hpending
      exact .batchComplete p rest hp ⟨harrivals, hpending, hresting, rfl⟩

/-- At the start no message of the first batch has been sent. -/
theorem supplies_start (w : Workload) :
    (start w .start).1.Supplies (start w .start).2 [] true 0 w.processes :=
  .sending rfl rfl rfl rfl rfl rfl

end Generator
end Uniprocessor
