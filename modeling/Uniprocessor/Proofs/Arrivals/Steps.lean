import Uniprocessor.Proofs.Arrivals.Generator

/-!
# Steps of the generator

What a generator does next depends on the first process that is left, on the ticks that it has been
sent and not taken, and on whether its messages are received.  `Stepped` says so, one case for each
kind of step.  Every step brings the generator nearer to where it has to wait: it sends a process,
or closes a batch, or takes a tick.

* `Generator.Hears`: a generator that has been sent all ticks after its own;
* `Generator.stepped`: **what a step of the generator is**;
* `Stepped.of_gone`, `Stepped.of_listening`: what it is without a receiver, or between two batches;
* `Stepped.weight_lt`: the number of steps that it can make until it has to wait.
-/

namespace Uniprocessor
namespace Generator

variable {g g' : Generator} {clock clock' : Clock} {received : Bool}
  {message? : Option ArrivalMessage}

/-- A generator that has been sent all ticks of a clock after its own. -/
structure Hears (g : Generator) (clock : Clock) : Prop where
  tick_le : g.tick ≤ clock.tick
  mailbox : clock.mailbox? g.mailbox =
    some ⟨List.range' (g.tick + 1) (clock.tick - g.tick), !clock.stopped, true⟩

theorem hears_start (w : Workload) (clock : Clock) :
    (start w clock).1.Hears (start w clock).2 where
  tick_le := Nat.le_refl _
  mailbox := by
    show clock.subscribe.2.mailbox? clock.mailboxes.length =
      some ⟨List.range' (clock.tick + 1) (clock.tick - clock.tick), !clock.stopped, true⟩
    rw [Clock.mailbox?_subscribe, if_pos rfl, Nat.sub_self]
    rfl

theorem Hears.advanced (h : g.Hears clock) (hrun : clock.stopped = false) :
    g.Hears clock.advanced where
  tick_le := Nat.le_succ_of_le h.tick_le
  mailbox := by
    have hend : g.tick + 1 + (clock.tick - g.tick) = clock.tick + 1 := by
      rw [Nat.add_right_comm, Nat.add_sub_of_le h.tick_le]
    show clock.advanced.mailbox? g.mailbox =
      some ⟨List.range' (g.tick + 1) (clock.tick + 1 - g.tick), !clock.stopped, true⟩
    rw [Clock.mailbox?_advanced, h.mailbox, Nat.succ_sub h.tick_le, List.range'_1_concat, hend,
      hrun]
    rfl

theorem Hears.stop (h : g.Hears clock) : g.Hears clock.stop where
  tick_le := h.tick_le
  mailbox := by
    rw [Clock.mailbox?_stop, h.mailbox]
    rfl

/-- What the generator may take: the next tick, if there is one; otherwise it waits, unless the
clock is stopped. -/
theorem Hears.take?_cases (h : g.Hears clock) :
    (g.tick < clock.tick ∧ ∃ clock', clock.take? g.mailbox = some (some (g.tick + 1), clock') ∧
      Hears { g with tick := g.tick + 1, phase := .sending } clock') ∨
    (g.tick = clock.tick ∧ clock.stopped = true ∧
      clock.take? g.mailbox = some (none, clock)) ∨
    g.tick = clock.tick ∧ clock.stopped = false ∧ clock.take? g.mailbox = none := by
  have hmailbox := h.mailbox
  rcases Nat.lt_or_eq_of_le h.tick_le with hlt | heq
  · have hqueue : List.range' (g.tick + 1) (clock.tick - g.tick) =
        (g.tick + 1) :: List.range' (g.tick + 1 + 1) (clock.tick - (g.tick + 1)) := by
      rw [← List.range'_succ, Nat.sub_add_eq, Nat.sub_add_cancel (Nat.sub_pos_of_lt hlt)]
    rw [hqueue] at hmailbox
    refine Or.inl ⟨hlt, clock.modifyMailbox g.mailbox fun m =>
      { m with queue := List.range' (g.tick + 1 + 1) (clock.tick - (g.tick + 1)) },
      ?_, hlt, ?_⟩
    · rw [Clock.take?, hmailbox]
    · show (clock.modifyMailbox g.mailbox _).mailbox? g.mailbox = _
      rw [Clock.mailbox?_modify, if_pos rfl, hmailbox]
      rfl
  · rw [heq, Nat.sub_self] at hmailbox
    refine Or.inr ?_
    cases hstopped : clock.stopped with
    | true =>
      rw [hstopped] at hmailbox
      exact Or.inl ⟨heq, rfl, by rw [Clock.take?, hmailbox]; rfl⟩
    | false =>
      rw [hstopped] at hmailbox
      exact Or.inr ⟨heq, rfl, by rw [Clock.take?, hmailbox]; rfl⟩

/-! ## What a step of the generator is -/

/-- The steps of the generator. -/
inductive Stepped (g : Generator) (clock : Clock) (received : Bool) :
    Option ArrivalMessage → Generator → Clock → Prop
  /-- Nobody receives its message. -/
  | failed (hphase : g.phase = .sending) (hgone : received = false) :
      Stepped g clock received none
        { g with phase := .ended (.error (.channel .receiverGone)) } clock
  | exhausted (hphase : g.phase = .sending) (hreceived : received = true)
      (hpending : g.pending = []) :
      Stepped g clock received (some .exhausted) { g with phase := .ended (.ok ()) } clock
  | arrival (p : Process) (rest : List Process) (hphase : g.phase = .sending)
      (hreceived : received = true) (hpending : g.pending = p :: rest) (hdue : p.arrival ≤ g.tick) :
      Stepped g clock received (some (.arrival p)) { g with pending := rest } clock
  | batchComplete (p : Process) (rest : List Process) (hphase : g.phase = .sending)
      (hreceived : received = true) (hpending : g.pending = p :: rest) (hdue : g.tick < p.arrival) :
      Stepped g clock received (some (.batchComplete g.tick)) { g with phase := .listening } clock
  | taken (tick : Tick) (clock' : Clock) (hphase : g.phase = .listening)
      (htake : clock.take? g.mailbox = some (some tick, clock')) :
      Stepped g clock received none { g with tick := tick, phase := .sending } clock'
  /-- It learns that the clock is stopped. -/
  | told (clock' : Clock) (hphase : g.phase = .listening)
      (htake : clock.take? g.mailbox = some (none, clock')) :
      Stepped g clock received none { g with phase := .ended (.ok ()) } clock'

theorem stepped (h : g.step? clock received = some (message?, g', clock')) :
    Stepped g clock received message? g' clock' := by
  cases hphase : g.phase with
  | sending =>
    cases received with
    | false =>
      rw [step?, hphase] at h
      obtain ⟨rfl, hnext⟩ := Prod.mk.inj (Option.some.inj h)
      obtain ⟨rfl, rfl⟩ := Prod.mk.inj hnext
      exact .failed hphase rfl
    | true =>
      rw [step?_of_sending hphase] at h
      obtain ⟨rfl, hnext⟩ := Prod.mk.inj (Option.some.inj h)
      obtain ⟨rfl, rfl⟩ := Prod.mk.inj hnext
      cases hpending : g.pending with
      | nil =>
        rw [nextMessage_of_nil hpending]
        exact .exhausted hphase rfl hpending
      | cons p rest =>
        by_cases hdue : p.arrival ≤ g.tick
        · rw [nextMessage_of_due hpending hdue]
          exact .arrival p rest hphase rfl hpending hdue
        · rw [nextMessage_of_not_due hpending hdue]
          exact .batchComplete p rest hphase rfl hpending (Nat.lt_of_not_le hdue)
  | listening =>
    rw [step?, hphase] at h
    obtain ⟨⟨tick?, clock₁⟩, htake, hnext⟩ := Option.map_eq_some_iff.mp h
    cases tick? with
    | some tick =>
      cases hnext
      exact .taken tick clock' hphase htake
    | none =>
      cases hnext
      exact .told clock' hphase htake
  | ended result =>
    rw [step?, hphase] at h
    exact absurd h (by simp)

/-- A generator that has ended makes no step. -/
theorem Stepped.phase_ne (h : Stepped g clock received message? g' clock')
    (result : Except Failure Unit) : g.phase ≠ .ended result := by
  cases h with
  | failed hphase => simp [hphase]
  | exhausted hphase => simp [hphase]
  | arrival p rest hphase => simp [hphase]
  | batchComplete p rest hphase => simp [hphase]
  | taken tick clock' hphase => simp [hphase]
  | told clock' hphase => simp [hphase]

/-- A generator takes ticks from the clock, but does not move or stop it. -/
theorem Stepped.clock_eq (h : Stepped g clock received message? g' clock') :
    clock'.stopped = clock.stopped ∧ clock'.tick = clock.tick := by
  cases h with
  | failed => exact ⟨rfl, rfl⟩
  | exhausted => exact ⟨rfl, rfl⟩
  | arrival => exact ⟨rfl, rfl⟩
  | batchComplete => exact ⟨rfl, rfl⟩
  | taken tick clock' hphase htake =>
    rcases Clock.take?_cases htake with ⟨_, _, _, -, -, rfl⟩ | ⟨-, rfl⟩ <;> exact ⟨rfl, rfl⟩
  | told clock' hphase htake =>
    rcases Clock.take?_cases htake with ⟨_, _, _, -, -, rfl⟩ | ⟨-, rfl⟩ <;> exact ⟨rfl, rfl⟩

/-- Without a receiver nothing is sent, and a generator that tries to fails. -/
theorem Stepped.of_gone (h : Stepped g clock received message? g' clock')
    (hgone : received = false) :
    message? = none ∧
      (g.phase = .sending → g'.phase = .ended (.error (.channel .receiverGone))) := by
  cases h with
  | failed => exact ⟨rfl, fun _ => rfl⟩
  | exhausted _ hreceived => exact absurd (hgone.symm.trans hreceived) Bool.false_ne_true
  | arrival _ _ _ hreceived => exact absurd (hgone.symm.trans hreceived) Bool.false_ne_true
  | batchComplete _ _ _ hreceived => exact absurd (hgone.symm.trans hreceived) Bool.false_ne_true
  | taken _ _ hphase => exact ⟨rfl, fun hsends => absurd (hphase.symm.trans hsends) (by simp)⟩
  | told _ hphase => exact ⟨rfl, fun hsends => absurd (hphase.symm.trans hsends) (by simp)⟩

/-- A generator that listens takes the next tick if it lags behind, or learns that the clock is
stopped. -/
theorem Stepped.of_listening (h : Stepped g clock received message? g' clock')
    (hphase : g.phase = .listening) (hhears : g.Hears clock) :
    message? = none ∧
      ((g.tick < clock.tick ∧ g' = { g with tick := g.tick + 1, phase := .sending } ∧
          g'.Hears clock') ∨
        g.tick = clock.tick ∧ clock.stopped = true ∧ g' = { g with phase := .ended (.ok ()) } ∧
          clock' = clock) := by
  cases h with
  | failed hsends => exact absurd (hphase.symm.trans hsends) (by simp)
  | exhausted hsends => exact absurd (hphase.symm.trans hsends) (by simp)
  | arrival _ _ hsends => exact absurd (hphase.symm.trans hsends) (by simp)
  | batchComplete _ _ hsends => exact absurd (hphase.symm.trans hsends) (by simp)
  | taken tick clock' _ htake =>
    rcases hhears.take?_cases with ⟨hlt, c, htake', hafter⟩ | ⟨-, -, htake'⟩ | ⟨-, -, htake'⟩
    · cases htake.symm.trans htake'
      exact ⟨rfl, Or.inl ⟨hlt, rfl, hafter⟩⟩
    · exact absurd (htake.symm.trans htake') (by simp)
    · exact absurd (htake.symm.trans htake') (by simp)
  | told clock' _ htake =>
    rcases hhears.take?_cases with ⟨-, c, htake', -⟩ | ⟨heq, hstopped, htake'⟩ | ⟨-, -, htake'⟩
    · exact absurd (htake.symm.trans htake') (by simp)
    · cases htake.symm.trans htake'
      exact ⟨rfl, Or.inr ⟨heq, hstopped, rfl, rfl⟩⟩
    · exact absurd (htake.symm.trans htake') (by simp)

/-! ## Waiting -/

/-- A generator that has a message to send need not wait. -/
theorem step?_ne_none (hphase : g.phase = .sending) (clock : Clock) (received : Bool) :
    g.step? clock received ≠ none := by
  rw [step?, hphase]
  cases received <;> simp

/-- A generator that has to wait has taken all ticks of a clock that is not stopped. -/
theorem Hears.of_waits (h : g.Hears clock) (hphase : g.phase = .listening)
    (hwaits : g.step? clock received = none) : g.tick = clock.tick ∧ clock.stopped = false := by
  have hnone : clock.take? g.mailbox = none := by
    rw [step?, hphase] at hwaits
    exact Option.map_eq_none_iff.mp hwaits
  rcases h.take?_cases with ⟨-, c, htake, -⟩ | ⟨-, -, htake⟩ | ⟨heq, hrun, -⟩
  · exact absurd (hnone.symm.trans htake) (by simp)
  · exact absurd (hnone.symm.trans htake) (by simp)
  · exact ⟨heq, hrun⟩

/-- How far the generator is from where it has to wait. -/
def weight (g : Generator) (clock : Clock) : Nat :=
  match g.phase with
  | .sending => g.pending.length + 2 * g.backlog clock + 2
  | .listening => g.pending.length + 2 * g.backlog clock + 1
  | .ended _ => 0

/-- Every step brings it nearer to where it has to wait. -/
theorem Stepped.weight_lt (h : Stepped g clock received message? g' clock') :
    g'.weight clock' < g.weight clock := by
  cases h with
  | failed hphase =>
    rw [weight, weight, hphase]
    exact Nat.succ_pos _
  | exhausted hphase =>
    rw [weight, weight, hphase]
    exact Nat.succ_pos _
  | arrival p rest hphase hreceived hpending =>
    simp only [weight, hphase, backlog, hpending, List.length_cons]
    omega
  | batchComplete p rest hphase =>
    simp only [weight, hphase, backlog]
    omega
  | taken tick clock' hphase htake =>
    rcases Clock.take?_cases htake with ⟨_, rest, connected, hmailbox, -, rfl⟩ | ⟨hnone, -⟩
    · simp only [weight, hphase, backlog, Clock.mailbox?_modify, hmailbox, if_pos, Option.map_some,
        List.length_cons]
      omega
    · exact absurd hnone (by simp)
  | told clock' hphase =>
    rw [weight, weight, hphase]
    exact Nat.succ_pos _

end Generator
end Uniprocessor
