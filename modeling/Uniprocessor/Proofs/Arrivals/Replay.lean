import Uniprocessor.Arrivals.Replay
import Uniprocessor.Proofs.Arrivals.Steps
import Uniprocessor.Proofs.Arrivals.Transcript

/-!
# The messages of a replay

A generator in the middle of a batch has the same in front of it as one that starts at this tick
with the processes that are left.  This is the invariant of a run: what has been sent and the
transcript of what is left make up the transcript of the workload, however far the clock will get.
A clock that stops cuts the transcript off after the batch of its last tick; a receiver that hangs
up may cut it off anywhere.

* `Replay.Moved`: what may happen;
* `Stage.moved`: the invariant;
* `Stage.rested`: what has been sent where the generator has to wait;
* `run_of_stopped`, `Halted`: a clock that is stopped, and what has been sent on it;
* `Lost.run`: a message that nobody receives is the end of the generator;
* `Replay.run_replays`: **the generator sends the transcript**, in any order of moves.
-/

namespace Uniprocessor
namespace Replay

variable {since : Tick} {ps : List Process} {s s' : Replay} {result : Except Failure Unit}

/-- The generator has to wait, or has ended. -/
def Rests (s : Replay) : Prop :=
  s.step? .step = none

theorem rests_iff : s.Rests ↔ s.generator.step? s.clock s.received = none :=
  Option.map_eq_none_iff

theorem attempt_step {message? : Option ArrivalMessage} {g : Generator} {clock : Clock}
    (h : s.generator.step? s.clock s.received = some (message?, g, clock)) :
    s.attempt .step =
      { s with clock := clock, generator := g, sent := s.sent ++ message?.toList } := by
  rw [attempt, step?, h]
  rfl

theorem attempt_advance (hrun : s.clock.stopped = false) :
    s.attempt .advance = { s with clock := s.clock.advanced } := by
  rw [attempt, step?, Clock.advance?_eq hrun]
  rfl

theorem run_replicate_of_rests (h : s.Rests) (n : Nat) :
    s.run (List.replicate n .step) = s := by
  have hattempt : s.attempt .step = s := by
    rw [attempt, show s.step? .step = none from h]
    rfl
  induction n with
  | zero => rfl
  | succ n ih =>
    rw [List.replicate_succ]
    show (s.attempt .step).run _ = s
    rw [hattempt, ih]

/-- A number of steps at once. -/
theorem run_replicate (n : Nat) (s : Replay) :
    s.run (List.replicate n .step) =
      { s with
        clock := (Generator.runFor n s.generator s.clock s.received).2.2
        generator := (Generator.runFor n s.generator s.clock s.received).2.1
        sent := s.sent ++ (Generator.runFor n s.generator s.clock s.received).1 } := by
  induction n generalizing s with
  | zero =>
    rw [Generator.runFor, List.append_nil]
    rfl
  | succ n ih =>
    rw [Generator.runFor]
    cases hstep : s.generator.step? s.clock s.received with
    | none =>
      rw [run_replicate_of_rests (rests_iff.mpr hstep)]
      simp
    | some next =>
      rw [List.replicate_succ]
      show (s.attempt .step).run _ = _
      rw [attempt_step hstep, ih]
      simp [List.append_assoc]

/-- After as many steps as it may be away from it, the generator has to wait. -/
theorem rests_of_weight_le {n : Nat} (h : s.generator.weight s.clock ≤ n) :
    (s.run (List.replicate n .step)).Rests := by
  induction n generalizing s with
  | zero =>
    cases hstep : s.generator.step? s.clock s.received with
    | none => exact rests_iff.mpr hstep
    | some next =>
      have hlt := Nat.lt_of_lt_of_le (Generator.stepped hstep).weight_lt h
      exact absurd hlt (Nat.not_lt_zero _)
  | succ n ih =>
    cases hstep : s.generator.step? s.clock s.received with
    | none =>
      have hrests : s.Rests := rests_iff.mpr hstep
      rw [run_replicate_of_rests hrests]
      exact hrests
    | some next =>
      rw [List.replicate_succ]
      show ((s.attempt .step).run _).Rests
      rw [attempt_step hstep]
      exact ih (Nat.le_of_lt_succ (Nat.lt_of_lt_of_le (Generator.stepped hstep).weight_lt h))

theorem settle_eq (s : Replay) :
    s.settle = s.run (List.replicate
      (s.generator.pending.length + 2 * s.generator.backlog s.clock + 2) .step) := by
  rw [run_replicate, settle, Generator.run]

/-- **The generator comes to where it has to wait.** -/
theorem settle_rests (s : Replay) : s.settle.Rests := by
  rw [settle_eq]
  apply rests_of_weight_le
  rw [Generator.weight]
  split <;> omega

/-! ## What may happen -/

/-- What a move comes to, whether or not it can be made. -/
inductive Moved (s : Replay) : Replay → Prop
  | still : Moved s s
  | stepped (message? : Option ArrivalMessage) (g : Generator) (clock : Clock)
      (hstep : s.generator.Stepped s.clock s.received message? g clock) :
      Moved s { s with clock := clock, generator := g, sent := s.sent ++ message?.toList }
  | advanced (hrun : s.clock.stopped = false) : Moved s { s with clock := s.clock.advanced }
  | stopped : Moved s { s with clock := s.clock.stop }
  | hungUp : Moved s { s with received := false }

theorem moved_attempt (s : Replay) (m : ReplayMove) : s.Moved (s.attempt m) := by
  cases m with
  | step =>
    cases hnext : s.generator.step? s.clock s.received with
    | none =>
      rw [attempt, step?, hnext]
      exact .still
    | some next =>
      rw [attempt_step hnext]
      exact .stepped next.1 next.2.1 next.2.2 (Generator.stepped hnext)
  | advance =>
    rw [attempt, step?]
    cases hstopped : s.clock.stopped with
    | true => rw [Clock.advance?, if_pos hstopped]; exact .still
    | false => rw [Clock.advance?_eq hstopped]; exact .advanced hstopped
  | stop => exact .stopped
  | hangUp => exact .hungUp

/-- What every move keeps, a run keeps. -/
theorem run_of_moved {P : Replay → Prop} (hmoved : ∀ {s s'}, P s → Moved s s' → P s') (hs : P s)
    (moves : List ReplayMove) : P (s.run moves) := by
  induction moves generalizing s with
  | nil => exact hs
  | cons m moves ih => exact ih (hmoved hs (s.moved_attempt m))

/-- Of a generator that has ended nothing is sent any more. -/
theorem run_of_ended (h : s.generator.phase = .ended result) (later : List ReplayMove) :
    (s.run later).generator = s.generator ∧ (s.run later).sent = s.sent := by
  refine run_of_moved (P := fun t => t.generator = s.generator ∧ t.sent = s.sent)
    (fun {t t'} ht hmoved => ?_) ⟨rfl, rfl⟩ later
  cases hmoved with
  | still => exact ht
  | stepped message? g clock hstep =>
    rw [ht.1] at hstep
    exact absurd h (hstep.phase_ne result)
  | advanced => exact ht
  | stopped => exact ht
  | hungUp => exact ht

/-- What nobody receives is not sent. -/
theorem run_of_gone (h : s.received = false) (later : List ReplayMove) :
    (s.run later).received = false ∧ (s.run later).sent = s.sent := by
  refine run_of_moved (P := fun t => t.received = false ∧ t.sent = s.sent)
    (fun {t t'} ht hmoved => ?_) ⟨h, rfl⟩ later
  cases hmoved with
  | still => exact ht
  | stepped message? g clock hstep =>
    obtain ⟨rfl, -⟩ := hstep.of_gone ht.1
    exact ⟨ht.1, (List.append_nil _).trans ht.2⟩
  | advanced => exact ht
  | stopped => exact ht
  | hungUp => exact ⟨rfl, ht.2⟩

/-- A clock that is stopped stays where it is. -/
theorem run_of_stopped (h : s.clock.stopped = true) (later : List ReplayMove) :
    (s.run later).clock.stopped = true ∧ (s.run later).clock.tick = s.clock.tick := by
  refine run_of_moved (P := fun t => t.clock.stopped = true ∧ t.clock.tick = s.clock.tick)
    (fun {t t'} ht hmoved => ?_) ⟨h, rfl⟩ later
  cases hmoved with
  | still => exact ht
  | stepped message? g clock hstep =>
    exact ⟨hstep.clock_eq.1.trans ht.1, hstep.clock_eq.2.trans ht.2⟩
  | advanced hrun => exact absurd (hrun.symm.trans ht.1) Bool.false_ne_true
  | stopped => exact ⟨rfl, ht.2⟩
  | hungUp => exact ht

theorem run_append (s : Replay) (moves later : List ReplayMove) :
    s.run (moves ++ later) = (s.run moves).run later :=
  List.foldl_append

/-! ## Arrivals -/

theorem arrivals_concat (s : Replay) (message? : Option ArrivalMessage) (g : Generator)
    (clock : Clock) :
    arrivals { s with clock := clock, generator := g, sent := s.sent ++ message?.toList } =
      s.arrivals ++ message?.toList.filterMap ArrivalMessage.process? :=
  List.filterMap_append

/-- What has been sent and what has not make up the workload, and the generator has ended if it has
said that it is done. -/
structure Divides (ps : List Process) (s : Replay) : Prop where
  arrivals : s.arrivals ++ s.generator.pending = ps
  exhausted : .exhausted ∈ s.sent → s.generator.phase = .ended (.ok ())

theorem divides_start (w : Workload) (clock : Clock) : Divides w.processes (start w clock) where
  arrivals := rfl
  exhausted := fun h => absurd h List.not_mem_nil

theorem Divides.moved (h : Divides ps s) (hmoved : s.Moved s') : Divides ps s' := by
  cases hmoved with
  | still => exact h
  | stepped message? g clock hstep =>
    -- the generator has not said that it is done, as it still makes steps
    have hsent : .exhausted ∉ s.sent := fun hmem => hstep.phase_ne _ (h.exhausted hmem)
    have hps := h.arrivals
    have hnone : s.arrivals ++ [] ++ s.generator.pending = ps := by
      rw [List.append_nil]
      exact hps
    refine ⟨?_, fun hmem => ?_⟩
    · rw [arrivals_concat]
      cases hstep with
      | arrival p rest hphase hreceived hpending =>
        rw [hpending] at hps
        exact (List.append_assoc s.arrivals [p] rest).trans hps
      | exhausted => exact hnone
      | batchComplete => exact hnone
      | failed => exact hnone
      | taken => exact hnone
      | told => exact hnone
    · have hmessage := (List.mem_append.mp hmem).resolve_left hsent
      cases hstep with
      | exhausted => rfl
      | arrival => exact absurd hmessage (by simp)
      | batchComplete => exact absurd hmessage (by simp)
      | failed => exact absurd hmessage (by simp)
      | taken => exact absurd hmessage (by simp)
      | told => exact absurd hmessage (by simp)
  | advanced => exact ⟨h.arrivals, h.exhausted⟩
  | stopped => exact ⟨h.arrivals, h.exhausted⟩
  | hungUp => exact ⟨h.arrivals, h.exhausted⟩

/-! ## Where a replay stands -/

/-- The batches from `next` on, when the pending processes are left, complete the transcript. -/
structure Completes (since : Tick) (ps : List Process) (s : Replay) (next : Tick) : Prop where
  transcript_eq : ∀ now, s.generator.tick ≤ now →
    s.sent ++ transcript next s.generator.pending now = transcript since ps now
  last_eq : lastTick next s.generator.pending = lastTick since ps

/-- With all ticks taken, what has been sent is the transcript, and there is more to come. -/
theorem Completes.sent_eq (h : Completes since ps s (s.generator.tick + 1))
    (heq : s.generator.tick = s.clock.tick) : s.sent = transcript since ps s.clock.tick := by
  rw [← h.transcript_eq _ (Nat.le_of_eq heq), transcript_of_lt (heq ▸ Nat.lt_succ_self _),
    List.append_nil]

theorem Completes.lt_lastTick (h : Completes since ps s (s.generator.tick + 1))
    (heq : s.generator.tick = s.clock.tick) : s.clock.tick < lastTick since ps := by
  rw [← h.last_eq, ← heq]
  exact le_lastTick _ _

/-- Where the replay of a workload stands. -/
inductive Stage (since : Tick) (ps : List Process) (s : Replay) : Prop
  | sending (hphase : s.generator.phase = .sending) (hhears : s.generator.Hears s.clock)
      (hrest : Completes since ps s s.generator.tick)
  | listening (hphase : s.generator.phase = .listening) (hhears : s.generator.Hears s.clock)
      (hrest : Completes since ps s (s.generator.tick + 1))
  /-- All processes have been sent. -/
  | exhausted (hphase : s.generator.phase = .ended (.ok ())) (hpending : s.generator.pending = [])
      (hlast : lastTick since ps ≤ s.clock.tick)
      (hsent : ∀ now, lastTick since ps ≤ now → s.sent = transcript since ps now)
  /-- The clock was stopped before all processes were sent. -/
  | stopped (hphase : s.generator.phase = .ended (.ok ())) (hstopped : s.clock.stopped = true)
      (hlast : s.clock.tick < lastTick since ps) (hsent : s.sent = transcript since ps s.clock.tick)
  /-- A message was not received. -/
  | failed (hphase : s.generator.phase = .ended (.error (.channel .receiverGone)))
      (hgone : s.received = false)
      (hsent : ∀ now, s.clock.tick ≤ now → s.sent <+: transcript since ps now)

theorem stage_start (w : Workload) (clock : Clock) :
    Stage clock.tick w.processes (start w clock) :=
  .sending rfl (Generator.hears_start w clock) ⟨fun _ _ => rfl, rfl⟩

theorem Stage.stepped {message? : Option ArrivalMessage} {g : Generator} {clock : Clock}
    (h : Stage since ps s)
    (hstep : s.generator.Stepped s.clock s.received message? g clock) :
    Stage since ps
      { s with clock := clock, generator := g, sent := s.sent ++ message?.toList } := by
  cases h with
  | sending hphase hhears hrest =>
    cases hstep with
    | failed _ hgone =>
      refine .failed rfl hgone fun now hnow => ?_
      rw [← hrest.transcript_eq now (Nat.le_trans hhears.tick_le hnow)]
      exact (List.append_nil s.sent).symm ▸ List.prefix_append _ _
    | exhausted _ hreceived hpending =>
      have hlast : s.generator.tick = lastTick since ps := by
        rw [← hrest.last_eq, hpending]
        rfl
      refine .exhausted rfl hpending (hlast ▸ hhears.tick_le) fun now hnow => ?_
      have hle : s.generator.tick ≤ now := hlast.symm ▸ hnow
      rw [← hrest.transcript_eq now hle, hpending, transcript_nil hle]
      rfl
    | arrival p rest _ hreceived hpending hdue =>
      refine .sending hphase ⟨hhears.tick_le, hhears.mailbox⟩ ⟨fun now hnow => ?_, ?_⟩
      · rw [← hrest.transcript_eq now hnow, hpending, transcript_of_due hdue hnow]
        exact List.append_assoc _ [_] _
      · rw [← hrest.last_eq, hpending, lastTick_cons, Nat.max_eq_left hdue]
    | batchComplete p rest _ hreceived hpending hdue =>
      refine .listening rfl ⟨hhears.tick_le, hhears.mailbox⟩ ⟨fun now hnow => ?_, ?_⟩
      · rw [← hrest.transcript_eq now hnow, hpending, transcript_of_not_due hdue hnow]
        exact List.append_assoc _ [_] _
      · rw [← hrest.last_eq, hpending, lastTick_of_not_due hdue]
    | taken tick clock' hlistens => exact absurd (hphase.symm.trans hlistens) (by simp)
    | told clock' hlistens => exact absurd (hphase.symm.trans hlistens) (by simp)
  | listening hphase hhears hrest =>
    obtain ⟨rfl, ⟨-, rfl, hhears'⟩ | ⟨heq, hstopped, rfl, rfl⟩⟩ := hstep.of_listening hphase hhears
    · refine .sending rfl hhears' ⟨fun now hnow => ?_, hrest.last_eq⟩
      rw [← hrest.transcript_eq now (Nat.le_of_succ_le hnow)]
      exact congrArg (· ++ _) (List.append_nil s.sent)
    · refine .stopped rfl hstopped (hrest.lt_lastTick heq) ?_
      exact (List.append_nil _).trans (hrest.sent_eq heq)
  | exhausted hphase => exact absurd hphase (hstep.phase_ne _)
  | stopped hphase => exact absurd hphase (hstep.phase_ne _)
  | failed hphase => exact absurd hphase (hstep.phase_ne _)

theorem Stage.moved (h : Stage since ps s) (hmoved : s.Moved s') : Stage since ps s' := by
  cases hmoved with
  | still => exact h
  | stepped message? g clock hstep => exact h.stepped hstep
  | advanced hrun =>
    cases h with
    | sending hphase hhears hrest => exact .sending hphase (hhears.advanced hrun) ⟨hrest.1, hrest.2⟩
    | listening hphase hhears hrest =>
      exact .listening hphase (hhears.advanced hrun) ⟨hrest.1, hrest.2⟩
    | exhausted hphase hpending hlast hsent =>
      exact .exhausted hphase hpending (Nat.le_succ_of_le hlast) hsent
    | stopped hphase hstopped => exact absurd (hrun.symm.trans hstopped) Bool.false_ne_true
    | failed hphase hgone hsent =>
      exact .failed hphase hgone fun now hnow => hsent now (Nat.le_of_succ_le hnow)
  | stopped =>
    cases h with
    | sending hphase hhears hrest => exact .sending hphase hhears.stop ⟨hrest.1, hrest.2⟩
    | listening hphase hhears hrest => exact .listening hphase hhears.stop ⟨hrest.1, hrest.2⟩
    | exhausted hphase hpending hlast hsent => exact .exhausted hphase hpending hlast hsent
    | stopped hphase hstopped hlast hsent => exact .stopped hphase rfl hlast hsent
    | failed hphase hgone hsent => exact .failed hphase hgone hsent
  | hungUp =>
    cases h with
    | sending hphase hhears hrest => exact .sending hphase hhears ⟨hrest.1, hrest.2⟩
    | listening hphase hhears hrest => exact .listening hphase hhears ⟨hrest.1, hrest.2⟩
    | exhausted hphase hpending hlast hsent => exact .exhausted hphase hpending hlast hsent
    | stopped hphase hstopped hlast hsent => exact .stopped hphase hstopped hlast hsent
    | failed hphase hgone hsent => exact .failed hphase rfl hsent

/-- Whatever has been sent is a beginning of the transcript. -/
theorem Stage.sent_prefix (h : Stage since ps s) : s.sent <+: transcript since ps s.clock.tick := by
  cases h with
  | sending hphase hhears hrest =>
    rw [← hrest.transcript_eq _ hhears.tick_le]
    exact List.prefix_append _ _
  | listening hphase hhears hrest =>
    rw [← hrest.transcript_eq _ hhears.tick_le]
    exact List.prefix_append _ _
  | exhausted hphase hpending hlast hsent => exact hsent _ hlast ▸ List.prefix_rfl
  | stopped hphase hstopped hlast hsent => exact hsent ▸ List.prefix_rfl
  | failed hphase hgone hsent => exact hsent _ (Nat.le_refl _)

/-- **Where a generator has to wait or has ended**, all batches up to now have been sent. -/
theorem Stage.rested (h : Stage since ps s) (hreceived : s.received = true) (hrests : s.Rests) :
    s.sent = transcript since ps s.clock.tick ∧ s.generator.result? =
      if lastTick since ps ≤ s.clock.tick ∨ s.clock.stopped = true then some (.ok ())
      else none := by
  cases h with
  | sending hphase =>
    exact absurd (rests_iff.mp hrests) (Generator.step?_ne_none hphase _ _)
  | listening hphase hhears hrest =>
    obtain ⟨heq, hrun⟩ := hhears.of_waits hphase (rests_iff.mp hrests)
    have hlast := hrest.lt_lastTick heq
    refine ⟨hrest.sent_eq heq, ?_⟩
    rw [if_neg (by simp [hrun, hlast]), Generator.result?, hphase]
  | exhausted hphase hpending hlast hsent =>
    exact ⟨hsent _ hlast, by rw [if_pos (Or.inl hlast), Generator.result?, hphase]⟩
  | stopped hphase hstopped hlast hsent =>
    exact ⟨hsent, by rw [if_pos (Or.inr hstopped), Generator.result?, hphase]⟩
  | failed hphase hgone => exact absurd (hgone.symm.trans hreceived) Bool.false_ne_true

/-! ## Receivers that hang up -/

/-- The generator has a message to send that nobody receives, or had one. -/
inductive Lost (s : Replay) : Prop
  | sending (hphase : s.generator.phase = .sending)
  | lagging (hphase : s.generator.phase = .listening) (hhears : s.generator.Hears s.clock)
      (hlt : s.generator.tick < s.clock.tick)
  | failed (hphase : s.generator.phase = .ended (.error (.channel .receiverGone)))

/-- The next tick is a batch to close, for which there is no receiver. -/
theorem Stage.lost (h : Stage since ps s) (hpending : s.generator.pending ≠ [])
    (hrun : s.clock.stopped = false) : Lost (s.attempt .advance) := by
  rw [attempt_advance hrun]
  cases h with
  | sending hphase => exact .sending hphase
  | listening hphase hhears =>
    exact .lagging hphase (hhears.advanced hrun) (Nat.lt_succ_of_le hhears.tick_le)
  | exhausted hphase hnone => exact absurd hnone hpending
  | stopped hphase hstopped => exact absurd (hrun.symm.trans hstopped) Bool.false_ne_true
  | failed hphase => exact .failed hphase

theorem Lost.moved (h : Lost s) (hgone : s.received = false) (hmoved : s.Moved s') : Lost s' := by
  cases hmoved with
  | still => exact h
  | stepped message? g clock hstep =>
    cases h with
    | sending hphase => exact .failed ((hstep.of_gone hgone).2 hphase)
    | lagging hphase hhears hlt =>
      obtain ⟨-, ⟨-, rfl, -⟩ | ⟨heq, -⟩⟩ := hstep.of_listening hphase hhears
      · exact .sending rfl
      · exact absurd heq (Nat.ne_of_lt hlt)
    | failed hphase => exact absurd hphase (hstep.phase_ne _)
  | advanced hrun =>
    cases h with
    | sending hphase => exact .sending hphase
    | lagging hphase hhears hlt =>
      exact .lagging hphase (hhears.advanced hrun) (Nat.lt_succ_of_lt hlt)
    | failed hphase => exact .failed hphase
  | stopped =>
    cases h with
    | sending hphase => exact .sending hphase
    | lagging hphase hhears hlt => exact .lagging hphase hhears.stop hlt
    | failed hphase => exact .failed hphase
  | hungUp =>
    cases h with
    | sending hphase => exact .sending hphase
    | lagging hphase hhears hlt => exact .lagging hphase hhears hlt
    | failed hphase => exact .failed hphase

/-- Where it has to wait or has ended, a generator whose message was lost has failed. -/
theorem Lost.result?_eq (h : Lost s) (hrests : s.Rests) :
    s.generator.result? = some (.error (.channel .receiverGone)) := by
  cases h with
  | sending hphase =>
    exact absurd (rests_iff.mp hrests) (Generator.step?_ne_none hphase _ _)
  | lagging hphase hhears hlt =>
    exact absurd (hhears.of_waits hphase (rests_iff.mp hrests)).1 (Nat.ne_of_lt hlt)
  | failed hphase => rw [Generator.result?, hphase]

theorem Lost.run (h : Lost s) (hgone : s.received = false) (later : List ReplayMove) :
    Lost (s.run later) := by
  refine (run_of_moved (P := fun t => t.received = false ∧ Lost t) (fun {t t'} ht hmoved => ?_)
    ⟨hgone, h⟩ later).2
  refine ⟨?_, ht.2.moved ht.1 hmoved⟩
  cases hmoved with
  | hungUp => rfl
  | still => exact ht.1
  | stepped => exact ht.1
  | advanced => exact ht.1
  | stopped => exact ht.1

/-! ## Any moves -/

/-- What a replay of `ps` from the tick `since` on has come to, after its clock was stopped at the tick
`now`. -/
structure Halted (since : Tick) (ps : List Process) (now : Tick) (s : Replay) : Prop where
  stopped : s.clock.stopped = true
  tick : s.clock.tick = now
  /-- Once the generator rests, all batches up to now have been sent. -/
  sent : s.received = true → s.Rests → s.sent = transcript since ps now
  /-- It says that it is done only if these are all. -/
  exhausted : s.received = true → s.Rests → (.exhausted ∈ s.sent ↔ lastTick since ps ≤ now)
  /-- It has ended without failure, all the same. -/
  ended : s.received = true → s.Rests → s.generator.result? = some (.ok ())

/-- What a replay of `ps` from the tick `since` on has come to. -/
structure Faithful (since : Tick) (ps : List Process) (s : Replay) : Prop where
  /-- After some steps of its own the generator has to wait, or has ended. -/
  settles : s.settle.Rests ∧ ∃ n, s.settle = s.run (List.replicate n .step)
  /-- The processes that have been sent are the first ones, in their order, each once. -/
  arrivals : s.arrivals ++ s.generator.pending = ps
  /-- What has been sent is a beginning of the batches up to now. -/
  sent : s.sent <+: transcript since ps s.clock.tick
  /-- Once the generator rests these have been sent as a whole; it has said that it is done if all
  processes have been sent, and has ended without failure if so or if the clock is stopped. -/
  rested : s.received = true → s.Rests → s.sent = transcript since ps s.clock.tick ∧
    (.exhausted ∈ s.sent ↔ lastTick since ps ≤ s.clock.tick) ∧ s.generator.result? =
      if lastTick since ps ≤ s.clock.tick ∨ s.clock.stopped = true then some (.ok ()) else none
  /-- After it has said that it is done it has ended, and sends nothing more. -/
  exhausted : .exhausted ∈ s.sent → s.generator.result? = some (.ok ()) ∧
    ∀ later, (s.run later).generator = s.generator ∧ (s.run later).sent = s.sent
  /-- The clock moves on by one tick, unless it is stopped. -/
  onward : s.clock.stopped = false → (s.attempt .advance).clock.tick = s.clock.tick + 1
  /-- If it is stopped now, it stays so, and the generator ends. -/
  halted : ∀ later, Halted since ps s.clock.tick (s.run (.stop :: later))
  /-- A receiver that hangs up now is gone for good. -/
  gone : ∀ later, (s.run (.hangUp :: later)).received = false
  /-- Without a receiver nothing more is sent. -/
  unheard : s.received = false → ∀ later, (s.run later).sent = s.sent
  /-- Without a receiver and with processes left, it fails for the next tick at the latest. -/
  lost : s.received = false → s.generator.pending ≠ [] → s.clock.stopped = false → ∀ later,
    ((s.attempt .advance).run later).Rests →
      ((s.attempt .advance).run later).generator.result? = some (.error (.channel .receiverGone))

theorem Stage.halted {now : Tick} (h : Stage since ps s)
    (hclock : s.clock.stopped = true ∧ s.clock.tick = now) : Halted since ps now s := by
  obtain ⟨hstopped, rfl⟩ := hclock
  refine ⟨hstopped, rfl, fun hreceived hrests => (h.rested hreceived hrests).1,
    fun hreceived hrests => ?_, fun hreceived hrests => ?_⟩
  · rw [(h.rested hreceived hrests).1]
    exact exhausted_mem_transcript
  · rw [(h.rested hreceived hrests).2, if_pos (Or.inr hstopped)]

/-- **The generator replays its workload.**  Whatever the workload, sorted or not, whatever the
clock at the start, and whatever happens then: the processes are sent in their order, each of them
in the batch of the tick at which it and all those in front of it are due.  There is a batch for
every tick from the start on, up to the one with the last process, and each is closed once. -/
theorem run_replays (w : Workload) (clock : Clock) (moves : List ReplayMove) :
    Faithful clock.tick w.processes ((start w clock).run moves) := by
  have hdivides := run_of_moved Divides.moved (divides_start w clock) moves
  have hstage := run_of_moved Stage.moved (stage_start w clock) moves
  refine ⟨⟨settle_rests _, _, settle_eq _⟩, hdivides.arrivals, hstage.sent_prefix,
    fun hreceived hrests => ?_, fun hmem => ?_, fun hrun => ?_, fun later => ?_,
    fun later => (run_of_gone rfl later).1, fun hgone later => (run_of_gone hgone later).2,
    fun hgone hpending hrun later hrests => ?_⟩
  · obtain ⟨hsent, hresult⟩ := hstage.rested hreceived hrests
    exact ⟨hsent, by rw [hsent]; exact exhausted_mem_transcript, hresult⟩
  · have hended := hdivides.exhausted hmem
    exact ⟨by rw [Generator.result?, hended], run_of_ended hended⟩
  · rw [attempt_advance hrun]
    rfl
  · have hlater := run_of_moved Stage.moved (stage_start w clock) (moves ++ .stop :: later)
    rw [run_append] at hlater
    exact hlater.halted (run_of_stopped rfl later)
  · have hgone' : (((start w clock).run moves).attempt .advance).received = false :=
      (run_of_gone hgone [.advance]).1
    exact ((hstage.lost hpending hrun).run hgone' later).result?_eq hrests

/-- Processes that are not in the order of their arrivals. -/
def unsorted : Workload :=
  ⟨[⟨1, 0, 3, 1, 10⟩, ⟨2, 2, 3, 1, 10⟩, ⟨3, 1, 3, 1, 10⟩]⟩

/-- The last process is due at tick 1 and sent at tick 2, with the one in front of it.  If the clock
is stopped at tick 1 it is not sent, and the generator has ended without failure.  A receiver that
hangs up after the first batch makes the generator fail for the next tick. -/
theorem run_replays_unsorted :
    let s := start unsorted .start
    (s.run ([.advance, .advance] ++ List.replicate 8 .step)).sent =
        [.arrival ⟨1, 0, 3, 1, 10⟩, .batchComplete 0, .batchComplete 1,
          .arrival ⟨2, 2, 3, 1, 10⟩, .arrival ⟨3, 1, 3, 1, 10⟩, .exhausted] ∧
      (s.run ([.advance] ++ .stop :: (.advance :: List.replicate 8 .step))).sent =
        [.arrival ⟨1, 0, 3, 1, 10⟩, .batchComplete 0, .batchComplete 1] ∧
      (s.run ([.advance] ++ .stop :: (.advance :: List.replicate 8 .step))).generator.result? =
        some (.ok ()) ∧
      (s.run [.step, .step, .hangUp, .advance, .step, .step]).generator.result? =
        some (.error (.channel .receiverGone)) := by
  have hall := run_replays unsorted .start ([.advance, .advance] ++ List.replicate 8 .step)
  have hstop := (run_replays unsorted .start [.advance]).halted (.advance :: List.replicate 8 .step)
  have hfirst := run_replays unsorted .start [.step, .step, .hangUp]
  exact ⟨(hall.rested rfl rfl).1.trans (by decide), (hstop.sent rfl rfl).trans (by decide),
    hstop.ended rfl rfl, hfirst.lost rfl (by decide) rfl [.step, .step] rfl⟩

end Replay
end Uniprocessor
