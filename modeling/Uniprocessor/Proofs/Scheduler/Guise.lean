import Uniprocessor.Proofs.Journal.Later
import Uniprocessor.Proofs.Process.Guise
import Uniprocessor.Proofs.Ready.Queue
import Uniprocessor.Scheduler.Basic

/-!
# Schedulers under a guise

A scheduler under a guise has the same policy and the same ready structure, entry by entry; its arena and
its table are seen under the guise, what it has written down happened later, and it has been idle for as
much longer.  Every operation looks at these in ways that do not show the guise, and changes them alike
in both.  The operations are taken one by one; what an operation answers is made later by the delay, and
is otherwise the same.

* `Attempt.Guised`: an attempt is another one under a guise, `Attempt.Guised.andThen`: and so are two of
  them in a row;
* `Scheduler.Guised`: a scheduler is another one under a guise;
* `Scheduler.Guised.arrive`, `evict`, `close`, `decide`, …: **the operations keep it so.**
-/

namespace Uniprocessor

namespace Attempt

variable {σ τ α β γ δ : Type}

/-- The attempt `x'` answers what `x` does, made later, and leaves related states behind. -/
structure Guised (d : Nat) (f : α → β) (R : σ → τ → Prop) (x : Attempt σ α) (x' : Attempt τ β) :
    Prop where
  result : x'.result = delayed d f x.result
  state : R x.state x'.state

variable {d : Nat} {f : α → β} {R : σ → τ → Prop}

theorem Guised.done {s : σ} {s' : τ} (h : R s s') (a : α) :
    Guised d f R (done a s) (done (f a) s') :=
  ⟨rfl, h⟩

theorem Guised.refused {s : σ} {s' : τ} (h : R s s') (e : Failure) :
    Guised d f R (refused e s) (refused (e.later d) s') :=
  ⟨rfl, h⟩

/-- What comes after related attempts in related states is related. -/
theorem Guised.andThen {x : Attempt σ α} {x' : Attempt τ β} {k : α → σ → Attempt σ γ}
    {k' : β → τ → Attempt τ δ} {f' : γ → δ} (h : Guised d f R x x')
    (hk : ∀ a s s', R s s' → Guised d f' R (k a s) (k' (f a) s')) :
    Guised d f' R (x.andThen k) (x'.andThen k') := by
  obtain ⟨result, s⟩ := x
  obtain ⟨result', s'⟩ := x'
  obtain ⟨rfl, hs⟩ := h
  cases result with
  | ok a => exact hk a s s' hs
  | error e => exact .refused hs e

/-- Attempts on parts of related states. -/
theorem Guised.within {υ φ : Type} {x : Attempt σ α} {x' : Attempt τ β} {S : υ → φ → Prop} {p : σ → υ}
    {p' : τ → φ} (h : Guised d f R x x') (hp : ∀ s s', R s s' → S (p s) (p' s')) :
    Guised d f S (x.within p) (x'.within p') :=
  ⟨h.result, hp _ _ h.state⟩

end Attempt

/-- A ready structure refuses a process without saying when. -/
theorem ReadyQueue.later_of_insert {q : ReadyQueue} {key : Nat} {slot : Slot} {e : Failure}
    (h : q.insert key slot = .error e) (d : Nat) : e.later d = e := by
  rw [eq_full_of_insert h]
  rfl

namespace Scheduler

variable {g : Guise} {s s' : Scheduler}

/-- The scheduler `s'` is `s` under a guise. -/
structure Guised (g : Guise) (s s' : Scheduler) : Prop where
  policy : s'.policy = s.policy
  memory : s.memory.Guised g s'.memory
  ready : s'.ready = s.ready
  table : s.table.Guised g s'.table
  running : s'.running = s.running
  sliceLeft : s'.sliceLeft = s.sliceLeft
  outstanding : s'.outstanding = s.outstanding
  metrics : s'.metrics = s.metrics.later g.delay
  journal : s'.journal = s.journal.later g.delay

/-- A process in a slot, under a guise. -/
def placeUnder (g : Guise) (x : Slot × ControlBlock) : Slot × ControlBlock :=
  (x.1, x.2.under g)

/-- A process that has the processor, with its slot and its unit, under a guise. -/
def occupantUnder (g : Guise) (x : Slot × ControlBlock × UnitId) : Slot × ControlBlock × UnitId :=
  (x.1, x.2.1.under g, x.2.2)

/-- A process that leaves, with its unit, under a guise. -/
def leaverUnder (g : Guise) (x : ControlBlock × UnitId) : ControlBlock × UnitId :=
  (x.1.under g, x.2)

@[simp] theorem readyKey_under (policy : Policy) (b : ControlBlock) :
    readyKey policy (b.under g) = readyKey policy b := by
  cases policy <;> rfl

namespace Guised

theorem note (h : s.Guised g s') (e : Entry) : (s.note e).Guised g (s'.note (e.later g.delay)) :=
  { h with journal := congrArg (Journal.add · (e.later g.delay)) h.journal }

theorem isDone (h : s.Guised g s') : s'.isDone = s.isDone := by
  rw [Scheduler.isDone, Scheduler.isDone, h.outstanding]

/-! ## Admission -/

theorem reject (h : s.Guised g s') (tick : Tick) (p : Process) :
    (s.reject tick p).Guised g (s'.reject (tick + g.delay) (p.later g.delay)) :=
  { h.note (.memory ⟨tick, p.id, .rejected, p.memory, none⟩) with
    metrics := congrArg Metrics.countRejection h.metrics
    outstanding := congrArg (· - 1) h.outstanding }

theorem takeBack (h : s.Guised g s') (slot : Slot) (block : Buddy.Block) {e : Failure}
    (he : e.later g.delay = e) :
    (s.takeBack slot block e).Guised g.delay id (Guised g) (s'.takeBack slot (block.under g) e) := by
  have htable : (((s.table.remove? slot).map Prod.snd).getD s.table).Guised g
      (((s'.table.remove? slot).map Prod.snd).getD s'.table) := by
    have hremoved := h.table.remove? slot
    generalize s.table.remove? slot = x at hremoved ⊢
    generalize s'.table.remove? slot = x' at hremoved ⊢
    cases hremoved with
    | some hrel => exact hrel.2
    | none => exact h.table
  unfold Scheduler.takeBack
  rcases h.memory.free block with ⟨cause, hfree, hfree'⟩ | ⟨m, m', hfree, hfree', hmemory⟩
  · rw [hfree, hfree']
    exact ⟨rfl, { h with table := htable }⟩
  · rw [hfree, hfree']
    exact ⟨congrArg Except.error he.symm, { h with table := htable, memory := hmemory }⟩

theorem letIn (h : s.Guised g s') (tick : Tick) (p : Process) (block : Buddy.Block) :
    (s.letIn tick p block).Guised g.delay id (Guised g)
      (s'.letIn (tick + g.delay) (p.later g.delay) (block.under g)) := by
  obtain ⟨hslot, htable⟩ := h.table.insert (.ofProcess p block)
  have hinserted : s'.ready.insert (readyKey s'.policy (.ofProcess (p.later g.delay) (block.under g)))
        (s'.table.insert (.ofProcess (p.later g.delay) (block.under g))).1 =
      s.ready.insert (readyKey s.policy (.ofProcess p block))
        (s.table.insert (.ofProcess p block)).1 := by
    rw [ControlBlock.ofProcess_under, readyKey_under, h.policy, h.ready, hslot]
  unfold Scheduler.letIn
  simp only []
  rw [hinserted]
  cases hinsert : s.ready.insert (readyKey s.policy (.ofProcess p block))
      (s.table.insert (.ofProcess p block)).1 with
  | error e =>
    have hin : Guised g { s with table := (s.table.insert (.ofProcess p block)).2 }
        { s' with table := (s'.table.insert ((ControlBlock.ofProcess p block).under g)).2 } :=
      { h with table := htable }
    have htaken := hin.takeBack (s.table.insert (.ofProcess p block)).1 block
      (ReadyQueue.later_of_insert hinsert g.delay)
    rw [← hslot] at htaken
    exact hslot ▸ htaken
  | ok ready =>
    have hin : Guised g
        { s with table := (s.table.insert (.ofProcess p block)).2, ready := ready }
        { s' with
          table := (s'.table.insert ((ControlBlock.ofProcess p block).under g)).2, ready := ready } :=
      { h with table := htable, ready := rfl }
    exact ⟨rfl, hin.note (.memory (.ofBlock p.id tick .allocated block))⟩

/-- **An arrival is answered alike.** -/
theorem arrive (h : s.Guised g s') (tick : Tick) (p : Process) :
    (s.arrive tick p).Guised g.delay id (Guised g)
      (s'.arrive (tick + g.delay) (p.later g.delay)) := by
  unfold Scheduler.arrive
  by_cases hzero : p.runTime = 0
  · rw [if_pos hzero, if_pos (show (p.later g.delay).runTime = 0 from hzero)]
    exact .refused h _
  rw [if_neg hzero, if_neg (show (p.later g.delay).runTime ≠ 0 from hzero)]
  have hmemory := h.memory.allocate? p.memory
  generalize s.memory.allocate? p.memory = x at hmemory ⊢
  change Option.Rel _ x (s'.memory.allocate? (p.later g.delay).memory) at hmemory
  generalize s'.memory.allocate? (p.later g.delay).memory = x' at hmemory ⊢
  cases hmemory with
  | none => exact .done (h.reject tick p) _
  | @some out out' hrel =>
    obtain ⟨block, memory⟩ := out
    obtain ⟨block', memory'⟩ := out'
    obtain ⟨rfl, hmemory⟩ := hrel
    have hgiven : Guised g { s with memory := memory } { s' with memory := memory' } :=
      { h with memory := hmemory }
    exact hgiven.letIn tick p block

/-! ## Reports -/

theorem addressee (h : s.Guised g s') (report : UnitReport) :
    s'.addressee (report.later g.delay) = delayed g.delay (placeUnder g) (s.addressee report) := by
  unfold Scheduler.addressee
  rw [h.running]
  cases s.running with
  | none => rfl
  | some slot =>
    simp only [h.table.get?]
    cases s.table.get? slot with
    | none => rfl
    | some b =>
      simp only [Option.map_some, UnitReport.unit_later]
      by_cases hunit : b.unit = some report.unit
      · rw [if_pos hunit, if_pos (show (b.under g).unit = _ from hunit)]
        rfl
      · rw [if_neg hunit, if_neg (show (b.under g).unit ≠ _ from hunit)]
        rfl

theorem heard (h : s.Guised g s') (slot : Slot) (b : ControlBlock) (remaining : Nat) :
    (s.heard slot b remaining).Guised g (s'.heard slot (b.under g) remaining) :=
  { h with table := h.table.set slot { b with remaining := remaining } }

/-! ## The end of a process -/

theorem evict (h : s.Guised g s') :
    s.evict.Guised g.delay (leaverUnder g) (Guised g) s'.evict := by
  unfold Scheduler.evict
  rw [h.running]
  cases s.running with
  | none => exact .refused h _
  | some slot =>
    have hremoved := h.table.remove? slot
    simp only []
    generalize s.table.remove? slot = x at hremoved ⊢
    generalize s'.table.remove? slot = x' at hremoved ⊢
    cases hremoved with
    | none => exact .refused { h with running := rfl } _
    | @some out out' hrel =>
      obtain ⟨b, table⟩ := out
      obtain ⟨b', table'⟩ := out'
      obtain ⟨rfl, htable⟩ := hrel
      have hout : Guised g { s with running := none, table := table }
          { s' with running := none, table := table' } := { h with running := rfl, table := htable }
      simp only [ControlBlock.unit_under]
      cases b.unit with
      | none => exact .refused hout _
      | some unit => exact .done hout (b, unit)

theorem finishOf_under (b : ControlBlock) (tick : Tick) :
    finishOf (b.under g) (tick + g.delay) = finishOf b tick := by
  rw [finishOf, finishOf, ControlBlock.turnaround_under, ControlBlock.weightedTurnaround_under]
  rfl

theorem finishEvent_under (b : ControlBlock) (tick : Tick) :
    finishEvent (b.under g) (tick + g.delay) = (finishEvent b tick).later g.delay := by
  rw [finishEvent, finishEvent, ControlBlock.turnaround_under, ControlBlock.weightedTurnaround_under]
  rfl

theorem close (h : s.Guised g s') (tick : Tick) (b : ControlBlock) :
    (s.close tick b).Guised g.delay id (Guised g) (s'.close (tick + g.delay) (b.under g)) := by
  have hfinished : Guised g
      { s.note (.process (finishEvent b tick)) with metrics := s.metrics.countFinish (finishOf b tick) }
      { s'.note (.process (finishEvent (b.under g) (tick + g.delay))) with
        metrics := s'.metrics.countFinish (finishOf (b.under g) (tick + g.delay)) } := by
    rw [finishOf_under, finishEvent_under]
    exact { h.note (.process (finishEvent b tick)) with
      metrics := congrArg (Metrics.countFinish · (finishOf b tick)) h.metrics }
  unfold Scheduler.close
  simp only []
  rcases hfinished.memory.free b.memory with
    ⟨cause, hfree, hfree'⟩ | ⟨m, m', hfree, hfree', hmemory⟩
  · rw [hfree, show Buddy.free _ (b.under g).memory = _ from hfree']
    exact .refused hfinished _
  · rw [hfree, show Buddy.free _ (b.under g).memory = _ from hfree']
    exact .done
      { hfinished.note (.memory (.ofBlock b.id tick .freed b.memory)) with
        memory := hmemory
        outstanding := congrArg (· - 1) h.outstanding } ()

/-! ## Dispatch -/

theorem occupant (h : s.Guised g s') :
    s'.occupant = delayed g.delay (Option.map (occupantUnder g)) s.occupant := by
  unfold Scheduler.occupant
  rw [h.running]
  cases s.running with
  | none => rfl
  | some slot =>
    simp only [h.table.get?]
    cases s.table.get? slot with
    | none => rfl
    | some b =>
      simp only [Option.map_some, ControlBlock.unit_under]
      cases b.unit <;> rfl

/-- **The same is decided.** -/
theorem decide (h : s.Guised g s') (tick : Tick) (left : Option Nat) :
    (s'.decide (tick + g.delay) left).1 = (s.decide tick left).1 ∧
      (s.decide tick left).2.Guised g (s'.decide (tick + g.delay) left).2 := by
  cases left with
  | none => exact ⟨rfl, h⟩
  | some left =>
    have hless : s'.ready.leastKey? = s.ready.leastKey? := congrArg ReadyQueue.leastKey? h.ready
    unfold Scheduler.decide
    simp only []
    rw [h.policy, hless, h.sliceLeft]
    cases s.policy with
    | highestPriorityFirst => exact ⟨rfl, h⟩
    | shortestRemainingTimeNext =>
      simp only []
      cases s.ready.leastKey? with
      | none => exact ⟨rfl, h⟩
      | some needed =>
        simp only []
        split
        · exact ⟨rfl, h.note (.preempting tick left needed)⟩
        · exact ⟨rfl, h⟩
    | roundRobin quantum => exact ⟨rfl, { h with policy := rfl, sliceLeft := rfl }⟩

theorem takeNext (h : s.Guised g s') :
    s.takeNext.Guised g.delay id (Guised g) s'.takeNext := by
  unfold Scheduler.takeNext
  rw [h.ready]
  cases s.ready.take? with
  | none => exact .refused h _
  | some out => exact .done { h with ready := rfl } _

theorem detach (h : s.Guised g s') :
    s.detach.Guised g.delay (occupantUnder g) (Guised g) s'.detach := by
  have hout : Guised g { s with running := none } { s' with running := none } :=
    { h with running := rfl }
  unfold Scheduler.detach
  rw [h.running]
  cases s.running with
  | none => exact .refused h _
  | some slot =>
    simp only [h.table.get?]
    cases s.table.get? slot with
    | none => exact .refused hout _
    | some b =>
      simp only [Option.map_some, ControlBlock.unit_under]
      cases b.unit with
      | none => exact .refused hout _
      | some unit => exact .done hout (slot, b, unit)

theorem requeue (h : s.Guised g s') (tick : Tick) (slot : Slot) (b : ControlBlock) (left : Nat) :
    (s.requeue tick slot b left).Guised g.delay id (Guised g)
      (s'.requeue (tick + g.delay) slot (b.under g) left) := by
  have hsame : { b.under g with remaining := left }.stopped (tick + g.delay) =
      ({ b with remaining := left }.stopped tick).under g :=
    ControlBlock.stopped_under { b with remaining := left } tick
  have hstopped : Guised g
      { s with table := s.table.set slot ({ b with remaining := left }.stopped tick) }
      { s' with table := s'.table.set slot (({ b with remaining := left }.stopped tick).under g) } :=
    { h with table := h.table.set slot ({ b with remaining := left }.stopped tick) }
  have hnoted := hstopped.note (.process (.ofBlock ({ b with remaining := left }.stopped tick) tick
    .stopped none))
  have hinserted : s'.ready.insert (readyKey s'.policy
        (({ b with remaining := left }.stopped tick).under g)) slot =
      s.ready.insert (readyKey s.policy ({ b with remaining := left }.stopped tick)) slot := by
    rw [readyKey_under, h.policy, h.ready]
  unfold Scheduler.requeue
  simp only [Scheduler.note]
  rw [hsame, hinserted]
  cases hin : s.ready.insert (readyKey s.policy ({ b with remaining := left }.stopped tick)) slot with
  | error e =>
    exact ⟨congrArg Except.error (ReadyQueue.later_of_insert hin g.delay).symm, hnoted⟩
  | ok ready => exact ⟨rfl, { hnoted with ready := rfl }⟩

theorem freshSlice (h : s.Guised g s') : s.freshSlice.Guised g s'.freshSlice := by
  unfold Scheduler.freshSlice
  rw [h.policy]
  cases s.policy with
  | highestPriorityFirst => exact h
  | shortestRemainingTimeNext => exact h
  | roundRobin quantum => exact { h with policy := rfl, sliceLeft := rfl }

theorem candidate (h : s.Guised g s') (slot : Slot) :
    s'.candidate slot = delayed g.delay (ControlBlock.under g) (s.candidate slot) := by
  unfold Scheduler.candidate
  rw [h.running, h.table.get?]
  cases s.running.isSome with
  | true => rfl
  | false =>
    cases s.table.get? slot <;> rfl

theorem occupy (h : s.Guised g s') (tick : Tick) (slot : Slot) (b : ControlBlock)
    (kind : ProcessEventKind) :
    (s.occupy tick slot b kind).Guised g (s'.occupy (tick + g.delay) slot (b.under g) kind) := by
  have htaken : Guised g { s with table := s.table.set slot b, running := some slot }
      { s' with table := s'.table.set slot (b.under g), running := some slot } :=
    { h with table := h.table.set slot b, running := rfl }
  exact htaken.note (.process (.ofBlock b tick kind none))

theorem countTick (h : s.Guised g s') : s.countTick.Guised g s'.countTick := by
  have hmetrics : s'.metrics.countTick s'.running.isSome =
      (s.metrics.countTick s.running.isSome).later g.delay := by
    rw [h.metrics, h.running, Metrics.later_countTick]
  exact { h with metrics := hmetrics }

end Guised

end Scheduler

end Uniprocessor
