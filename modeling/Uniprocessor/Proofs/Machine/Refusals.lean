import Uniprocessor.Proofs.Machine.Histories

/-!
# What a refused report leaves behind

A report, or an attempt to retire the running process, can be refused for three reasons only: no
process has the processor, the report is from another unit, or the process that is said to be finished
has ticks left.  The first two are noticed before anything is changed.  The third is noticed late:
`Machine.retire` takes the process off the processor and out of the table before it asks the unit what
is left, and does not put it back.  So a refusal of that kind loses the process, while its block stays
in use and its unit goes on counting, and nobody owns either of them.

* `Machine.Ending`: what can come of an attempt to retire, `Machine.Hearing`: of a report;
* `Machine.Loses`: what is lost by a refusal;
* `Tally.run_refusals`: **after every history, a refusal changes nothing, or loses the running
  process.**
-/

namespace Uniprocessor
namespace Machine

variable {m : Machine} {slot : Slot} {b : ControlBlock} {u : UnitId} {c : Countdown} {tick : Tick}

/-- The machine once a process has left the processor and the table, and kept its block and unit. -/
def forsake (m : Machine) (slot : Slot) : Machine :=
  m.withScheduler { m.toScheduler with running := none, table := m.table.vacate slot }

/-- What can come of an attempt to retire the running process: there is none, it has ticks left, or it
is retired. -/
inductive Ending (m : Machine) (tick : Tick) : Attempt Machine Unit → Prop
  | idle (hidle : m.running = none) : Ending m tick (.refused (.protocol .finishWhileIdle) m)
  | unfinished (slot : Slot) (b : ControlBlock) (u : UnitId) (c : Countdown)
      (hrun : m.running = some slot) (hslot : m.table.get? slot = some b) (hunit : b.unit = some u)
      (hc : m.units.find? u = some c) (hleft : c.remaining ≠ 0) :
      Ending m tick (.refused (.protocol (.unfinished b.id c.remaining)) (m.forsake slot))
  | finished (slot : Slot) (b : ControlBlock) (u : UnitId) (c : Countdown) (memory : Buddy)
      (hrun : m.running = some slot) (hslot : m.table.get? slot = some b) (hunit : b.unit = some u)
      (hc : m.units.find? u = some c) (hleft : c.remaining = 0)
      (hfree : m.memory.free b.memory = .ok memory) :
      Ending m tick (.done () (m.retired tick slot b u memory))

/-- What can come of a report: nobody runs, another process does, the running process has made
progress, or it is said to be finished. -/
inductive Hearing (m : Machine) : UnitReport → Attempt Machine Unit → Prop
  | idle (report : UnitReport) (hidle : m.running = none) :
      Hearing m report (.refused (.protocol (.reportWhileIdle report)) m)
  | foreign (report : UnitReport) (slot : Slot) (b : ControlBlock) (hrun : m.running = some slot)
      (hslot : m.table.get? slot = some b) (hunit : b.unit ≠ some report.unit) :
      Hearing m report (.refused (.protocol (.foreignReport report.unit b.id b.unit)) m)
  | progress (u : UnitId) (tick : Tick) (left : Nat) (slot : Slot) (b : ControlBlock)
      (hrun : m.running = some slot) (hslot : m.table.get? slot = some b)
      (hunit : b.unit = some u) :
      Hearing m (.progress u tick left) (.done () (m.hear slot b left))
  | finished (u : UnitId) (tick : Tick) (slot : Slot) (b : ControlBlock)
      (outcome : Attempt Machine Unit) (hrun : m.running = some slot)
      (hslot : m.table.get? slot = some b) (hunit : b.unit = some u)
      (hending : Ending m tick outcome) : Hearing m (.finished u tick) outcome

/-- A process with ticks left is not retired, but lost. -/
theorem retire_unfinished (hrun : m.running = some slot) (hslot : m.table.get? slot = some b)
    (hunit : b.unit = some u) (hc : m.units.find? u = some c) (hleft : c.remaining ≠ 0)
    (tick : Tick) :
    m.retire tick = .refused (.protocol (.unfinished b.id c.remaining)) (m.forsake slot) := by
  rw [Machine.retire, schedule, Scheduler.evict_eq hrun hslot hunit]
  simp only [Attempt.within_done, Attempt.andThen_done]
  change (Attempt.andThen (Machine.ask _ (m.units.remaining u)) _) = _
  rw [UnitPool.remaining_eq hc, ask_ok, Attempt.andThen_done, checkFinished, if_neg hleft]
  rfl

/-- **Nothing else can come of an attempt to retire.** -/
theorem Sound.ending (h : m.Sound []) (tick : Tick) : Ending m tick (m.retire tick) := by
  cases hrun : m.running with
  | none =>
    have hevict : m.evict = .refused (.protocol .finishWhileIdle) m.toScheduler := by
      rw [Scheduler.evict, hrun]
    have hretire : m.retire tick = .refused (.protocol .finishWhileIdle) m := by
      rw [Machine.retire, schedule, hevict]
      rfl
    rw [hretire]
    exact .idle hrun
  | some slot =>
    obtain ⟨b, hslot⟩ := h.scheduler.running_live hrun
    obtain ⟨-, u, c, hunit, hc, -⟩ := h.running slot b hrun hslot
    by_cases hleft : c.remaining = 0
    · obtain ⟨memory, hretire, -, hfree⟩ := h.retire hrun hslot hunit hc hleft tick
      rw [hretire]
      exact .finished slot b u c memory hrun hslot hunit hc hleft hfree
    · rw [retire_unfinished hrun hslot hunit hc hleft]
      exact .unfinished slot b u c hrun hslot hunit hc hleft

/-- **Nothing else can come of a report.** -/
theorem Sound.hearing (h : m.Sound []) (report : UnitReport) :
    Hearing m report (m.onReport report) := by
  cases hrun : m.running with
  | none =>
    have haddressee : m.addressee report = .error (.protocol (.reportWhileIdle report)) := by
      rw [Scheduler.addressee, hrun]
    rw [onReport, haddressee]
    exact .idle report hrun
  | some slot =>
    obtain ⟨b, hslot⟩ := h.scheduler.running_live hrun
    by_cases hunit : b.unit = some report.unit
    · rw [onReport, addressee_eq hrun hslot hunit rfl]
      cases report with
      | progress u tick left => exact .progress u tick left slot b hrun hslot hunit
      | finished u tick => exact .finished u tick slot b _ hrun hslot hunit (h.ending tick)
    · have haddressee : m.addressee report =
          .error (.protocol (.foreignReport report.unit b.id b.unit)) := by
        unfold Scheduler.addressee
        rw [hrun]
        simp only [hslot]
        rw [if_neg hunit]
      rw [onReport, haddressee]
      exact .foreign report slot b hrun hslot hunit

/-! ## What is lost -/

/-- A refusal `e` leaves `m'` behind, which has lost the running process: it is off the processor and
out of the table, all else is as it was, and nobody owns its block and its unit any more. -/
structure Loses (m : Machine) (slot : Slot) (b : ControlBlock) (c : Countdown) (e : Failure)
    (m' : Machine) : Prop where
  running : m.running = some slot
  live : m.table.get? slot = some b
  unit : b.unit = some c.unit
  left : 0 < c.remaining
  cause : e = .protocol (.unfinished b.id c.remaining)
  state : m' = m.forsake slot
  block : b.memory ∈ m'.memory.blocks
  counting : c ∈ m'.units.units
  unowned : ∀ b' ∈ m'.table.toList, b'.memory ≠ b.memory ∧ b'.unit ≠ some c.unit

/-- Processes other than a given one have other blocks and other units. -/
theorem Sound.unowned (h : m.Sound []) (hslot : m.table.get? slot = some b)
    (hunit : b.unit = some u) {b' : ControlBlock} (hb' : b' ∈ (m.table.vacate slot).toList) :
    b'.memory ≠ b.memory ∧ b'.unit ≠ some u := by
  obtain ⟨rest, hlist, -, hrest⟩ := ProcessTable.exists_rest hslot
  constructor
  · have hnodup := (h.scheduler.blocks.trans (hlist.map _)).nodup_iff.mp
      h.scheduler.memory.nodup_blocks
    rw [List.map_cons, List.nodup_cons] at hnodup
    exact fun hsame => hnodup.1 (hsame ▸ List.mem_map_of_mem (hrest.subset hb'))
  · intro hsame
    obtain ⟨slot', hslot'⟩ := ProcessTable.mem_toList.mp hb'
    rw [ProcessTable.get?_vacate hslot] at hslot'
    split at hslot'
    · exact absurd hslot' (by simp)
    · rename_i hne
      exact hne (h.slot_eq hslot hslot' hunit hsame)

/-- An attempt to retire that is refused changes nothing, or loses the running process. -/
theorem Ending.loses {outcome : Attempt Machine Unit} (hending : Ending m tick outcome)
    (h : m.Sound []) {e : Failure} (he : outcome.result = .error e) :
    outcome.state = m ∨ ∃ slot b c, m.Loses slot b c e outcome.state := by
  cases hending with
  | idle hidle => exact Or.inl rfl
  | unfinished slot b u c hrun hslot hunit hc hleft =>
    obtain ⟨hmem, rfl⟩ := UnitPool.mem_of_find? hc
    refine Or.inr ⟨slot, b, c, hrun, hslot, hunit, Nat.pos_of_ne_zero hleft,
      (Except.error.inj he).symm, rfl, ?_, hmem, fun b' hb' => h.unowned hslot hunit hb'⟩
    exact h.scheduler.blocks.symm.subset
      (List.mem_map_of_mem (ProcessTable.mem_toList.mpr ⟨slot, hslot⟩))
  | finished slot b u c memory hrun hslot hunit hc hleft hfree =>
    exact absurd he (by simp [Attempt.done])

/-- A report that is refused changes nothing, or says that the running process is finished and loses
it. -/
theorem Hearing.loses {report : UnitReport} {outcome : Attempt Machine Unit}
    (hhearing : Hearing m report outcome) (h : m.Sound []) {e : Failure}
    (he : outcome.result = .error e) :
    outcome.state = m ∨ ∃ tick slot b c, report = .finished c.unit tick ∧
      m.Loses slot b c e outcome.state := by
  cases hhearing with
  | idle hidle => exact Or.inl rfl
  | foreign slot b hrun hslot hunit => exact Or.inl rfl
  | progress u tick left slot b hrun hslot hunit => exact absurd he (by simp [Attempt.done])
  | finished u tick slot b outcome hrun hslot hunit hending =>
    rcases hending.loses h he with hsame | ⟨slot', b', c, hloses⟩
    · exact Or.inl hsame
    · obtain rfl : slot = slot' := Option.some.inj (hrun.symm.trans hloses.running)
      obtain rfl : b = b' := Option.some.inj (hslot.symm.trans hloses.live)
      obtain rfl : u = c.unit := Option.some.inj (hunit.symm.trans hloses.unit)
      exact Or.inr ⟨tick, slot, b, c, rfl, hloses⟩

end Machine

namespace Tally

/-- **A refusal changes nothing, or loses the running process.**  After every history of operations, a
report and an attempt to retire that are refused leave the machine as it was, but for one case: the
running process is said to be finished and its unit has ticks left.  Then the process is off the
processor and out of the table, while its block is still in use and its unit still counts. -/
theorem run_refusals (c : Config) (hc : c.Valid) (expected : Nat) (history : List Operation) :
    ∃ start, Machine.ofConfig c expected = .ok start ∧
      let m := (run start history).machine
      (∀ report e, (m.onReport report).result = .error e →
        (m.onReport report).state = m ∨ ∃ tick slot b d, report = .finished d.unit tick ∧
          m.Loses slot b d e (m.onReport report).state) ∧
      ∀ tick e, (m.retire tick).result = .error e →
        (m.retire tick).state = m ∨ ∃ slot b d, m.Loses slot b d e (m.retire tick).state := by
  obtain ⟨start, hstart, hsound⟩ := exists_sound hc expected
  have hafter := (hsound.foldl history).machine
  refine ⟨start, hstart, ?_, ?_⟩
  · intro report e he
    exact (hafter.hearing report).loses hafter he
  · intro tick e he
    exact (hafter.ending tick).loses hafter he

/-- A process that has run for none of its five ticks, and is said to be finished. -/
theorem run_refusals_unfinished :
    ({ policy := .highestPriorityFirst } : Config).Valid ∧
      ∃ start, Machine.ofConfig { policy := .highestPriorityFirst } 1 = .ok start ∧
        let m := (run start [.arrive 0 ⟨1, 0, 5, 1, 64⟩, .runTick 0]).machine
        ∃ slot b d,
          m.Loses slot b d (.protocol (.unfinished 1 5)) (m.onReport (.finished 0 1)).state := by
  have hc : ({ policy := .highestPriorityFirst } : Config).Valid := by decide
  obtain ⟨start, hstart, hreports, -⟩ := run_refusals { policy := .highestPriorityFirst } hc 1
    [.arrive 0 ⟨1, 0, 5, 1, 64⟩, .runTick 0]
  obtain rfl := Except.ok.inj ((Machine.ofConfig_eq hc 1).symm.trans hstart)
  refine ⟨hc, _, hstart, ?_⟩
  rcases hreports (.finished 0 1) (.protocol (.unfinished 1 5)) (by decide +kernel) with
    hsame | ⟨tick, slot, b, d, -, hloses⟩
  · exact absurd (congrArg (fun m : Machine => m.running) hsame) (by decide +kernel)
  · exact ⟨slot, b, d, hloses⟩

/-- Not every refusal leaves a machine as it was: a process that is said to be finished ahead of time
is gone, and its block belongs to nobody. -/
theorem run_refusal_loses :
    ¬ ∀ (c : Config) (expected : Nat) (history : List Operation) (start : Machine), c.Valid →
      Machine.ofConfig c expected = .ok start →
      let m := (run start history).machine
      ∀ report e, (m.onReport report).result = .error e →
        (m.onReport report).state.running = m.running ∧
        (m.onReport report).state.table.toList = m.table.toList ∧
        ∀ block ∈ (m.onReport report).state.memory.blocks,
          ∃ b ∈ (m.onReport report).state.table.toList, b.memory = block := by
  intro hall
  have hc : ({ policy := .highestPriorityFirst } : Config).Valid := by decide
  obtain ⟨hrunning, -⟩ := hall { policy := .highestPriorityFirst } 1
    [.arrive 0 ⟨1, 0, 5, 1, 64⟩, .runTick 0] _ hc (Machine.ofConfig_eq hc 1) (.finished 0 1)
    (.protocol (.unfinished 1 5)) (by decide +kernel)
  exact absurd hrunning (by decide +kernel)

end Tally
end Uniprocessor
