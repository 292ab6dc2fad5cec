import Uniprocessor.Proofs.Histories
import Uniprocessor.Proofs.Units.Countdown

/-!
# What a unit counts

The ticks and commands that come to a unit may come in any order: ticks are late, early or repeated, and
a unit may be paused while it is paused.  What it counts can be told from this history alone, without
its state.  It counts a tick if the last command has not paused it, the tick lies above the floor it was
started at, above the tick of every resume so far and above every tick it has counted, and it has not
counted as many as it was started with.  Every report is numbered by this: the report after `i` others
says that `i + 1` ticks are gone.

The invariant ties the three parts of the state to the history: the floor of the state lies below exactly
the ticks that lie above all those ticks, the unit is paused if the last command says so, and what
remains and what has been reported make up what it was started with.

* `Countdown.Signal`, `heed`, `heedAll`, `reported`: what comes to a unit, and what comes of it;
* `Countdown.Paused`: what the history says of a pause;
* `Countdown.Kept.heed`: **what one more signal does**;
* `Countdown.run_reckoned`: **what a unit has counted and will count, after any history.**
-/

namespace Uniprocessor
namespace Countdown

/-- What comes to a unit. -/
inductive Signal where
  | tick (tick : Tick)
  | command (x : UnitCommand)
  deriving Repr, DecidableEq

/-- What a unit makes of a signal: its report, if it counts a tick, and what becomes of it. -/
def heed (c : Countdown) : Signal → Option UnitReport × Countdown
  | .tick tick => c.onTick tick
  | .command x => (none, (c.onCommand x).2)

/-- A unit to which the signals of a list have come. -/
def heedAll (c : Countdown) (signals : List Signal) : Countdown :=
  signals.foldl (fun c signal => (c.heed signal).2) c

/-- What a unit reports of the signals of a list. -/
def reported (c : Countdown) : List Signal → List UnitReport
  | [] => []
  | signal :: signals => (c.heed signal).1.toList ++ (c.heed signal).2.reported signals

/-- The last command to pause or to resume was to pause. -/
def Paused (signals : List Signal) : Prop :=
  ∃ earlier later, signals = earlier ++ .command .pause :: later ∧
    ∀ after, .command (.resume after) ∉ later

/-- A tick lies above the floor of a history: above the tick at which the unit was started, those that
were named when it was resumed, and those that it has reported. -/
structure Above (floor : Tick) (signals : List Signal) (reports : List UnitReport) (tick : Tick) :
    Prop where
  start : floor < tick
  resumed : ∀ after, .command (.resume after) ∈ signals → after < tick
  reported : ∀ r ∈ reports, r.tick < tick

/-- What a unit that was started with `seed` ticks left has counted and will count. -/
structure Reckoned (unit : UnitId) (seed : Nat) (floor : Tick) (signals : List Signal)
    (reports : List UnitReport) (c : Countdown) : Prop where
  /-- No tick is counted twice, or after a later one. -/
  ascending : (reports.map UnitReport.tick).Pairwise (· < ·)
  /-- Every tick is either counted or left. -/
  total : reports.length + c.remaining = seed
  /-- Each report carries one less than the one before, and says that the unit has finished exactly if
  nothing is left. -/
  numbered : ∀ i r, reports[i]? = some r → r.unit = unit ∧ r.remaining + (i + 1) = seed ∧
    ((∃ tick, r = .finished unit tick) ↔ r.remaining = 0)
  /-- A unit that has nothing left has said so with its last report, and reports nothing more. -/
  finished : c.remaining = 0 → (0 < seed → ∃ tick, reports.getLast? = some (.finished unit tick)) ∧
    ∀ later, c.reported later = []
  /-- The ticks that it counts. -/
  counts : ∀ tick, (∃ r, (c.heed (.tick tick)).1 = some r) ↔
    ¬ Paused signals ∧ Above floor signals reports tick ∧ reports.length < seed
  /-- A report is of the tick that has come, takes one tick off, and says what is left then. -/
  lowers : ∀ signal r, (c.heed signal).1 = some r → signal = .tick r.tick ∧
    r.remaining + 1 = c.remaining ∧ (c.heed signal).2.remaining = r.remaining
  /-- What brings no report takes nothing off. -/
  others : ∀ signal, (c.heed signal).1 = none → (c.heed signal).2.remaining = c.remaining

variable {unit : UnitId} {seed : Nat} {floor tick : Tick} {signals : List Signal} {signal : Signal}
  {reports new : List UnitReport} {c : Countdown}

/-! ## Histories -/

theorem paused_concat : Paused (signals ++ [signal]) ↔
    signal = .command .pause ∨ Paused signals ∧ ∀ after, signal ≠ .command (.resume after) := by
  constructor
  · rintro ⟨earlier, later, heq, hlater⟩
    rcases concat_split heq with ⟨-, -, hsignal⟩ | ⟨later, rfl, hsignals⟩
    · exact .inl hsignal
    · refine .inr ⟨⟨earlier, later, hsignals, fun after hmem => ?_⟩, fun after hafter => ?_⟩
      · exact hlater after (List.mem_append_left _ hmem)
      · exact hlater after (hafter ▸ List.mem_concat_self)
  · rintro (rfl | ⟨⟨earlier, later, rfl, hlater⟩, hsignal⟩)
    · exact ⟨signals, [], rfl, fun _ => List.not_mem_nil⟩
    · refine ⟨earlier, later ++ [signal], by simp, fun after hmem => ?_⟩
      rcases List.mem_append.mp hmem with hmem | hmem
      · exact hlater after hmem
      · exact hsignal after (List.mem_singleton.mp hmem).symm

theorem above_concat : Above floor (signals ++ [signal]) (reports ++ new) tick ↔
    Above floor signals reports tick ∧
      (∀ after, signal = .command (.resume after) → after < tick) ∧ ∀ r ∈ new, r.tick < tick := by
  constructor
  · rintro ⟨hstart, hresumed, hreported⟩
    refine ⟨⟨hstart, fun after hmem => ?_, fun r hr => ?_⟩, fun after hafter => ?_, fun r hr => ?_⟩
    · exact hresumed after (List.mem_append_left _ hmem)
    · exact hreported r (List.mem_append_left _ hr)
    · exact hresumed after (hafter ▸ List.mem_concat_self)
    · exact hreported r (List.mem_append_right _ hr)
  · rintro ⟨⟨hstart, hresumed, hreported⟩, hafter, hnew⟩
    refine ⟨hstart, fun after hmem => ?_, fun r hr => ?_⟩
    · rcases List.mem_append.mp hmem with hmem | hmem
      · exact hresumed after hmem
      · exact hafter after (List.mem_singleton.mp hmem).symm
    · exact (List.mem_append.mp hr).elim (hreported r) (hnew r)

/-! ## One signal -/

@[simp] theorem reportOf_unit (unit : UnitId) (tick : Tick) (remaining : Nat) :
    (reportOf unit tick remaining).unit = unit := by
  unfold reportOf
  split <;> rfl

@[simp] theorem reportOf_tick (unit : UnitId) (tick : Tick) (remaining : Nat) :
    (reportOf unit tick remaining).tick = tick := by
  unfold reportOf
  split <;> rfl

@[simp] theorem reportOf_remaining (unit : UnitId) (tick : Tick) (remaining : Nat) :
    (reportOf unit tick remaining).remaining = remaining := by
  unfold reportOf
  split
  · rename_i hzero
    exact hzero.symm
  · rfl

theorem reportOf_eq_finished_iff {remaining : Nat} :
    (∃ t, reportOf unit tick remaining = .finished unit t) ↔ remaining = 0 := by
  unfold reportOf
  split <;> simp_all

theorem counts_iff : c.counts tick = true ↔ c.paused = false ∧ c.floor < tick ∧ 0 < c.remaining := by
  simp [counts, and_assoc]

/-- What brings a report, and what the report is. -/
theorem heed_eq_some_iff {r : UnitReport} : (c.heed signal).1 = some r ↔
    ∃ tick, signal = .tick tick ∧ c.counts tick = true ∧
      r = reportOf c.unit tick (c.remaining - 1) := by
  cases signal with
  | tick tick =>
    rw [heed, onTick]
    by_cases hcounts : c.counts tick = true
    · rw [if_pos hcounts, Option.some_inj]
      constructor
      · exact fun h => ⟨tick, rfl, hcounts, h.symm⟩
      · rintro ⟨_, ⟨⟩, -, h⟩
        exact h.symm
    · rw [if_neg hcounts]
      constructor
      · exact fun h => absurd h (by simp)
      · rintro ⟨_, ⟨⟩, h, -⟩
        exact absurd h hcounts
  | command x => simp [heed]

/-- What brings no report takes nothing off. -/
theorem heed_remaining_of_none (h : (c.heed signal).1 = none) :
    (c.heed signal).2.remaining = c.remaining := by
  cases signal with
  | tick tick => exact congrArg remaining (onTick_of_none h)
  | command x => exact onCommand_remaining c x

/-- A report takes one tick off, and says what is left then. -/
theorem heed_remaining_of_some {r : UnitReport} (h : (c.heed signal).1 = some r) :
    signal = .tick r.tick ∧ r.remaining + 1 = c.remaining ∧
      (c.heed signal).2.remaining = r.remaining := by
  obtain ⟨tick, rfl, hcounts, rfl⟩ := heed_eq_some_iff.mp h
  have hpos := (counts_iff.mp hcounts).2.2
  rw [heed, onTick, if_pos hcounts, reportOf_tick, reportOf_remaining]
  exact ⟨rfl, Nat.sub_add_cancel hpos, rfl⟩

/-! ## What is kept -/

/-- What is known of a unit from what has come to it and what it has reported. -/
structure Kept (unit : UnitId) (seed : Nat) (floor : Tick) (signals : List Signal)
    (reports : List UnitReport) (c : Countdown) : Prop where
  name : c.unit = unit
  paused : c.paused = true ↔ Paused signals
  above : ∀ tick, c.floor < tick ↔ Above floor signals reports tick
  total : reports.length + c.remaining = seed
  ascending : (reports.map UnitReport.tick).Pairwise (· < ·)
  numbered : ∀ i r, reports[i]? = some r → r.unit = unit ∧ r.remaining + (i + 1) = seed ∧
    ((∃ tick, r = .finished unit tick) ↔ r.remaining = 0)

theorem kept_start (unit : UnitId) (seed : Nat) (floor : Tick) :
    Kept unit seed floor [] [] (start unit seed floor) where
  name := rfl
  paused := by
    constructor
    · exact fun h => absurd h (by simp [start])
    · rintro ⟨earlier, later, h, -⟩
      exact absurd h (by simp)
  above tick := by
    constructor
    · exact fun h => ⟨h, fun _ h => absurd h List.not_mem_nil, fun _ h => absurd h List.not_mem_nil⟩
    · exact fun h => h.start
  total := Nat.zero_add seed
  ascending := .nil
  numbered i r h := absurd h (by simp)

/-- **A tick that counts.** -/
theorem Kept.count (h : Kept unit seed floor signals reports c) (hcounts : c.counts tick = true) :
    Kept unit seed floor (signals ++ [.tick tick])
      (reports ++ [reportOf c.unit tick (c.remaining - 1)])
      { c with remaining := c.remaining - 1, floor := tick } := by
  obtain ⟨hpaused, hfloor, hpos⟩ := counts_iff.mp hcounts
  have habove := (h.above tick).mp hfloor
  have htotal := h.total
  exact {
    name := h.name
    paused := by
      rw [paused_concat]
      simp [h.paused]
    above := fun later => by
      rw [above_concat]
      constructor
      · intro hlater
        -- the tick lies above all that the history names, so what lies above it does too
        refine ⟨(h.above later).mp (Nat.lt_trans hfloor hlater), fun after h => absurd h (by simp), ?_⟩
        simpa using hlater
      · rintro ⟨-, -, hnew⟩
        simpa using hnew
    total := by
      rw [List.length_append, List.length_singleton]
      dsimp only
      omega
    ascending := by
      rw [List.map_append, List.pairwise_append]
      refine ⟨h.ascending, List.pairwise_singleton _ _, fun t ht later hlater => ?_⟩
      obtain ⟨r, hr, rfl⟩ := List.mem_map.mp ht
      simp only [List.map_cons, List.map_nil, List.mem_singleton, reportOf_tick] at hlater
      exact hlater ▸ habove.reported r hr
    numbered := fun i r hr => by
      rw [List.getElem?_append] at hr
      split at hr
      · exact h.numbered i r hr
      · rename_i hi
        obtain ⟨hindex, rfl⟩ := List.getElem?_eq_some_iff.mp hr
        simp only [List.length_singleton, Nat.lt_one_iff] at hindex
        simp only [hindex, List.getElem_cons_zero, reportOf_unit, reportOf_remaining, h.name]
        exact ⟨trivial, by omega, reportOf_eq_finished_iff⟩ }

/-- A signal that brings no report and leaves what remains as it is. -/
theorem Kept.pass {c' : Countdown} (h : Kept unit seed floor signals reports c)
    (hunit : c'.unit = c.unit) (hremaining : c'.remaining = c.remaining)
    (hpaused : c'.paused = true ↔ Paused (signals ++ [signal]))
    (hfloor : ∀ tick, c'.floor < tick ↔
      c.floor < tick ∧ ∀ after, signal = .command (.resume after) → after < tick) :
    Kept unit seed floor (signals ++ [signal]) reports c' where
  name := hunit.trans h.name
  paused := hpaused
  above tick := by
    have hconcat : Above floor (signals ++ [signal]) (reports ++ []) tick ↔ _ := above_concat
    rw [List.append_nil] at hconcat
    rw [hconcat, hfloor, h.above]
    simp
  total := hremaining ▸ h.total
  ascending := h.ascending
  numbered := h.numbered

/-- **What one more signal does.** -/
theorem Kept.heed (h : Kept unit seed floor signals reports c) (signal : Signal) :
    Kept unit seed floor (signals ++ [signal]) (reports ++ (c.heed signal).1.toList)
      (c.heed signal).2 := by
  cases signal with
  | tick tick =>
    by_cases hcounts : c.counts tick = true
    · rw [Countdown.heed, onTick, if_pos hcounts]
      exact h.count hcounts
    · rw [Countdown.heed, onTick_of_not_counts (Bool.eq_false_iff.mpr hcounts)]
      rw [Option.toList_none, List.append_nil]
      exact h.pass rfl rfl (by rw [paused_concat]; simp [h.paused]) (by simp)
  | command x =>
    rw [Countdown.heed, Option.toList_none, List.append_nil]
    cases x with
    | pause => exact h.pass rfl rfl (by rw [paused_concat]; simp [onCommand]) (by simp [onCommand])
    | resume after =>
      exact h.pass rfl rfl (by rw [paused_concat]; simp [onCommand])
        (fun later => by simp only [onCommand, Nat.max_lt]; simp)
    | stop =>
      exact h.pass rfl rfl (by rw [paused_concat]; simp [onCommand, h.paused]) (by simp [onCommand])

/-! ## Runs -/

/-- What is known of a unit stays known. -/
theorem Kept.heedAll (h : Kept unit seed floor signals reports c) (later : List Signal) :
    Kept unit seed floor (signals ++ later) (reports ++ c.reported later) (c.heedAll later) := by
  induction later generalizing signals reports c with
  | nil => rwa [List.append_nil, reported, List.append_nil]
  | cons signal later ih =>
    have hrest := ih (h.heed signal)
    rwa [List.append_assoc, List.append_assoc, List.singleton_append] at hrest

/-- A unit that has nothing left reports nothing. -/
theorem reported_of_finished (h : c.remaining = 0) (later : List Signal) : c.reported later = [] := by
  induction later generalizing c with
  | nil => rfl
  | cons signal later ih =>
    cases signal with
    | tick tick =>
      have hstill : c.counts tick = false := by simp [counts, h]
      rw [reported, heed, onTick_of_not_counts hstill]
      exact ih h
    | command x =>
      rw [reported, heed]
      exact ih (by rw [onCommand_remaining, h])

/-- **What a unit has counted and will count, after any history.** -/
theorem run_reckoned (unit : UnitId) (seed : Nat) (floor : Tick) (signals : List Signal) :
    Reckoned unit seed floor signals ((start unit seed floor).reported signals)
      ((start unit seed floor).heedAll signals) := by
  have hkept : Kept unit seed floor signals ((start unit seed floor).reported signals)
      ((start unit seed floor).heedAll signals) := (kept_start unit seed floor).heedAll signals
  generalize (start unit seed floor).reported signals = reports at hkept ⊢
  generalize (start unit seed floor).heedAll signals = c at hkept ⊢
  have htotal := hkept.total
  refine ⟨hkept.ascending, htotal, hkept.numbered, fun hzero => ⟨fun hseed => ?_, ?_⟩, fun tick => ?_,
    fun _ _ => heed_remaining_of_some, fun _ => heed_remaining_of_none⟩
  · -- the last report has the number `seed`, so it carries zero
    have hlast : reports[reports.length - 1]? = some reports[reports.length - 1] :=
      List.getElem?_eq_getElem _
    obtain ⟨-, hremaining, hfinished⟩ := hkept.numbered _ _ hlast
    obtain ⟨tick, htick⟩ := hfinished.mpr (by omega)
    rw [List.getLast?_eq_getElem?, hlast]
    exact ⟨tick, congrArg some htick⟩
  · exact reported_of_finished hzero
  · have hrunning : c.paused = false ↔ ¬ Paused signals := by
      rw [← hkept.paused, Bool.not_eq_true]
    have hleft : 0 < c.remaining ↔ reports.length < seed := by omega
    rw [← hrunning, ← hkept.above, ← hleft, ← counts_iff]
    constructor
    · rintro ⟨r, hr⟩
      obtain ⟨_, ⟨⟩, hcounts, -⟩ := heed_eq_some_iff.mp hr
      exact hcounts
    · exact fun hcounts => ⟨_, heed_eq_some_iff.mpr ⟨tick, rfl, hcounts, rfl⟩⟩

end Countdown
end Uniprocessor
