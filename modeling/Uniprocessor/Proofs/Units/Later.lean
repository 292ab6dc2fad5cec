import Uniprocessor.Failure
import Uniprocessor.Units.Pool
import Uniprocessor.Workload.Basic

/-!
# Units that are started later

A unit compares ticks with its floor, and takes its floor from ticks.  So if every tick is higher by
the same delay, its floor is too, and it counts as before.  Here this is said of whatever carries a
tick: `later d` is the same thing with each of its ticks higher by `d`.

* `UnitReport.later`, `UnitCommand.later`, `Countdown.later`, `UnitPool.later`: what is delayed;
* `UnitPool.start_later`, `command_later`, `advance_later`, …: **the operations of a pool of delayed
  units are the delayed operations**;
* `Failure.later`: of all reasons to refuse an operation only one quotes a tick.
-/

namespace Uniprocessor

/-- The report of a unit, for a tick that is higher by `d`. -/
def UnitReport.later (d : Nat) : UnitReport → UnitReport
  | progress unit tick remaining => progress unit (tick + d) remaining
  | finished unit tick => finished unit (tick + d)

@[simp] theorem UnitReport.unit_later (d : Nat) (r : UnitReport) : (r.later d).unit = r.unit := by
  cases r <;> rfl

@[simp] theorem UnitReport.later_zero (r : UnitReport) : r.later 0 = r := by
  cases r <;> rfl

/-- A process that arrives later. -/
def Process.later (d : Nat) (p : Process) : Process :=
  { p with arrival := p.arrival + d }

/-- A command that comes later. -/
def UnitCommand.later (d : Nat) : UnitCommand → UnitCommand
  | resume after => resume (after + d)
  | c => c

/-- The reason to refuse an operation, when everything happens later. -/
def Failure.later (d : Nat) : Failure → Failure
  | protocol (.reportWhileIdle report) => protocol (.reportWhileIdle (report.later d))
  | e => e

@[simp] theorem Failure.later_zero (e : Failure) : e.later 0 = e := by
  unfold later
  split
  · rw [UnitReport.later_zero]
  · rfl

/-- The result of an operation, when everything happens later: `f` says what that makes of it. -/
def delayed {α β : Type} (d : Nat) (f : α → β) (x : Except Failure α) : Except Failure β :=
  (x.map f).mapError (Failure.later d)

@[simp] theorem delayed_ok {α β : Type} (d : Nat) (f : α → β) (a : α) :
    delayed d f (.ok a) = .ok (f a) := rfl

@[simp] theorem delayed_error {α β : Type} (d : Nat) (f : α → β) (e : Failure) :
    delayed d f (.error e) = .error (e.later d) := rfl

@[simp] theorem delayed_zero_id {α : Type} (x : Except Failure α) : delayed 0 id x = x := by
  cases x with
  | ok a => rfl
  | error e => rw [delayed_error, Failure.later_zero]

namespace Countdown

/-- A unit to which everything happens later. -/
def later (d : Nat) (c : Countdown) : Countdown :=
  { c with floor := c.floor + d }

variable (d : Nat) (c : Countdown) (tick : Tick)

@[simp] theorem unit_later : (c.later d).unit = c.unit := rfl

theorem start_later (unit : UnitId) (remaining : Nat) :
    start unit remaining (tick + d) = (start unit remaining tick).later d := rfl

/-- A delayed unit counts the delayed ticks. -/
theorem counts_later : (c.later d).counts (tick + d) = c.counts tick := by
  have hfloor : decide (c.floor + d < tick + d) = decide (c.floor < tick) :=
    decide_eq_decide.mpr Nat.add_lt_add_iff_right
  show (!c.paused && decide (c.floor + d < tick + d) && decide (0 < c.remaining)) = _
  rw [hfloor, counts]

theorem onTick_later : (c.later d).onTick (tick + d) =
    ((c.onTick tick).1.map (UnitReport.later d), (c.onTick tick).2.later d) := by
  rw [onTick, onTick, counts_later]
  cases c.counts tick with
  | false => rfl
  | true =>
    have hreport : reportOf c.unit (tick + d) (c.remaining - 1) =
        (reportOf c.unit tick (c.remaining - 1)).later d := by
      unfold reportOf
      split <;> rfl
    rw [if_pos rfl, if_pos rfl, Option.map_some, ← hreport]
    rfl

theorem onCommand_later (command : UnitCommand) : (c.later d).onCommand (command.later d) =
    ((c.onCommand command).1, (c.onCommand command).2.later d) := by
  cases command with
  | pause => rfl
  | stop => rfl
  | resume after =>
    have hfloor : max (c.floor + d) (after + d) = max c.floor after + d := Nat.add_max_add_right ..
    simp only [UnitCommand.later, onCommand, later, hfloor]

end Countdown

namespace UnitPool

/-- The pool with its units delayed. -/
def later (d : Nat) (p : UnitPool) : UnitPool :=
  { p with units := p.units.map (Countdown.later d) }

variable (d : Nat) (p : UnitPool) (unit : UnitId) (tick : Tick)

@[simp] theorem later_zero : p.later 0 = p :=
  congrArg (UnitPool.mk · p.next) (List.map_id _)

theorem find?_later : (p.later d).find? unit = (p.find? unit).map (Countdown.later d) := by
  show (p.units.map (Countdown.later d)).find? _ = (p.units.find? _).map _
  rw [List.find?_map]
  rfl

theorem start_later (remaining : Nat) : (p.later d).start remaining (tick + d) =
    ((p.start remaining tick).1, (p.start remaining tick).2.later d) := by
  simp only [start, later, List.map_append, List.map_cons, List.map_nil, Countdown.start_later]

theorem remaining_later : (p.later d).remaining unit = delayed d id (p.remaining unit) := by
  unfold remaining get
  rw [find?_later]
  cases p.find? unit <;> rfl

theorem command_later (command : UnitCommand) :
    (p.later d).command unit (command.later d) = delayed d (later d) (p.command unit command) := by
  unfold UnitPool.command
  rw [find?_later]
  cases p.find? unit with
  | none => rfl
  | some c =>
    simp only [Option.map_some, delayed_ok, later, List.map_map]
    congr 3
    funext c
    simp only [Function.comp_apply, Countdown.unit_later, Countdown.onCommand_later]
    split <;> rfl

theorem pause_later : (p.later d).pause unit = delayed d (later d) (p.pause unit) :=
  command_later d p unit .pause

theorem resume_later :
    (p.later d).resume unit (tick + d) = delayed d (later d) (p.resume unit tick) :=
  command_later d p unit (.resume tick)

theorem reap_later : (p.later d).reap unit = delayed d (later d) (p.reap unit) := by
  unfold reap
  rw [find?_later]
  cases p.find? unit with
  | none => rfl
  | some c =>
    simp only [Option.map_some, delayed_ok, later, List.filter_map]
    rfl

theorem advance_later : (p.later d).advance (tick + d) =
    ((p.advance tick).1.map (UnitReport.later d), (p.advance tick).2.later d) := by
  have hreports : (fun c => (c.onTick (tick + d)).1) ∘ Countdown.later d =
      fun c => (c.onTick tick).1.map (UnitReport.later d) := by
    funext c
    rw [Function.comp_apply, Countdown.onTick_later]
  have hunits : (fun c => (c.onTick (tick + d)).2) ∘ Countdown.later d =
      Countdown.later d ∘ fun c => (c.onTick tick).2 := by
    funext c
    rw [Function.comp_apply, Countdown.onTick_later]
    rfl
  simp only [advance, later, List.filterMap_map, List.map_filterMap, List.map_map, hreports, hunits]

end UnitPool

end Uniprocessor
