import Uniprocessor.Journal.Basic
import Uniprocessor.Metrics.Basic

/-!
# Journals of what happens later

What is written down of a process is made of ticks and of differences of ticks.  If everything happens
later by the same delay, the ticks of an event are higher by the delay, and the times in it --- how long
a process has waited, its turnaround --- are what they were.  The same goes for what is counted, except
that the processor has been idle for as many ticks as the delay lasts.

* `ProcessEvent.later`, `MemoryEvent.later`, `Journal.later`, `EventLog.later`: what is written down;
* `Metrics.later`: what is counted.
-/

namespace Uniprocessor

/-- An event that happens later, to a process that has arrived later. -/
def ProcessEvent.later (d : Nat) (e : ProcessEvent) : ProcessEvent :=
  { e with tick := e.tick + d, arrival := e.arrival + d }

/-- A memory event that happens later. -/
def MemoryEvent.later (d : Nat) (e : MemoryEvent) : MemoryEvent :=
  { e with tick := e.tick + d }

/-- A journal entry that is noted later. -/
def Entry.later (d : Nat) : Entry → Entry
  | process e => process (e.later d)
  | memory e => memory (e.later d)
  | preempting tick left needed => preempting (tick + d) left needed
  | reaped unit p => reaped unit p

@[simp] theorem Entry.later_zero (e : Entry) : e.later 0 = e := by
  cases e <;> rfl

theorem Entry.process?_later (d : Nat) (e : Entry) :
    (e.later d).process? = e.process?.map (ProcessEvent.later d) := by
  cases e <;> rfl

theorem Entry.memory?_later (d : Nat) (e : Entry) :
    (e.later d).memory? = e.memory?.map (MemoryEvent.later d) := by
  cases e <;> rfl

/-- A log whose events happen later. -/
def EventLog.later (d : Nat) (log : EventLog) : EventLog :=
  ⟨log.process.map (ProcessEvent.later d), log.memory.map (MemoryEvent.later d)⟩

namespace Journal

/-- A journal whose entries are noted later. -/
def later (d : Nat) (j : Journal) : Journal :=
  ⟨j.newest.map (Entry.later d)⟩

variable (d : Nat) (j : Journal)

@[simp] theorem later_zero : j.later 0 = j := by
  have hsame : Entry.later 0 = id := funext Entry.later_zero
  rw [later, hsame, List.map_id]

/-- The log of a delayed journal is the delayed log. -/
theorem log_later : (j.later d).log = j.log.later d := by
  have hprocess : Entry.process? ∘ Entry.later d =
      fun e => e.process?.map (ProcessEvent.later d) := funext (Entry.process?_later d)
  have hmemory : Entry.memory? ∘ Entry.later d =
      fun e => e.memory?.map (MemoryEvent.later d) := funext (Entry.memory?_later d)
  simp only [log, entries, later, EventLog.later, ← List.map_reverse, List.filterMap_map,
    List.map_filterMap, hprocess, hmemory]

end Journal

namespace Metrics

/-- What is counted when everything happens later: the processor has been idle all the time before. -/
def later (d : Nat) (m : Metrics) : Metrics :=
  { m with idleTicks := m.idleTicks + d }

variable (d : Nat) (m : Metrics)

@[simp] theorem later_zero : m.later 0 = m := rfl

theorem later_countTick (busy : Bool) : (m.countTick busy).later d = (m.later d).countTick busy := by
  cases busy with
  | true => rfl
  | false =>
    exact congrArg (Metrics.mk m.busyTicks · m.rejected m.finishes) (Nat.add_right_comm _ 1 d)

end Metrics

end Uniprocessor
