import Mathlib.Data.List.Chain
import Uniprocessor.Journal.Event

/-!
# The course of a process

The events of one process tell its life: it is started, stopped and resumed any number of times, and
finished.  Each event follows from the one before it, and carries the figures that the time between
them makes of the earlier ones: while the process has the processor its remaining time falls by one
a tick, and while it waits its waiting time grows by one a tick.

* `ProcessEvent.Follows`: which event may come after which;
* `Course`: the events of a process so far, and the last of them;
* `Course.balance`: the time since the arrival is the time waited and the time burnt;
* `Accounted`: the events of a process from its start to its finish;
* `Course.accounted`: **a course that has come to a finish is accounted for.**
-/

namespace Uniprocessor

/-- A chain goes on with what may come after its last member. -/
theorem isChain_concat {α : Type} {R : α → α → Prop} {l : List α} {a : α} :
    (l ++ [a]).IsChain R ↔ l.IsChain R ∧ ∀ x ∈ l.getLast?, R x a := by
  simp [List.isChain_append]

/-- Whether an event gives its process the processor. -/
def ProcessEventKind.dispatches : ProcessEventKind → Bool
  | started | resumed => true
  | stopped | finished => false

namespace ProcessEvent

/-- An event is about a process. -/
structure About (e : ProcessEvent) (p : Process) : Prop where
  process : e.process = p.id
  arrival : e.arrival = p.arrival
  total : e.total = p.runTime

/-- A process has had the processor from `d` to `e`, for one tick at least. -/
structure Ran (d e : ProcessEvent) : Prop where
  time : d.tick < e.tick
  remaining : e.remaining + (e.tick - d.tick) = d.remaining
  waiting : e.waiting = d.waiting

/-- A process has waited from `d` to `e`, for one tick at least. -/
structure Waited (d e : ProcessEvent) : Prop where
  time : d.tick < e.tick
  remaining : e.remaining = d.remaining
  waiting : e.waiting = d.waiting + (e.tick - d.tick)

/-- `e` comes next after `d` in the life of a process. -/
inductive Follows (d e : ProcessEvent) : Prop
  | stopped (hd : d.kind.dispatches = true) (he : e.kind = .stopped) (hran : Ran d e)
      (hleft : 0 < e.remaining)
  | finished (hd : d.kind.dispatches = true) (he : e.kind = .finished) (hran : Ran d e)
      (hleft : e.remaining = 0)
  | resumed (hd : d.kind = .stopped) (he : e.kind = .resumed) (hwaited : Waited d e)

/-- The time between two events is made up of what the process waits and what it burns. -/
theorem Follows.balance {d e : ProcessEvent} (h : d.Follows e) :
    e.tick + e.remaining + d.waiting = d.tick + d.remaining + e.waiting ∧
      e.remaining ≤ d.remaining := by
  cases h with
  | stopped hd he hran hleft =>
    obtain ⟨htime, hremaining, hwaiting⟩ := hran
    dsimp only [Tick] at *
    omega
  | finished hd he hran hleft =>
    obtain ⟨htime, hremaining, hwaiting⟩ := hran
    dsimp only [Tick] at *
    omega
  | resumed hd he hwaited =>
    obtain ⟨htime, hremaining, hwaiting⟩ := hwaited
    dsimp only [Tick] at *
    omega

end ProcessEvent

/-- The events of a process so far, the last of which is given once more. -/
inductive Course (p : Process) : List ProcessEvent → ProcessEvent → Prop
  | start (e : ProcessEvent) (habout : e.About p) (hkind : e.kind = .started)
      (harrival : p.arrival ≤ e.tick) (hleft : e.remaining = p.runTime)
      (hwaiting : e.waiting = e.tick - p.arrival) : Course p [e] e
  | next {es : List ProcessEvent} {d : ProcessEvent} (h : Course p es d) (e : ProcessEvent)
      (habout : e.About p) (hfollows : d.Follows e) : Course p (es ++ [e]) e

/-- The events of a process from its start to its finish. -/
structure Accounted (p : Process) (es : List ProcessEvent) : Prop where
  /-- It is started, stopped and resumed any number of times, and finished. -/
  kinds : ∃ n, es.map ProcessEvent.kind =
    .started :: (List.replicate n [.stopped, .resumed]).flatten ++ [.finished]
  about : ∀ e ∈ es, e.About p
  starts : ∀ e ∈ es.head?, p.arrival ≤ e.tick ∧ e.remaining = p.runTime ∧
    e.waiting = e.tick - p.arrival
  follows : es.IsChain ProcessEvent.Follows
  /-- Its turnaround is the time since its arrival: what it waited and what it ran. -/
  ends : ∀ e ∈ es.getLast?, ∃ c, e.completion = some c ∧ c.turnaround = e.tick - p.arrival ∧
    c.turnaround = e.waiting + p.runTime

namespace Course

variable {p : Process} {es : List ProcessEvent} {d e : ProcessEvent}

theorem getLast?_eq (h : Course p es e) : es.getLast? = some e := by
  cases h with
  | start => rfl
  | next => exact List.getLast?_concat ..

theorem about (h : Course p es e) : ∀ x ∈ es, x.About p := by
  induction h with
  | start e habout => exact fun x hx => List.mem_singleton.mp hx ▸ habout
  | next h e habout hfollows ih =>
    intro x hx
    rcases List.mem_append.mp hx with hx | hx
    · exact ih x hx
    · exact List.mem_singleton.mp hx ▸ habout

theorem isChain (h : Course p es e) : es.IsChain ProcessEvent.Follows := by
  induction h with
  | start e => exact List.isChain_singleton e
  | next h e habout hfollows ih =>
    refine isChain_concat.mpr ⟨ih, fun x hx => ?_⟩
    obtain rfl := Option.some.inj (h.getLast?_eq.symm.trans hx)
    exact hfollows

theorem head (h : Course p es e) : ∀ x ∈ es.head?, p.arrival ≤ x.tick ∧
    x.remaining = p.runTime ∧ x.waiting = x.tick - p.arrival := by
  induction h with
  | start e habout hkind harrival hleft hwaiting =>
    intro x hx
    obtain rfl := Option.some.inj hx
    exact ⟨harrival, hleft, hwaiting⟩
  | @next es d h e habout hfollows ih =>
    have hne : es ≠ [] := by
      rintro rfl
      exact absurd h.getLast?_eq (by simp)
    rw [List.head?_append_of_ne_nil _ hne]
    exact ih

/-- **The time since the arrival is what the process has waited and what it has run.** -/
theorem balance (h : Course p es e) :
    e.tick + e.remaining = p.arrival + e.waiting + p.runTime := by
  induction h with
  | start e habout hkind harrival hleft hwaiting =>
    rw [hleft, hwaiting, Nat.add_sub_cancel' harrival]
  | next h e habout hfollows ih =>
    obtain ⟨hbalance, -⟩ := hfollows.balance
    dsimp only [Tick] at *
    omega

/-- The kinds of the events of a process that has been stopped and resumed `n` times, up to an event
of the given kind. -/
def kindsUpTo (n : Nat) : ProcessEventKind → List ProcessEventKind
  | .started | .resumed => .started :: (List.replicate n [.stopped, .resumed]).flatten
  | kind => .started :: (List.replicate n [.stopped, .resumed]).flatten ++ [kind]

theorem kindsUpTo_dispatch (n : Nat) {kind : ProcessEventKind} (h : kind.dispatches = true) :
    kindsUpTo n kind = .started :: (List.replicate n [.stopped, .resumed]).flatten := by
  cases kind with
  | started | resumed => rfl
  | stopped | finished => exact absurd h (by simp [ProcessEventKind.dispatches])

theorem kindsUpTo_resumed (n : Nat) :
    kindsUpTo (n + 1) .resumed = kindsUpTo n .stopped ++ [.resumed] := by
  simp [kindsUpTo, List.replicate_succ', List.flatten_append]

theorem kinds (h : Course p es e) : ∃ n, es.map ProcessEvent.kind = kindsUpTo n e.kind := by
  induction h with
  | start e habout hkind => exact ⟨0, by rw [hkind, List.map_singleton, hkind]; rfl⟩
  | next h e habout hfollows ih =>
    obtain ⟨n, hn⟩ := ih
    rw [List.map_append, List.map_singleton, hn]
    cases hfollows with
    | stopped hd he => exact ⟨n, by rw [kindsUpTo_dispatch n hd, he]; rfl⟩
    | finished hd he => exact ⟨n, by rw [kindsUpTo_dispatch n hd, he]; rfl⟩
    | resumed hd he => exact ⟨n + 1, by rw [he, hd, kindsUpTo_resumed]⟩

/-- **A course that has come to a finish is accounted for.** -/
theorem accounted (h : Course p es e) (hkind : e.kind = .finished) (hleft : e.remaining = 0)
    {c : Completion} (hc : e.completion = some c) (hturnaround : c.turnaround = e.tick - p.arrival) :
    Accounted p es := by
  refine ⟨?_, h.about, h.head, h.isChain, ?_⟩
  · obtain ⟨n, hn⟩ := h.kinds
    exact ⟨n, by rw [hn, hkind]; rfl⟩
  · intro x hx
    obtain rfl := Option.some.inj (h.getLast?_eq.symm.trans hx)
    refine ⟨c, hc, hturnaround, ?_⟩
    have hbalance := h.balance
    rw [hturnaround]
    dsimp only [Tick] at *
    omega

end Course

/-- At every event, what the process has to go is no more than its run time, and the time since its
arrival is what it has waited and what it has run. -/
theorem Accounted.balance {p : Process} {es : List ProcessEvent} (h : Accounted p es) :
    ∀ e ∈ es, e.remaining ≤ p.runTime ∧ e.tick + e.remaining = p.arrival + e.waiting + p.runTime := by
  refine h.follows.induction _ es (fun d e hfollows hd => ?_) fun hne => ?_
  · obtain ⟨hle, hsum⟩ := hd
    obtain ⟨hbalance, hfewer⟩ := hfollows.balance
    dsimp only [Tick] at *
    omega
  · obtain ⟨harrival, hleft, hwaiting⟩ := h.starts _ (List.head?_eq_some_head hne)
    dsimp only [Tick] at *
    omega

end Uniprocessor
