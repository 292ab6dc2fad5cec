import Uniprocessor.Proofs.Journal.Course
import Uniprocessor.Proofs.Journal.Timetable

/-!
# Displacements in a log

A process is displaced if it is stopped and another one gets the processor at the same tick, which
is what the next event tells of.  Under shortest remaining time next the other one has just come: it
has less to go than the process that it displaces, least of all that have come at that tick, and has
come first of those.

* `Displaces`: an event tells of such a process;
* `Displacing`: a log in which every stop is followed by such an event;
* `Displacing.append`: logs of this kind make up a longer one;
* `EventLog.frequency`: how often something of a kind has happened.
-/

namespace Uniprocessor

/-- The process that the event `d` is about has displaced the one that was stopped with the event `e`:
it gets the processor for the first time, at the same tick, and is the shortest of the entrants, or the
first one of the shortest. -/
structure Displaces (entrants : List Process) (e d : ProcessEvent) : Prop where
  time : d.tick = e.tick
  started : d.kind = .started
  choice : ∃ before p after, entrants = before ++ p :: after ∧ d.About p ∧
    p.runTime < e.remaining ∧ (∀ x ∈ before, p.runTime < x.runTime) ∧
    ∀ x ∈ after, p.runTime ≤ x.runTime

/-- Every event of a stop is followed by one of the process for which it was made. -/
def Displacing (entrants : Tick → List Process) (es : List ProcessEvent) : Prop :=
  ∀ before e after, es = before ++ e :: after → e.kind = .stopped →
    ∃ d rest, after = d :: rest ∧ Displaces (entrants e.tick) e d

variable {entrants : Tick → List Process} {es es' : List ProcessEvent} {e d : ProcessEvent}

/-- Where nobody is stopped nobody is displaced. -/
theorem displacing_of_none (h : ∀ e ∈ es, e.kind ≠ .stopped) : Displacing entrants es := by
  rintro before e after rfl hkind
  exact absurd hkind (h e (List.mem_append_right _ List.mem_cons_self))

theorem Displaces.displacing {news : List Process} (h : Displaces news e d)
    (hnews : entrants e.tick = news) : Displacing entrants [e, d] := by
  intro before x after hes hkind
  cases before with
  | nil =>
    obtain ⟨rfl, rfl⟩ := List.cons.inj hes
    exact ⟨d, [], rfl, hnews ▸ h⟩
  | cons y before =>
    -- the second event is not one of a stop
    have hx : x ∈ [d] := (List.cons.inj hes).2 ▸ List.mem_append_right _ List.mem_cons_self
    obtain rfl := List.mem_singleton.mp hx
    exact absurd (hkind.symm.trans h.started) (by simp)

theorem Displacing.append (h : Displacing entrants es) (h' : Displacing entrants es') :
    Displacing entrants (es ++ es') := by
  intro before e after hes hkind
  rcases List.append_eq_append_iff.mp hes with ⟨between, rfl, hlater⟩ | ⟨between, rfl, hearlier⟩
  · exact h' between e after hlater hkind
  · cases between with
    | nil => exact h' [] e after hearlier.symm hkind
    | cons x between =>
      obtain ⟨rfl, rfl⟩ := List.cons.inj hearlier
      obtain ⟨d, rest, rfl, hd⟩ := h before e between rfl hkind
      exact ⟨d, rest ++ es', List.cons_append, hd⟩

namespace EventLog

/-- How often something of a kind has happened. -/
def frequency (log : EventLog) (kind : ProcessEventKind) : Nat :=
  log.process.countP fun e => e.kind = kind

variable {log : EventLog} {b : ControlBlock} {tick : Tick} {kind : ProcessEventKind}

theorem frequency_extend (log : EventLog) (es : List ProcessEvent) (ms : List MemoryEvent)
    (kind : ProcessEventKind) : (log.extend es ms).frequency kind =
      log.frequency kind + es.countP fun e => e.kind = kind :=
  List.countP_append

theorem frequency_concat_self : (log.extend [.ofBlock b tick kind none] []).frequency kind =
    log.frequency kind + 1 :=
  (frequency_extend log _ [] kind).trans
    (congrArg _ (List.countP_singleton.trans (if_pos (decide_eq_true rfl))))

theorem frequency_concat_of_ne {kind' : ProcessEventKind} (h : kind' ≠ kind) :
    (log.extend [.ofBlock b tick kind' none] []).frequency kind = log.frequency kind :=
  (frequency_extend log _ [] kind).trans
    (congrArg _ (List.countP_singleton.trans (if_neg fun heq => h (of_decide_eq_true heq))))

end EventLog
end Uniprocessor
