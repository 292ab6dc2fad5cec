import Uniprocessor.Proofs.Journal.Figures
import Uniprocessor.Proofs.Journal.Saved
import Uniprocessor.Proofs.Metrics.Summary

/-!
# Saved reports are read back

A report in range is read back from its text with everything as it was, but for its floats: the
averages, the deviation, the utilization, and the weighted turnaround times in its events.  So a report
is read back as it was exactly if each of its floats is read for what is written for it.

* `Policy.ofJson?_toJson`, `Summary.ofJson?_toJson`: policies and figures;
* `Report.reread`, `Report.floats`: the report that is read back, and what may be different in it;
* `Report.load?_save`: **a saved report is read back with its floats reread**;
* `Report.reread_eq_iff`: when it is the same report.
-/

namespace Uniprocessor

/-! ## Policies -/

namespace Policy

/-- A policy whose quantum is a word of 64 bits. -/
def InWords : Policy → Prop
  | roundRobin quantum => quantum < word64
  | _ => True

theorem clean_toJson (p : Policy) : p.toJson.Clean := by
  cases p with
  | highestPriorityFirst => exact Json.clean_ofString _
  | shortestRemainingTimeNext => exact Json.clean_ofString _
  | roundRobin quantum =>
    refine Json.clean_record (List.forall_mem_singleton.mpr ?_)
    exact Json.clean_record (List.forall_mem_singleton.mpr (Json.clean_ofNat quantum))

theorem ofJson?_toJson {p : Policy} (h : p.InWords) : ofJson? p.toJson = some p := by
  cases p with
  | highestPriorityFirst =>
    rw [ofJson?, toJson, Json.unitVariant?_ofString, Json.variant?_ofString]
    rfl
  | shortestRemainingTimeNext =>
    rw [ofJson?, toJson, Json.unitVariant?_ofString, Json.variant?_ofString]
    rfl
  | roundRobin quantum =>
    have hfields : (Json.record [("quantum", .ofNat quantum)]).fields? ["quantum"] 0 =
        some [some (.ofNat quantum)] := Json.fields?_self ["quantum"] rfl (by decide) 0
    rw [ofJson?, toJson, Json.variant?_record]
    simp [hfields, Json.required, Json.nat?_ofNat h]

end Policy

/-! ## Figures -/

namespace Summary

variable {s : Summary}

/-- The figures that are read back. -/
def reread (s : Summary) : Summary :=
  { s with
    cpuUtilization := Literal.reread s.cpuUtilization
    meanWeighted := Literal.reread s.meanWeighted
    meanWaiting := Literal.reread s.meanWaiting
    meanTurnaround := Literal.reread s.meanTurnaround
    deviationWeighted := Literal.reread s.deviationWeighted }

/-- The figures that are floats. -/
def floats (s : Summary) : List Float :=
  [s.cpuUtilization, s.meanWeighted, s.meanWaiting, s.meanTurnaround, s.deviationWeighted]

theorem reread_eq_iff : s.reread = s ↔ ∀ x ∈ s.floats, Literal.reread x = x := by
  obtain ⟨totalTicks, busyTicks, idleTicks, finished, rejected, cpuUtilization, meanWeighted,
    meanWaiting, meanTurnaround, deviationWeighted, median, percentile99⟩ := s
  simp [reread, floats]

theorem clean_toJson (h : s.InWords) : s.toJson.Clean := by
  refine Json.clean_record (List.forall_mem_append.mpr ⟨fun f hf => ?_, fun f hf => ?_⟩)
  · simp only [fixedFields, List.zip_cons_cons, List.zip_nil_right, List.mem_cons, List.not_mem_nil,
      or_false] at hf
    rcases hf with rfl | rfl | rfl | rfl | rfl | rfl | rfl | rfl | rfl | rfl
    · exact Json.clean_ofNat _
    · exact Json.clean_ofNat _
    · exact Json.clean_ofNat _
    · exact Json.clean_ofNat _
    · exact Json.clean_ofNat _
    · exact Json.clean_ofFloat h.cpuUtilization
    · exact Json.clean_ofFloat h.meanWeighted
    · exact Json.clean_ofFloat h.meanWaiting
    · exact Json.clean_ofFloat h.meanTurnaround
    · exact Json.clean_ofFloat h.deviationWeighted
  · obtain ⟨⟨name, value⟩, -, hf⟩ := List.mem_filterMap.mp hf
    obtain ⟨v, -, rfl⟩ := Option.map_eq_some_iff.mp hf
    exact Json.clean_ofNat v

/-- Each figure is found under its name, and a percentile that has been left out is missing. -/
theorem fields?_toJson (s : Summary) :
    s.toJson.fields? (fixedFields ++ percentileFields) 2 =
      some [some (.ofNat s.totalTicks), some (.ofNat s.busyTicks), some (.ofNat s.idleTicks),
        some (.ofNat s.finished), some (.ofNat s.rejected), some (.ofFloat s.cpuUtilization),
        some (.ofFloat s.meanWeighted), some (.ofFloat s.meanWaiting),
        some (.ofFloat s.meanTurnaround), some (.ofFloat s.deviationWeighted),
        s.median.map .ofNat, s.percentile99.map .ofNat] := by
  obtain ⟨totalTicks, busyTicks, idleTicks, finished, rejected, cpuUtilization, meanWeighted,
    meanWaiting, meanTurnaround, deviationWeighted, median, percentile99⟩ := s
  rw [toJson, Json.fields?_record]
  · cases median <;> cases percentile99 <;> rfl
  · have hall : (fixedFields ++ percentileFields).Nodup := by decide
    cases median with
    | none =>
      cases percentile99 with
      | none => exact hall.sublist (List.sublist_append_left _ _)
      | some v => exact hall.sublist ((List.sublist_cons_self _ _).append_left fixedFields)
    | some u =>
      cases percentile99 with
      | none => exact hall.sublist ((List.sublist_append_left [_] [_]).append_left fixedFields)
      | some v => exact hall

theorem ofJson?_toJson (h : s.InWords) : ofJson? s.toJson = some s.reread := by
  have hpercentile : ∀ o : Option Nat, (∀ v, o = some v → v < word64) →
      Json.optional (Json.nat? word64) (o.map .ofNat) = some (o.map id) := fun o ho =>
    Json.optional_map (fun v hv => Json.nat?_ofNat (ho v hv)) fun _ => Json.noConfusion
  rw [ofJson?, fields?_toJson]
  simp [Json.required, Json.nat?_ofNat h.totalTicks, Json.nat?_ofNat h.busyTicks,
    Json.nat?_ofNat h.idleTicks, Json.nat?_ofNat h.finished, Json.nat?_ofNat h.rejected,
    Json.float?_ofFloat h.cpuUtilization, Json.float?_ofFloat h.meanWeighted,
    Json.float?_ofFloat h.meanWaiting, Json.float?_ofFloat h.meanTurnaround,
    Json.float?_ofFloat h.deviationWeighted, hpercentile s.median h.median,
    hpercentile s.percentile99 h.percentile99, reread]

end Summary

/-! ## Logs -/

theorem Completion.reread_eq_iff {c : Completion} :
    c.reread = c ↔ Literal.reread c.weighted = c.weighted := by
  obtain ⟨turnaround, weighted⟩ := c
  simp [reread]

theorem ProcessEvent.reread_eq_iff {e : ProcessEvent} :
    e.reread = e ↔ ∀ x ∈ e.weighted?, Literal.reread x = x := by
  obtain ⟨tick, process, kind, arrival, total, remaining, waiting, completion⟩ := e
  cases completion with
  | none => simp [reread, weighted?]
  | some c => simp [reread, weighted?, Completion.reread_eq_iff]

namespace EventLog

variable {log : EventLog}

/-- The weighted turnaround times of a log. -/
def floats (log : EventLog) : List Float :=
  log.process.filterMap ProcessEvent.weighted?

theorem reread_eq_iff : log.reread = log ↔ ∀ x ∈ log.floats, Literal.reread x = x := by
  obtain ⟨process, memory⟩ := log
  have hlists : EventLog.reread ⟨process, memory⟩ = ⟨process, memory⟩ ↔
      process.map ProcessEvent.reread = process.map id := by
    simp [reread]
  rw [hlists, List.map_inj_left]
  simp only [id, ProcessEvent.reread_eq_iff, floats, List.mem_filterMap, Option.mem_def]
  constructor
  · rintro h x ⟨e, he, hx⟩
    exact h e he x hx
  · intro h e he x hx
    exact h x ⟨e, he, hx⟩

end EventLog

/-! ## Reports -/

namespace Report

/-- A report with all its parts in range. -/
structure InWords (r : Report) : Prop where
  policy : r.policy.InWords
  summary : r.summary.InWords
  events : r.events.InWords

/-- The report that is read back. -/
def reread (r : Report) : Report :=
  { r with summary := r.summary.reread, events := r.events.reread }

/-- What may be different in it. -/
def floats (r : Report) : List Float :=
  r.summary.floats ++ r.events.floats

variable {r : Report}

/-- **It is the same report exactly if each float is read for what is written for it.** -/
theorem reread_eq_iff : r.reread = r ↔ ∀ x ∈ r.floats, Literal.reread x = x := by
  obtain ⟨policy, summary, events⟩ := r
  rw [floats, List.forall_mem_append, ← Summary.reread_eq_iff, ← EventLog.reread_eq_iff]
  simp [reread]

theorem clean_toJson (h : r.InWords) : r.toJson.Clean := by
  refine Json.clean_record fun f hf => ?_
  simp only [List.mem_cons, List.not_mem_nil, or_false] at hf
  rcases hf with rfl | rfl | rfl
  · exact r.policy.clean_toJson
  · exact Summary.clean_toJson h.summary
  · exact EventLog.clean_toJson h.events

theorem ofJson?_toJson (h : r.InWords) : ofJson? r.toJson = some r.reread := by
  have hfields : r.toJson.fields? ["policy", "summary", "events"] 0 =
      some [some r.policy.toJson, some r.summary.toJson, some r.events.toJson] :=
    Json.fields?_self ["policy", "summary", "events"] rfl (by decide) 0
  rw [ofJson?, hfields]
  simp [Json.required, Policy.ofJson?_toJson h.policy, Summary.ofJson?_toJson h.summary,
    EventLog.ofJson?_toJson h.events, reread]

/-- **A saved report is read back with its floats reread.** -/
theorem load?_save (h : r.InWords) : load? r.save = some r.reread := by
  rw [load?, save, Json.parse?_pretty (clean_toJson h), Option.bind_some, ofJson?_toJson h]

/-- A figure of a report in range is finite, and is read as something finite. -/
theorem InWords.within (h : r.InWords) :
    ∀ x ∈ r.floats, Rounding.Within (2 ^ (200 : Int)) x := by
  refine List.forall_mem_append.mpr ⟨fun x hx => ?_, fun x hx => ?_⟩
  · simp only [Summary.floats, List.mem_cons, List.not_mem_nil, or_false] at hx
    rcases hx with rfl | rfl | rfl | rfl | rfl
    · exact h.summary.cpuUtilization
    · exact h.summary.meanWeighted
    · exact h.summary.meanWaiting
    · exact h.summary.meanTurnaround
    · exact h.summary.deviationWeighted
  · obtain ⟨e, he, hx⟩ := List.mem_filterMap.mp hx
    obtain ⟨c, hc, rfl⟩ := Option.map_eq_some_iff.mp hx
    exact ((h.events.process e he).completion c hc).within

theorem InWords.isFinite_reread (h : r.InWords) :
    ∀ x ∈ r.floats, (Literal.reread x).isFinite = true := by
  intro x hx
  obtain ⟨-, -, -, -, hfinite⟩ := Literal.float?_reread (h.within x hx)
  exact hfinite

end Report

end Uniprocessor
