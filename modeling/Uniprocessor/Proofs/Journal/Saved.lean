import Uniprocessor.Proofs.Decimal.Reading
import Uniprocessor.Proofs.Json.Record
import Uniprocessor.Report.Basic

/-!
# Saved logs are read back

A log that fits, with every number in the range of its word and every weighted turnaround time a float
that a run can produce, is read back from its text with all its events, in order and with every field
as it was.  The exception are the weighted turnaround times: what is written for a float is the
shortest decimal that rounds to it, but reading it rounds more than once, so that the last bit may
change.  A change in these figures is the only one, and they stay finite.

* `Literal.reread`: the float that is read for what is written for a float;
* `EventLog.InWords`: the logs in range;
* `EventLog.load?_save`: **a saved log is read back with its floats reread**;
* `EventLog.exists_load?_save`: what this says of the events.
-/

namespace Uniprocessor

/-! ## Floats -/

namespace Literal

variable {x : Float}

/-- The float that is read for what is written for a float. -/
def reread (x : Float) : Float :=
  ((ofFloat? x).bind float?).getD x

theorem float?_reread (h : Rounding.Within (2 ^ (200 : Int)) x) :
    ∃ l, ofFloat? x = some l ∧ l.Proper ∧ l.float? = some (reread x) ∧
      (reread x).isFinite = true := by
  obtain ⟨l, y, hl, hproper, hy, hfinite⟩ := float?_ofFloat h
  have hreread : reread x = y := by
    rw [reread, hl, Option.bind_some, hy]
    rfl
  rw [hreread]
  exact ⟨l, hl, hproper, hy, hfinite⟩

end Literal

namespace Json

variable {x : Float}

theorem clean_ofFloat (h : Rounding.Within (2 ^ (200 : Int)) x) : Clean (ofFloat x) := by
  obtain ⟨l, hl, hproper, -, -⟩ := Literal.float?_reread h
  rw [ofFloat, hl, Clean]
  exact hproper

theorem float?_ofFloat (h : Rounding.Within (2 ^ (200 : Int)) x) :
    float? (ofFloat x) = some (Literal.reread x) := by
  obtain ⟨l, hl, -, hread, -⟩ := Literal.float?_reread h
  rw [ofFloat, hl]
  exact hread

end Json

/-! ## Address ranges -/

namespace Range

/-- A range of 64-bit words. -/
structure InWords (r : Range) : Prop where
  size : r.size < word64
  start : r.start < word64
  last : r.last < word64

variable {r : Range}

theorem clean_toJson (r : Range) : r.toJson.Clean := by
  refine Json.clean_record fun f hf => ?_
  simp only [List.mem_cons, List.not_mem_nil, or_false] at hf
  rcases hf with rfl | rfl | rfl <;> exact Json.clean_ofNat _

theorem ofJson?_toJson (h : r.InWords) : ofJson? r.toJson = some r := by
  have hfields : r.toJson.fields? ["size", "start", "end"] 0 =
      some [some (.ofNat r.size), some (.ofNat r.start), some (.ofNat r.last)] :=
    Json.fields?_self ["size", "start", "end"] rfl (by decide) 0
  rw [ofJson?, hfields]
  simp [Json.required, Json.nat?_ofNat h.size, Json.nat?_ofNat h.start, Json.nat?_ofNat h.last]

end Range

/-! ## Process events -/

namespace Completion

/-- Figures in range: a 64-bit word, and a float as large as a quotient of such words can be. -/
structure InWords (c : Completion) : Prop where
  turnaround : c.turnaround < word64
  weighted : Rounding.Within (2 ^ (64 : Int)) c.weighted

/-- The figures that are read back. -/
def reread (c : Completion) : Completion :=
  { c with weighted := Literal.reread c.weighted }

variable {c : Completion}

theorem InWords.within (h : c.InWords) : Rounding.Within (2 ^ (200 : Int)) c.weighted :=
  h.weighted.trans (zpow_le_zpow_right₀ (by norm_num) (by decide))

theorem clean_toJson (h : c.InWords) : c.toJson.Clean := by
  refine Json.clean_record fun f hf => ?_
  simp only [List.mem_cons, List.not_mem_nil, or_false] at hf
  rcases hf with rfl | rfl
  · exact Json.clean_ofNat _
  · exact Json.clean_ofFloat h.within

theorem ofJson?_toJson (h : c.InWords) : ofJson? c.toJson = some c.reread := by
  have hfields : c.toJson.fields? ["turnaround", "weighted_turnaround"] 0 =
      some [some (.ofNat c.turnaround), some (.ofFloat c.weighted)] :=
    Json.fields?_self ["turnaround", "weighted_turnaround"] rfl (by decide) 0
  rw [ofJson?, hfields]
  simp [Json.required, Json.nat?_ofNat h.turnaround, Json.float?_ofFloat h.within, reread]

/-- The same figures, but for the weighted turnaround time, which is only known to be finite. -/
structure Matches (c d : Completion) : Prop where
  turnaround : d.turnaround = c.turnaround
  weighted : d.weighted.isFinite = true

theorem matches_reread (h : c.InWords) : c.Matches c.reread := by
  obtain ⟨-, -, -, -, hfinite⟩ := Literal.float?_reread h.within
  exact ⟨rfl, hfinite⟩

end Completion

theorem ProcessEventKind.ofJson?_caseName (kind : ProcessEventKind) :
    ofJson? (.ofString kind.caseName) = some kind := by
  rw [ofJson?, Json.unitVariant?_ofString]
  cases kind <;> rfl

namespace ProcessEvent

/-- An event in range. -/
structure InWords (e : ProcessEvent) : Prop where
  tick : e.tick < word64
  process : e.process < word32
  arrival : e.arrival < word64
  total : e.total < word64
  remaining : e.remaining < word64
  waiting : e.waiting < word64
  completion : ∀ c, e.completion = some c → c.InWords

/-- The event that is read back. -/
def reread (e : ProcessEvent) : ProcessEvent :=
  { e with completion := e.completion.map Completion.reread }

variable {e : ProcessEvent}

theorem clean_toJson (h : e.InWords) : e.toJson.Clean := by
  refine Json.clean_record fun f hf => ?_
  simp only [fieldNames, List.zip_cons_cons, List.zip_nil_right, List.mem_cons, List.not_mem_nil,
    or_false] at hf
  rcases hf with rfl | rfl | rfl | rfl | rfl | rfl | rfl | rfl
  · exact Json.clean_ofNat _
  · exact Json.clean_ofNat _
  · exact Json.clean_ofString _
  · exact Json.clean_ofNat _
  · exact Json.clean_ofNat _
  · exact Json.clean_ofNat _
  · exact Json.clean_ofNat _
  · exact Json.clean_ofOption fun c hc => Completion.clean_toJson (h.completion c hc)

theorem ofJson?_toJson (h : e.InWords) : ofJson? e.toJson = some e.reread := by
  have hfields : e.toJson.fields? fieldNames 0 =
      some [some (.ofNat e.tick), some (.ofNat e.process), some (.ofString e.kind.caseName),
        some (.ofNat e.arrival), some (.ofNat e.total), some (.ofNat e.remaining),
        some (.ofNat e.waiting), some (.ofOption Completion.toJson e.completion)] :=
    Json.fields?_self fieldNames rfl (by decide) 0
  have hcompletion : Json.optional Completion.ofJson?
      (some (.ofOption Completion.toJson e.completion)) =
        some (e.completion.map Completion.reread) :=
    Json.optional_ofOption (fun c hc => Completion.ofJson?_toJson (h.completion c hc))
      fun _ => Json.noConfusion
  rw [ofJson?, hfields]
  simp [Json.required, Json.nat?_ofNat h.tick, Json.nat?_ofNat h.process,
    ProcessEventKind.ofJson?_caseName, Json.nat?_ofNat h.arrival, Json.nat?_ofNat h.total,
    Json.nat?_ofNat h.remaining, Json.nat?_ofNat h.waiting, hcompletion, reread]

/-- The same event, with figures that match if there are any. -/
structure Matches (e d : ProcessEvent) : Prop where
  fields : d = { e with completion := d.completion }
  completion : Option.Rel Completion.Matches e.completion d.completion

theorem matches_reread (h : e.InWords) : e.Matches e.reread := by
  refine ⟨rfl, ?_⟩
  rw [reread]
  cases hcompletion : e.completion with
  | none => exact .none
  | some c => exact .some (Completion.matches_reread (h.completion c hcompletion))

end ProcessEvent

/-! ## Memory events -/

theorem MemoryEventKind.ofJson?_caseName (kind : MemoryEventKind) :
    ofJson? (.ofString kind.caseName) = some kind := by
  rw [ofJson?, Json.unitVariant?_ofString]
  cases kind <;> rfl

namespace MemoryEvent

/-- An event in range. -/
structure InWords (e : MemoryEvent) : Prop where
  tick : e.tick < word64
  process : e.process < word32
  size : e.size < word64
  range : ∀ r, e.range = some r → r.InWords

variable {e : MemoryEvent}

theorem clean_toJson (e : MemoryEvent) : e.toJson.Clean := by
  refine Json.clean_record fun f hf => ?_
  simp only [fieldNames, List.zip_cons_cons, List.zip_nil_right, List.mem_cons, List.not_mem_nil,
    or_false] at hf
  rcases hf with rfl | rfl | rfl | rfl | rfl
  · exact Json.clean_ofNat _
  · exact Json.clean_ofNat _
  · exact Json.clean_ofString _
  · exact Json.clean_ofNat _
  · exact Json.clean_ofOption fun r _ => r.clean_toJson

theorem ofJson?_toJson (h : e.InWords) : ofJson? e.toJson = some e := by
  have hfields : e.toJson.fields? fieldNames 0 =
      some [some (.ofNat e.tick), some (.ofNat e.process), some (.ofString e.kind.caseName),
        some (.ofNat e.size), some (.ofOption Range.toJson e.range)] :=
    Json.fields?_self fieldNames rfl (by decide) 0
  have hrange : Json.optional Range.ofJson? (some (.ofOption Range.toJson e.range)) =
      some (e.range.map id) :=
    Json.optional_ofOption (fun r hr => Range.ofJson?_toJson (h.range r hr))
      fun _ => Json.noConfusion
  rw [ofJson?, hfields]
  simp [Json.required, Json.nat?_ofNat h.tick, Json.nat?_ofNat h.process,
    MemoryEventKind.ofJson?_caseName, Json.nat?_ofNat h.size, hrange]

end MemoryEvent

/-! ## Logs -/

namespace EventLog

/-- A log with all its events in range. -/
structure InWords (log : EventLog) : Prop where
  process : ∀ e ∈ log.process, e.InWords
  memory : ∀ e ∈ log.memory, e.InWords

/-- The log that is read back. -/
def reread (log : EventLog) : EventLog :=
  { log with process := log.process.map ProcessEvent.reread }

variable {log : EventLog}

theorem clean_toJson (h : log.InWords) : log.toJson.Clean := by
  refine Json.clean_record fun f hf => ?_
  simp only [List.mem_cons, List.not_mem_nil, or_false] at hf
  rcases hf with rfl | rfl
  · exact Json.clean_array fun e he => ProcessEvent.clean_toJson (h.process e he)
  · exact Json.clean_array fun e _ => e.clean_toJson

theorem ofJson?_toJson (h : log.InWords) : ofJson? log.toJson = some log.reread := by
  have hfields : log.toJson.fields? ["process", "memory"] 0 =
      some [some (.array (log.process.map ProcessEvent.toJson)),
        some (.array (log.memory.map MemoryEvent.toJson))] :=
    Json.fields?_self ["process", "memory"] rfl (by decide) 0
  have hprocess : Json.list? ProcessEvent.ofJson? (.array (log.process.map ProcessEvent.toJson)) =
      some (log.process.map ProcessEvent.reread) :=
    Json.list?_map fun e he => ProcessEvent.ofJson?_toJson (h.process e he)
  have hmemory : Json.list? MemoryEvent.ofJson? (.array (log.memory.map MemoryEvent.toJson)) =
      some (log.memory.map id) :=
    Json.list?_map fun e he => MemoryEvent.ofJson?_toJson (h.memory e he)
  rw [ofJson?, hfields]
  simp [Json.required, hprocess, hmemory, reread]

/-- **A saved log is read back with its floats reread.** -/
theorem load?_save (h : log.InWords) : load? log.save = some log.reread := by
  rw [load?, save, Json.parse?_pretty (clean_toJson h), Option.bind_some, ofJson?_toJson h]

/-- **A saved log is read back**: the same process events and the same memory events in the same
order, but for weighted turnaround times, which are only known to be finite. -/
theorem exists_load?_save (h : log.InWords) :
    ∃ loaded, load? log.save = some loaded ∧
      List.Forall₂ ProcessEvent.Matches log.process loaded.process ∧
      loaded.memory = log.memory := by
  refine ⟨log.reread, load?_save h, ?_, rfl⟩
  rw [reread, List.forall₂_map_right_iff]
  exact List.forall₂_same.mpr fun e he => ProcessEvent.matches_reread (h.process e he)

/-- A log of events with and without figures and addresses. -/
def mixed : EventLog where
  process :=
    [⟨2, 1, .started, 0, 11, 11, 2, none⟩,
      ⟨13, 1, .finished, 0, 11, 0, 2, some ⟨13, nearestFloat 13 / nearestFloat 11⟩⟩]
  memory := [⟨0, 1, .allocated, 16, some ⟨16, 0, 15⟩⟩, ⟨0, 2, .rejected, 64, none⟩]

theorem inWords_mixed : mixed.InWords where
  process e he := by
    simp only [mixed, List.mem_cons, List.not_mem_nil, or_false] at he
    rcases he with rfl | rfl
    · exact ⟨by decide, by decide, by decide, by decide, by decide, by decide,
        fun c hc => absurd hc (by simp)⟩
    · refine ⟨by decide, by decide, by decide, by decide, by decide, by decide, fun c hc => ?_⟩
      obtain rfl := Option.some.inj hc
      exact ⟨by decide, Rounding.within_div (Rounding.within_nearestFloat 13)
        (Rounding.sizable_nearestFloat (by decide) (by decide))
        (Rounding.representable_pow (by decide) (by decide))⟩
  memory e he := by
    simp only [mixed, List.mem_cons, List.not_mem_nil, or_false] at he
    rcases he with rfl | rfl
    · refine ⟨by decide, by decide, by decide, fun r hr => ?_⟩
      obtain rfl := Option.some.inj hr
      exact ⟨by decide, by decide, by decide⟩
    · exact ⟨by decide, by decide, by decide, fun r hr => absurd hr (by simp)⟩

theorem exists_load?_save_mixed :
    mixed.InWords ∧ ∃ loaded, load? mixed.save = some loaded ∧
      List.Forall₂ ProcessEvent.Matches mixed.process loaded.process ∧
      loaded.memory = mixed.memory :=
  ⟨inWords_mixed, exists_load?_save inWords_mixed⟩

end EventLog

end Uniprocessor
