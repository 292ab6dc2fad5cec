import Uniprocessor.Proofs.Journal.Course
import Uniprocessor.Proofs.Journal.Log
import Uniprocessor.Proofs.Process.Table

/-!
# What a log says of everybody

A table of live processes and the log so far belong together: of every process that has arrived,
the log tells either that it is live, and then its control block is what its events make of it; or
that it has finished, and then its events are accounted for; or that it was rejected, and then it
has none.

Two points of time go with it.  `f` is the tick that comes next, up to which a running process has
burnt its run time; `g` is one that all starts, stops and resumes lie before.  They are the same
between two ticks, but while a tick is under way `f` has moved on already and `g` has not: a process
cannot be stopped in the tick it was dispatched in.

* `ControlBlock.Standing`: one live process; `EventLog.Gone`: one that is no longer there;
* `Chronicle`: everybody;
* `Chronicle.set`, `vacate`, `insert`, `reject`: the ways in which table and log change together.
-/

namespace Uniprocessor

/-- Where a live process stands, after the events `es`. -/
inductive ControlBlock.Standing (b : ControlBlock) (p : Process) (es : List ProcessEvent)
    (f g : Tick) : Prop
  | fresh (hunit : b.unit = none) (hnone : es = []) (hleft : b.remaining = p.runTime)
      (harrival : p.arrival < f)
  | running (d : ProcessEvent) (hstate : b.state = .running) (hunit : b.unit ≠ none)
      (hcourse : Course p es d) (hd : d.kind.dispatches = true) (htime : d.tick < g)
      (hleft : b.remaining + f = d.remaining + d.tick + 1) (hwaiting : b.waiting = d.waiting)
  | blocked (d : ProcessEvent) (hstate : b.state = .blocked) (hunit : b.unit ≠ none)
      (hcourse : Course p es d) (hd : d.kind = .stopped) (htime : d.tick < g)
      (hleft : b.remaining = d.remaining) (hwaiting : b.waiting = d.waiting)
      (hsince : b.waitStart = d.tick)

/-- A control block belongs to a process and is what the log makes of it. -/
structure ControlBlock.Traced (b : ControlBlock) (p : Process) (log : EventLog) (f g : Tick) :
    Prop where
  id : b.id = p.id
  arrival : b.arrival = p.arrival
  total : b.runTime = p.runTime
  requests : log.requestsFor p.id = [.allocated]
  standing : b.Standing p (log.eventsFor p.id) f g

/-- A process that has arrived and is no longer there: it was admitted and has finished, or was
rejected. -/
inductive EventLog.Gone (log : EventLog) (p : Process) : Prop
  | finished (hrequests : log.requestsFor p.id = [.allocated, .freed])
      (hevents : Accounted p (log.eventsFor p.id))
  | rejected (hrequests : log.requestsFor p.id = [.rejected]) (hevents : log.eventsFor p.id = [])

/-- The live processes and the log, where the processes `seen` have arrived. -/
structure Chronicle (t : ProcessTable) (log : EventLog) (seen : List Process) (f g : Tick) :
    Prop where
  distinct : (seen.map Process.id).Nodup
  live : ∀ slot b, t.get? slot = some b → ∃ p ∈ seen, b.Traced p log f g
  single : ∀ slot slot' b b', t.get? slot = some b → t.get? slot' = some b' → b.id = b'.id →
    slot = slot'
  gone : ∀ p ∈ seen, (∃ slot b, t.get? slot = some b ∧ b.id = p.id) ∨ log.Gone p
  process_known : ∀ e ∈ log.process, e.process ∈ seen.map Process.id
  memory_known : ∀ e ∈ log.memory, e.process ∈ seen.map Process.id

variable {t : ProcessTable} {log : EventLog} {seen : List Process} {f g f' g' : Tick} {slot : Slot}
  {b b' : ControlBlock} {p : Process} {es : List ProcessEvent} {ms : List MemoryEvent}

/-! ## One process -/

theorem ControlBlock.Standing.mono (h : b.Standing p es f g) (hg : g ≤ g') :
    b.Standing p es f g' := by
  cases h with
  | fresh hunit hnone hleft harrival => exact .fresh hunit hnone hleft harrival
  | running d hstate hunit hcourse hd htime hleft hwaiting =>
    exact .running d hstate hunit hcourse hd (Nat.lt_of_lt_of_le htime hg) hleft hwaiting
  | blocked d hstate hunit hcourse hd htime hleft hwaiting hsince =>
    exact .blocked d hstate hunit hcourse hd (Nat.lt_of_lt_of_le htime hg) hleft hwaiting hsince

/-- A process that waits stands where it stood when a tick has passed. -/
theorem ControlBlock.Standing.later (h : b.Standing p es f g) (hstate : b.state ≠ .running) :
    b.Standing p es (f + 1) g := by
  cases h with
  | fresh hunit hnone hleft harrival => exact .fresh hunit hnone hleft (Nat.lt_succ_of_lt harrival)
  | running d hrunning => exact absurd hrunning hstate
  | blocked d hstate hunit hcourse hd htime hleft hwaiting hsince =>
    exact .blocked d hstate hunit hcourse hd htime hleft hwaiting hsince

/-- All events of a process lie before the given tick. -/
theorem ControlBlock.Standing.last_lt (h : b.Standing p es f g) : ∀ e ∈ es.getLast?, e.tick < g := by
  intro e he
  cases h with
  | fresh hunit hnone =>
    rw [hnone] at he
    exact absurd he (by simp)
  | running d hstate hunit hcourse hd htime =>
    exact Option.some.inj (hcourse.getLast?_eq.symm.trans he) ▸ htime
  | blocked d hstate hunit hcourse hd htime =>
    exact Option.some.inj (hcourse.getLast?_eq.symm.trans he) ▸ htime

/-- Events of other processes are no concern of a process. -/
theorem ControlBlock.Traced.extend (h : b.Traced p log f g) (hes : ∀ e ∈ es, e.process ≠ p.id)
    (hms : ∀ e ∈ ms, e.process ≠ p.id)
    (hstanding : ∀ xs, b.Standing p xs f g → b.Standing p xs f' g') :
    b.Traced p (log.extend es ms) f' g' := by
  refine ⟨h.id, h.arrival, h.total, ?_, ?_⟩
  · rw [EventLog.requestsFor_extend_of_ne hms]
    exact h.requests
  · rw [EventLog.eventsFor_extend_of_ne hes]
    exact hstanding _ h.standing

theorem EventLog.Gone.extend (h : log.Gone p) (hes : ∀ e ∈ es, e.process ≠ p.id)
    (hms : ∀ e ∈ ms, e.process ≠ p.id) : (log.extend es ms).Gone p := by
  have hsame : (log.extend es ms).requestsFor p.id = log.requestsFor p.id :=
    EventLog.requestsFor_extend_of_ne hms
  have hsame' : (log.extend es ms).eventsFor p.id = log.eventsFor p.id :=
    EventLog.eventsFor_extend_of_ne hes
  cases h with
  | finished hrequests hevents => exact .finished (hsame.trans hrequests) (hsame'.symm ▸ hevents)
  | rejected hrequests hevents => exact .rejected (hsame.trans hrequests) (hsame'.trans hevents)

namespace Chronicle

/-- A process that has not arrived yet has no events. -/
theorem eventsFor_eq_nil (h : Chronicle t log seen f g) {id : Nat}
    (hid : id ∉ seen.map Process.id) : log.eventsFor id = [] := by
  refine List.filter_eq_nil_iff.mpr fun e he heq => hid ?_
  exact beq_iff_eq.mp heq ▸ h.process_known e he

theorem requestsFor_eq_nil (h : Chronicle t log seen f g) {id : Nat}
    (hid : id ∉ seen.map Process.id) : log.requestsFor id = [] := by
  rw [EventLog.requestsFor, List.map_eq_nil_iff]
  refine List.filter_eq_nil_iff.mpr fun e he heq => hid ?_
  exact beq_iff_eq.mp heq ▸ h.memory_known e he

/-- The identifiers of different live processes are different. -/
theorem id_ne (h : Chronicle t log seen f g) (hslot : t.get? slot = some b) {slot' : Slot}
    (hslot' : t.get? slot' = some b') (hne : slot' ≠ slot) : b.id ≠ b'.id := fun heq =>
  hne (h.single slot slot' b b' hslot hslot' heq).symm

/-- Who is gone is not live. -/
theorem not_live_of_gone (h : Chronicle t log seen f g) (hslot : t.get? slot = some b)
    (hgone : log.Gone p) : b.id ≠ p.id := by
  intro heq
  obtain ⟨q, -, hq⟩ := h.live slot b hslot
  have hrequests := hq.requests
  rw [← hq.id, heq] at hrequests
  cases hgone with
  | finished hfreed => exact absurd (hfreed.symm.trans hrequests) (by simp)
  | rejected hrejected => exact absurd (hrejected.symm.trans hrequests) (by simp)

section Live

variable (h : Chronicle t log seen f g) (hslot : t.get? slot = some b)
  (hes : ∀ e ∈ es, e.process = b.id) (hms : ∀ e ∈ ms, e.process = b.id)

include h hslot hes hms

/-- What is noted of a live process is no concern of another live one. -/
theorem live_other {s : Slot} {d : ControlBlock} (hd : t.get? s = some d) (hne : s ≠ slot)
    (hothers : ∀ p xs, d.Standing p xs f g → d.Standing p xs f' g') :
    ∃ r ∈ seen, d.Traced r (log.extend es ms) f' g' := by
  obtain ⟨r, hr, hold⟩ := h.live s d hd
  have hother : b.id ≠ r.id := hold.id ▸ h.id_ne hslot hd hne
  exact ⟨r, hr, hold.extend (fun e he => (hes e he).symm ▸ hother)
    (fun e he => (hms e he).symm ▸ hother) (hothers r)⟩

/-- Nor is it of one who is gone. -/
theorem gone_other (hgone : log.Gone p) : (log.extend es ms).Gone p := by
  have hother := h.not_live_of_gone hslot hgone
  exact hgone.extend (fun e he => (hes e he).symm ▸ hother) fun e he => (hms e he).symm ▸ hother

theorem known_extend : (∀ e ∈ (log.extend es ms).process, e.process ∈ seen.map Process.id) ∧
    ∀ e ∈ (log.extend es ms).memory, e.process ∈ seen.map Process.id := by
  obtain ⟨q, hq, htraced⟩ := h.live slot b hslot
  have hknown : b.id ∈ seen.map Process.id := htraced.id ▸ List.mem_map_of_mem hq
  exact ⟨List.forall_mem_append.mpr ⟨h.process_known, fun e he => (hes e he).symm ▸ hknown⟩,
    List.forall_mem_append.mpr ⟨h.memory_known, fun e he => (hms e he).symm ▸ hknown⟩⟩

end Live

/-- A live process has got a new control block, and its events have been noted. -/
theorem set (h : Chronicle t log seen f g) (hslot : t.get? slot = some b) (hid : b'.id = b.id)
    (harrival : b'.arrival = b.arrival) (htotal : b'.runTime = b.runTime)
    (hes : ∀ e ∈ es, e.process = b.id)
    (hself : ∀ p, b.Traced p log f g → b'.Standing p (log.eventsFor p.id ++ es) f' g')
    (hothers : ∀ s d p xs, s ≠ slot → t.get? s = some d → d.Standing p xs f g →
      d.Standing p xs f' g') : Chronicle (t.set slot b') (log.extend es []) seen f' g' := by
  have hget := ProcessTable.get?_set hslot b'
  have hnone : ∀ e ∈ ([] : List MemoryEvent), e.process = b.id := fun e he =>
    absurd he List.not_mem_nil
  obtain ⟨hprocess, hmemory⟩ := h.known_extend hslot hes hnone
  refine ⟨h.distinct, ?_, ?_, ?_, hprocess, hmemory⟩
  · intro s d hd
    rw [hget] at hd
    split at hd
    · obtain rfl := Option.some.inj hd
      obtain ⟨q, hq, htraced⟩ := h.live slot b hslot
      refine ⟨q, hq, hid.trans htraced.id, harrival.trans htraced.arrival,
        htotal.trans htraced.total, ?_, ?_⟩
      · rw [EventLog.requestsFor_extend_of_ne fun e he => absurd he List.not_mem_nil]
        exact htraced.requests
      · rw [EventLog.eventsFor_extend_self fun e he => (hes e he).trans htraced.id]
        exact hself q htraced
    · rename_i hne
      exact h.live_other hslot hes hnone hd hne fun p xs => hothers s d p xs hne hd
  · intro s s' d d' hd hd' heq
    -- the identifiers in the slots are those from before
    have hbefore : ∀ {s d}, (t.set slot b').get? s = some d →
        ∃ d₀, t.get? s = some d₀ ∧ d₀.id = d.id := by
      intro s d hd
      rw [hget] at hd
      split at hd
      · rename_i hs
        exact ⟨b, hs ▸ hslot, (Option.some.inj hd) ▸ hid.symm⟩
      · exact ⟨d, hd, rfl⟩
    obtain ⟨d₀, hd₀, hdid⟩ := hbefore hd
    obtain ⟨d₁, hd₁, hdid'⟩ := hbefore hd'
    exact h.single s s' d₀ d₁ hd₀ hd₁ (hdid.trans (heq.trans hdid'.symm))
  · intro r hr
    rcases h.gone r hr with ⟨s, d, hd, hdr⟩ | hgone
    · left
      by_cases hs : s = slot
      · refine ⟨slot, b', by rw [hget, if_pos rfl], ?_⟩
        obtain rfl := Option.some.inj ((hs ▸ hd).symm.trans hslot)
        exact hid.trans hdr
      · exact ⟨s, d, by rw [hget, if_neg hs]; exact hd, hdr⟩
    · exact Or.inr (h.gone_other hslot hes hnone hgone)

/-- A live process has finished and given its slot and its block back. -/
theorem vacate (h : Chronicle t log seen f g) (hslot : t.get? slot = some b) {e : ProcessEvent}
    {a : MemoryEvent} (he : e.process = b.id) (ha : a.process = b.id) (hkind : a.kind = .freed)
    (hself : ∀ p, b.Traced p log f g → Accounted p (log.eventsFor p.id ++ [e]))
    (hothers : ∀ s d p xs, s ≠ slot → t.get? s = some d → d.Standing p xs f g →
      d.Standing p xs f' g') : Chronicle (t.vacate slot) (log.extend [e] [a]) seen f' g' := by
  have hget := ProcessTable.get?_vacate hslot
  have hold : ∀ {s d}, (t.vacate slot).get? s = some d → s ≠ slot ∧ t.get? s = some d := by
    intro s d hd
    rw [hget] at hd
    split at hd
    · exact absurd hd (by simp)
    · rename_i hne
      exact ⟨hne, hd⟩
  have hes : ∀ x ∈ [e], x.process = b.id := List.forall_mem_singleton.mpr he
  have hms : ∀ x ∈ [a], x.process = b.id := List.forall_mem_singleton.mpr ha
  obtain ⟨hprocess, hmemory⟩ := h.known_extend hslot hes hms
  refine ⟨h.distinct, ?_, ?_, ?_, hprocess, hmemory⟩
  · intro s d hd
    obtain ⟨hne, hd⟩ := hold hd
    exact h.live_other hslot hes hms hd hne fun p xs => hothers s d p xs hne hd
  · intro s s' d d' hd hd' heq
    exact h.single s s' d d' (hold hd).2 (hold hd').2 heq
  · intro r hr
    rcases h.gone r hr with ⟨s, d, hd, hdr⟩ | hgone
    · by_cases hs : s = slot
      · obtain rfl := Option.some.inj ((hs ▸ hd).symm.trans hslot)
        obtain ⟨q, hq, htraced⟩ := h.live slot d hslot
        obtain rfl : r = q :=
          List.inj_on_of_nodup_map h.distinct hr hq (hdr.symm.trans htraced.id)
        refine Or.inr (.finished ?_ ?_)
        · rw [EventLog.requestsFor_extend_self (List.forall_mem_singleton.mpr (ha.trans hdr)),
            htraced.requests, List.map_singleton, hkind]
          rfl
        · rw [EventLog.eventsFor_extend_self (List.forall_mem_singleton.mpr (he.trans hdr))]
          exact hself r htraced
      · exact Or.inl ⟨s, d, by rw [hget, if_neg hs]; exact hd, hdr⟩
    · exact Or.inr (h.gone_other hslot hes hms hgone)

/-! ## Arrivals -/

/-- A process has arrived whose identifier is new, and an event about its memory has been noted;
`t'` is the table with it or without it. -/
theorem arrive (h : Chronicle t log seen f g) (hp : p.id ∉ seen.map Process.id) {a : MemoryEvent}
    (ha : a.process = p.id) {t' : ProcessTable}
    (hlive : ∀ s d, t'.get? s = some d → t.get? s = some d ∨ d.Traced p (log.extend [] [a]) f g)
    (hold : ∀ s d, t.get? s = some d → t'.get? s = some d)
    (hsingle : ∀ s s' d d', t'.get? s = some d → t'.get? s' = some d' → d.id = p.id →
      d'.id = p.id → s = s')
    (hself : (∃ s d, t'.get? s = some d ∧ d.id = p.id) ∨ (log.extend [] [a]).Gone p) :
    Chronicle t' (log.extend [] [a]) (seen ++ [p]) f g := by
  have hne : ∀ q ∈ seen, p.id ≠ q.id := fun q hq heq => hp (heq ▸ List.mem_map_of_mem hq)
  refine ⟨?_, ?_, ?_, ?_, ?_, ?_⟩
  · rw [List.map_append, List.map_singleton]
    exact List.nodup_append.mpr ⟨h.distinct, List.nodup_singleton _, fun x hx y hy =>
      List.mem_singleton.mp hy ▸ fun heq => hp (heq ▸ hx)⟩
  · intro s d hd
    rcases hlive s d hd with hd | hnew
    · obtain ⟨q, hq, hbefore⟩ := h.live s d hd
      exact ⟨q, List.mem_append_left _ hq, hbefore.extend (fun e he => absurd he List.not_mem_nil)
        (List.forall_mem_singleton.mpr (ha ▸ hne q hq)) fun _ => id⟩
    · exact ⟨p, List.mem_append_right _ (List.mem_singleton_self p), hnew⟩
  · intro s s' d d' hd hd' heq
    have hother : ∀ {s d}, t.get? s = some d → d.id ≠ p.id := by
      intro s d hd heq
      obtain ⟨q, hq, hbefore⟩ := h.live s d hd
      exact hne q hq (heq.symm.trans hbefore.id)
    rcases hlive s d hd with hd₀ | hnew
    · rcases hlive s' d' hd' with hd₀' | hnew'
      · exact h.single s s' d d' hd₀ hd₀' heq
      · exact absurd (heq.trans hnew'.id) (hother hd₀)
    · exact hsingle s s' d d' hd hd' hnew.id (heq.symm.trans hnew.id)
  · intro q hq
    rcases List.mem_append.mp hq with hq | hq
    · rcases h.gone q hq with ⟨s, d, hd, hdq⟩ | hgone
      · exact Or.inl ⟨s, d, hold s d hd, hdq⟩
      · exact Or.inr (hgone.extend (fun e he => absurd he List.not_mem_nil)
          (List.forall_mem_singleton.mpr (ha ▸ hne q hq)))
    · exact List.mem_singleton.mp hq ▸ hself
  · intro x hx
    rw [EventLog.extend, List.append_nil] at hx
    rw [List.map_append]
    exact List.mem_append_left _ (h.process_known x hx)
  · intro x hx
    rw [List.map_append]
    rcases List.mem_append.mp hx with hx | hx
    · exact List.mem_append_left _ (h.memory_known x hx)
    · rw [List.mem_singleton.mp hx, ha]
      exact List.mem_append_right _ (List.mem_singleton_self _)

/-- A new process has no events, and the given one about its memory. -/
theorem extend_new (h : Chronicle t log seen f g) (hp : p.id ∉ seen.map Process.id)
    {a : MemoryEvent} (ha : a.process = p.id) :
    (log.extend [] [a]).eventsFor p.id = [] ∧ (log.extend [] [a]).requestsFor p.id = [a.kind] := by
  constructor
  · rw [EventLog.eventsFor_extend_of_ne fun e he => absurd he List.not_mem_nil]
    exact h.eventsFor_eq_nil hp
  · rw [EventLog.requestsFor_extend_self (List.forall_mem_singleton.mpr ha),
      h.requestsFor_eq_nil hp]
    rfl

/-- A process has been admitted. -/
theorem insert (h : Chronicle t log seen f g) (ht : t.Sound) (hp : p.id ∉ seen.map Process.id)
    (harrival : p.arrival < f) (block : Buddy.Block) {a : MemoryEvent} (ha : a.process = p.id)
    (hkind : a.kind = .allocated) :
    Chronicle (t.insert (.ofProcess p block)).2 (log.extend [] [a]) (seen ++ [p]) f g := by
  have hget := ProcessTable.get?_insert ht (.ofProcess p block)
  obtain ⟨hevents, hrequests⟩ := h.extend_new hp ha
  refine h.arrive hp ha ?_ ?_ ?_
    (Or.inl ⟨_, _, by rw [hget, if_pos rfl], rfl⟩)
  · intro s d hd
    rw [hget] at hd
    split at hd
    · obtain rfl := Option.some.inj hd
      refine Or.inr ⟨rfl, rfl, rfl, hkind ▸ hrequests, ?_⟩
      rw [hevents]
      exact .fresh rfl rfl rfl harrival
    · exact Or.inl hd
  · intro s d hd
    exact ProcessTable.get?_insert_of_live ht hd _
  · intro s s' d d' hd hd' hid hid'
    -- only the new slot holds a process of the new identifier
    have hslot : ∀ {s d}, (t.insert (.ofProcess p block)).2.get? s = some d → d.id = p.id →
        s = (t.insert (.ofProcess p block)).1 := by
      intro s d hd hid
      by_contra hne
      rw [hget, if_neg hne] at hd
      obtain ⟨q, hq, hbefore⟩ := h.live s d hd
      exact hp (hid ▸ hbefore.id ▸ List.mem_map_of_mem hq)
    exact (hslot hd hid).trans (hslot hd' hid').symm

/-- A process has been rejected. -/
theorem reject (h : Chronicle t log seen f g) (hp : p.id ∉ seen.map Process.id) {a : MemoryEvent}
    (ha : a.process = p.id) (hkind : a.kind = .rejected) :
    Chronicle t (log.extend [] [a]) (seen ++ [p]) f g := by
  obtain ⟨hevents, hrequests⟩ := h.extend_new hp ha
  refine h.arrive hp ha (fun s d hd => Or.inl hd) (fun s d hd => hd)
    (fun s s' d d' hd hd' hid hid' => h.single s s' d d' hd hd' (hid.trans hid'.symm))
    (Or.inr (.rejected (hkind ▸ hrequests) hevents))

/-- Nothing is said before anybody has arrived. -/
theorem empty (f g : Tick) : Chronicle .empty .empty [] f g where
  distinct := List.nodup_nil
  live := fun slot b hslot => absurd hslot (by simp)
  single := fun slot slot' b b' hslot => absurd hslot (by simp)
  gone := fun p hp => absurd hp List.not_mem_nil
  process_known := fun e he => absurd he List.not_mem_nil
  memory_known := fun e he => absurd he List.not_mem_nil

/-- Time goes by, and everybody stands where they stood. -/
theorem shift (h : Chronicle t log seen f g) (hstanding : ∀ s d p xs, t.get? s = some d →
    d.Standing p xs f g → d.Standing p xs f' g') : Chronicle t log seen f' g' where
  distinct := h.distinct
  live := fun slot b hslot =>
    have ⟨p, hp, htraced⟩ := h.live slot b hslot
    ⟨p, hp, { htraced with standing := hstanding slot b p _ hslot htraced.standing }⟩
  single := h.single
  gone := h.gone
  process_known := h.process_known
  memory_known := h.memory_known

theorem mono (h : Chronicle t log seen f g) (hg : g ≤ g') : Chronicle t log seen f g' :=
  h.shift fun _ _ _ _ _ hstanding => hstanding.mono hg

end Chronicle
end Uniprocessor
