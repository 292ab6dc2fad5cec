import Uniprocessor.Proofs.Journal.Chronicle
import Uniprocessor.Proofs.Journal.Figures
import Uniprocessor.Proofs.Journal.Rota
import Uniprocessor.Proofs.Machine.Histories
import Uniprocessor.Proofs.Machine.Timing

/-!
# Machines keep their books

The log of a machine belongs to its processes (`Chronicle`), is a rota for the processor (`Rota`), and
lies in the order of ticks.  This is kept by every part of a tick of a driver that goes from tick to
tick.

* `Machine.Recorded`: the books are in order;
* `Recorded.reported`, `Recorded.arrival`, `Recorded.turn`: the parts of a tick keep them;
* `Machine.log_retired`, `Turn.log`: what is logged at the end of a process, and of a tick.
-/

namespace Uniprocessor
namespace Machine

/-- The identifier of the running process. -/
def current? (m : Machine) : Option Nat :=
  m.runningBlock?.map ControlBlock.id

/-- The log tells of the processes `seen`, of who has the processor, and in order; `f` and `g` are
the times of a `Chronicle`. -/
structure Recorded (m : Machine) (seen : List Process) (f g : Tick) : Prop where
  chronicle : Chronicle m.table m.journal.log seen f g
  rota : Rota m.journal.log.process m.current?
  chronological : m.journal.log.Chronological f

variable {m m' : Machine} {held : List Slot} {slot : Slot} {b : ControlBlock} {u : UnitId}
  {tick f g : Tick} {seen : List Process} {p : Process}

theorem current?_of_running (hrun : m.running = some slot) (hslot : m.table.get? slot = some b) :
    m.current? = some b.id := by
  rw [current?, runningBlock_eq hrun hslot]
  rfl

theorem current?_of_idle (hidle : m.running = none) : m.current? = none := by
  rw [current?, Scheduler.runningBlock?, hidle]
  rfl

/-- A slot that is written to keeps its process if the identifier stays. -/
theorem set_keeps {t : ProcessTable} (hslot : t.get? slot = some b) (b' : ControlBlock)
    (hid : b'.id = b.id) {s : Slot} {d : ControlBlock} (hd : t.get? s = some d) :
    ∃ d', (t.set slot b').get? s = some d' ∧ d'.id = d.id := by
  rw [ProcessTable.get?_set hslot]
  split
  · rename_i hs
    obtain rfl := Option.some.inj ((hs ▸ hd).symm.trans hslot)
    exact ⟨b', rfl, hid⟩
  · exact ⟨d, hd, rfl⟩

/-- A move that leaves the running process in its slot. -/
theorem current?_eq (hm : m.Sound held) (hrun : m'.running = m.running)
    (hkeep : ∀ slot b, m.running = some slot → m.table.get? slot = some b →
      ∃ b', m'.table.get? slot = some b' ∧ b'.id = b.id) : m'.current? = m.current? := by
  cases hidle : m.running with
  | none => rw [current?_of_idle hidle, current?_of_idle (hrun.trans hidle)]
  | some slot =>
    obtain ⟨b, hslot⟩ := hm.scheduler.running_live hidle
    obtain ⟨b', hslot', hid⟩ := hkeep slot b hidle hslot
    rw [current?_of_running hidle hslot, current?_of_running (hrun.trans hidle) hslot', hid]

theorem Recorded.alike (h : m.Recorded seen f g) (ha : Alike m m') : m'.Recorded seen f g := by
  refine ⟨?_, ?_, ?_⟩
  · rw [ha.table, ha.log]
    exact h.chronicle
  · rw [ha.log, current?, Scheduler.runningBlock?, ha.running, ha.table]
    exact h.rota
  · rw [ha.log]
    exact h.chronological

/-- What the running process's standing is. -/
theorem Recorded.running_standing (hm : m.Sound held) (hrun : m.running = some slot)
    (hslot : m.table.get? slot = some b) {es : List ProcessEvent} (h : b.Standing p es f g) :
    ∃ d, Course p es d ∧ d.kind.dispatches = true ∧ d.tick < g ∧
      b.remaining + f = d.remaining + d.tick + 1 ∧ b.waiting = d.waiting := by
  obtain ⟨hstate, u, c, hunit, -⟩ := hm.running slot b hrun hslot
  cases h with
  | fresh hnone => exact absurd (hnone.symm.trans hunit) (by simp)
  | running d hrunning hsome hcourse hd htime hleft hwaiting =>
    exact ⟨d, hcourse, hd, htime, hleft, hwaiting⟩
  | blocked d hblocked =>
    rw [hstate] at hblocked
    exact absurd hblocked (by simp)

/-- The others wait, and stand where they stood when a tick has passed. -/
theorem Recorded.others_later (hm : m.Sound []) (hrun : m.running ≠ some slot)
    (hslot : m.table.get? slot = some b) {es : List ProcessEvent} (h : b.Standing p es f g) :
    b.Standing p es (f + 1) g :=
  h.later fun hstate => hrun (hm.running_of_state hslot hstate)

/-- To hear of a process does not change who has the processor. -/
theorem current?_hear (hm : m.Sound held) (hslot : m.table.get? slot = some b) (left : Nat) :
    (m.hear slot b left).current? = m.current? :=
  current?_eq hm rfl fun _ _ _ hd => set_keeps hslot { b with remaining := left } rfl hd

/-! ## Reports -/

/-- The log after a process has been retired. -/
theorem log_retired (m : Machine) (tick : Tick) (slot : Slot) (b : ControlBlock) (u : UnitId)
    (memory : Buddy) : (m.retired tick slot b u memory).journal.log =
      m.journal.log.extend
        [Scheduler.finishEvent { b with remaining := 0, state := .finished } tick]
        [.ofBlock b.id tick .freed b.memory] := by
  show (((m.journal.add (.reaped u b.id)).add (.process _)).add (.memory _)).log = _
  rw [Journal.log_add_memory, Journal.log_add_process, Journal.log_add_reaped,
    EventLog.extend_extend]
  rfl

theorem log_reject (m : Machine) (tick : Tick) (p : Process) : (m.reject tick p).journal.log =
    m.journal.log.extend [] [⟨tick, p.id, .rejected, p.memory, none⟩] :=
  Journal.log_add_memory _ _

theorem log_launch (m : Machine) (tick : Tick) (slot : Slot) (b : ControlBlock) :
    (m.launch tick slot b).journal.log = m.journal.log.extend
      [.ofBlock (b.started tick m.units.next) tick .started none] [] :=
  Journal.log_add_process _ _

theorem log_resume (m : Machine) (tick : Tick) (slot : Slot) (b : ControlBlock) (u : UnitId) :
    (m.resume tick slot b u).journal.log =
      m.journal.log.extend [.ofBlock (b.resumed tick) tick .resumed none] [] :=
  Journal.log_add_process _ _

/-- The running process burns a tick. -/
theorem Recorded.burnt (h : m.Recorded seen tick tick) (hm : m.Sound []) (ht : m.Timely tick)
    (hrun : m.running = some slot) (hslot : m.table.get? slot = some b) (hunit : b.unit = some u)
    {c : Countdown} (hc : m.units.find? u = some c) :
    ((m.advance tick).2.hear slot b (c.remaining - 1)).Recorded seen (tick + 1) tick := by
  obtain ⟨-, -, hheard, hpos⟩ := ht.running hm hrun hslot hunit hc
  have hchronicle : Chronicle (m.table.set slot { b with remaining := c.remaining - 1 })
      (m.journal.log.extend [] []) seen (tick + 1) tick := by
    refine h.chronicle.set hslot rfl rfl rfl (fun e he => absurd he List.not_mem_nil)
      ?_ fun s d p xs hs hd =>
        Recorded.others_later hm (fun hrun' => hs (Option.some.inj (hrun'.symm.trans hrun))) hd
    intro p htraced
    obtain ⟨hstate, -⟩ := hm.running slot b hrun hslot
    obtain ⟨d, hcourse, hd, htime, hburnt, hwaiting⟩ :=
      Recorded.running_standing hm hrun hslot htraced.standing
    rw [List.append_nil]
    refine .running d hstate (hunit ▸ Option.some_ne_none u) hcourse hd htime ?_ hwaiting
    show c.remaining - 1 + (tick + 1) = d.remaining + d.tick + 1
    dsimp only [Tick] at *
    omega
  rw [EventLog.extend_nil] at hchronicle
  have hcurrent : ((m.advance tick).2.hear slot b (c.remaining - 1)).current? = m.current? :=
    current?_hear hm hslot (c.remaining - 1)
  exact ⟨hchronicle, hcurrent.symm ▸ h.rota, h.chronological.mono (Nat.le_succ tick)⟩

/-- The running process is at its end. -/
theorem Recorded.retired (h : m.Recorded seen tick tick) (hm : m.Sound []) (ht : m.Timely tick)
    (hrun : m.running = some slot) (hslot : m.table.get? slot = some b) (hunit : b.unit = some u)
    {c : Countdown} (hc : m.units.find? u = some c) (hleft : c.remaining - 1 = 0) (memory : Buddy) :
    ((m.advance tick).2.retired tick slot b u memory).Recorded seen (tick + 1) tick := by
  obtain ⟨-, -, hheard, hpos⟩ := ht.running hm hrun hslot hunit hc
  have hafter := log_retired (m.advance tick).2 tick slot b u memory
  have hold : (m.advance tick).2.journal.log = m.journal.log := rfl
  rw [hold] at hafter
  refine ⟨?_, ?_, ?_⟩
  · rw [hafter]
    refine h.chronicle.vacate hslot rfl rfl rfl ?_ fun s d p xs hs hd =>
      Recorded.others_later hm (fun hrun' => hs (Option.some.inj (hrun'.symm.trans hrun))) hd
    intro p htraced
    obtain ⟨d, hcourse, hd, htime, hburnt, hwaiting⟩ :=
      Recorded.running_standing hm hrun hslot htraced.standing
    refine (hcourse.next (Scheduler.finishEvent { b with remaining := 0, state := .finished } tick)
      ⟨htraced.id, htraced.arrival, htraced.total⟩
      (.finished hd rfl ⟨htime, ?_, hwaiting⟩ rfl)).accounted rfl rfl rfl ?_
    · show 0 + (tick - d.tick) = d.remaining
      dsimp only [Tick] at *
      omega
    · show tick - b.arrival = tick - p.arrival
      rw [htraced.arrival]
  · rw [hafter, current?_of_idle rfl]
    exact .release _ (current?_of_running hrun hslot ▸ h.rota) rfl
  · rw [hafter]
    exact (h.chronological.mono (Nat.le_succ tick)).extend (List.forall_mem_singleton.mpr rfl)
      (List.forall_mem_singleton.mpr rfl)

theorem Recorded.reported (h : m.Recorded seen tick tick) (hm : m.Sound []) (ht : m.Timely tick)
    {reports : List UnitReport} (hr : Reported m tick reports m') :
    m'.Recorded seen (tick + 1) tick := by
  cases hr with
  | quiet hquiet =>
    have hidle := ht.running_eq_none hm hquiet
    refine ⟨h.chronicle.shift fun s d p xs hd => Recorded.others_later hm ?_ hd, h.rota,
      h.chronological.mono (Nat.le_succ tick)⟩
    rw [hidle]
    exact (Option.some_ne_none s).symm
  | progress slot b u c hrun hslot hunit hc hcounts hleft => exact h.burnt hm ht hrun hslot hunit hc
  | finished slot b u c memory hrun hslot hunit hc hcounts hleft =>
    exact h.retired hm ht hrun hslot hunit hc hleft memory

/-! ## Arrivals -/

theorem Recorded.arrival (h : m.Recorded seen (tick + 1) g) (hm : m.Sound [])
    (hp : p.id ∉ seen.map Process.id) (harrival : p.arrival ≤ tick) {admission : Admission}
    {s : Scheduler} (ha : m.toScheduler.Arrival tick p (.done admission s)) :
    (m.withScheduler s).Recorded (seen ++ [p]) (tick + 1) g := by
  cases ha with
  | rejected hpos hmemory =>
    have hlog : (m.withScheduler (m.reject tick p)).journal.log = _ := log_reject m tick p
    refine ⟨?_, ?_, ?_⟩
    · rw [hlog]
      exact h.chronicle.reject hp rfl rfl
    · rw [hlog, EventLog.extend, List.append_nil]
      exact h.rota
    · rw [hlog]
      exact h.chronological.extend (fun e he => absurd he List.not_mem_nil)
        (List.forall_mem_singleton.mpr rfl)
  | admitted block memory ready hpos hmemory hready hperm =>
    have hlog := Journal.log_add_memory m.journal (.ofBlock p.id tick .allocated block)
    have ht := hm.scheduler.table
    refine ⟨?_, ?_, ?_⟩
    · show Chronicle (m.table.insert (.ofProcess p block)).2 (m.journal.add _).log _ _ _
      rw [hlog]
      exact h.chronicle.insert ht hp (Nat.lt_succ_of_le harrival) block rfl rfl
    · show Rota (m.journal.add _).log.process _
      rw [hlog, EventLog.extend, List.append_nil]
      refine Eq.subst (Eq.symm (current?_eq hm rfl fun s d hs hd => ⟨d, ?_, rfl⟩)) h.rota
      exact ProcessTable.get?_insert_of_live ht hd _
    · show (m.journal.add _).log.Chronological _
      rw [hlog]
      exact h.chronological.extend (fun e he => absurd he List.not_mem_nil)
        (List.forall_mem_singleton.mpr rfl)

/-! ## Dispatch -/

theorem Recorded.mono (h : m.Recorded seen f g) {g' : Tick} (hg : g ≤ g') : m.Recorded seen f g' :=
  ⟨h.chronicle.mono hg, h.rota, h.chronological⟩

/-- To hear once more what is known already changes nothing. -/
theorem Recorded.hear (h : m.Recorded seen f g) (hm : m.Sound held)
    (hslot : m.table.get? slot = some b) {left : Nat} (hleft : left = b.remaining) :
    (m.hear slot b left).Recorded seen f g := by
  subst hleft
  have hset : Chronicle (m.table.set slot b) (m.journal.log.extend [] []) seen f g :=
    h.chronicle.set hslot rfl rfl rfl (fun e he => absurd he List.not_mem_nil)
      (fun p htraced => (List.append_nil _).symm ▸ htraced.standing) fun _ _ _ _ _ _ => id
  rw [EventLog.extend_nil] at hset
  exact ⟨hset, (current?_hear hm hslot b.remaining).symm ▸ h.rota, h.chronological⟩

/-- The running process is stopped. -/
theorem Recorded.stop (h : m.Recorded seen (tick + 1) tick) (hm : m.Sound held)
    (hrun : m.running = some slot) (hslot : m.table.get? slot = some b) (hunit : b.unit = some u)
    (hpos : 0 < b.remaining) (ready : ReadyQueue) :
    (m.stop tick slot b u b.remaining ready).Recorded seen (tick + 1) (tick + 1) := by
  have hlog := Journal.log_add_process m.journal (.ofBlock (b.stopped tick) tick .stopped none)
  refine ⟨?_, ?_, ?_⟩
  · show Chronicle (m.table.set slot (b.stopped tick)) (m.journal.add _).log _ _ _
    rw [hlog]
    refine h.chronicle.set hslot rfl rfl rfl (List.forall_mem_singleton.mpr rfl)
      ?_ fun _ _ _ _ _ _ hstanding => hstanding.mono (Nat.le_succ tick)
    intro p htraced
    obtain ⟨d, hcourse, hd, htime, hburnt, hwaiting⟩ :=
      Recorded.running_standing hm hrun hslot htraced.standing
    have hnext := hcourse.next (.ofBlock (b.stopped tick) tick .stopped none)
      ⟨htraced.id, htraced.arrival, htraced.total⟩
      (.stopped hd rfl ⟨htime, by
        show b.remaining + (tick - d.tick) = d.remaining
        dsimp only [Tick] at *
        omega, hwaiting⟩ hpos)
    exact .blocked _ rfl (hunit ▸ Option.some_ne_none u) hnext rfl (Nat.lt_succ_self tick) rfl rfl rfl
  · show Rota (m.journal.add _).log.process _
    rw [hlog, current?_of_idle rfl]
    exact .release _ (current?_of_running hrun hslot ▸ h.rota) rfl
  · show (m.journal.add _).log.Chronological _
    rw [hlog]
    exact h.chronological.extend (List.forall_mem_singleton.mpr rfl)
      fun e he => absurd he List.not_mem_nil

/-- A process gets the free processor, and its block accounts for the event that says so. -/
theorem Recorded.occupy (h : m.Recorded seen (tick + 1) (tick + 1)) (hidle : m.running = none)
    (hslot : m.table.get? slot = some b) (b' : ControlBlock) (hid : b'.id = b.id)
    (harrival : b'.arrival = b.arrival) (htotal : b'.runTime = b.runTime) (kind : ProcessEventKind)
    (hkind : kind.dispatches = true) (hjournal : m'.journal =
      m.journal.add (.process (.ofBlock b' tick kind none)))
    (htable : m'.table = m.table.set slot b') (hrun : m'.running = some slot)
    (hself : ∀ p, b.Traced p m.journal.log (tick + 1) (tick + 1) →
      b'.Standing p (m.journal.log.eventsFor p.id ++ [.ofBlock b' tick kind none]) (tick + 1)
        (tick + 1)) : m'.Recorded seen (tick + 1) (tick + 1) := by
  have hlog := Journal.log_add_process m.journal (.ofBlock b' tick kind none)
  rw [← hjournal] at hlog
  have hslot' : m'.table.get? slot = some b' := by
    rw [htable]
    exact ProcessTable.get?_set_self hslot b'
  refine ⟨?_, ?_, ?_⟩
  · rw [hlog, htable]
    exact h.chronicle.set hslot hid harrival htotal (List.forall_mem_singleton.mpr hid) hself
      fun _ _ _ _ _ _ => id
  · rw [hlog, current?_of_running hrun hslot']
    exact .dispatch (current?_of_idle hidle ▸ h.rota) _ hkind
  · rw [hlog]
    exact h.chronological.extend (List.forall_mem_singleton.mpr rfl)
      fun e he => absurd he List.not_mem_nil

theorem Recorded.bound (h : m.Recorded seen (tick + 1) (tick + 1)) (hm : m.Sound (slot :: held))
    (hidle : m.running = none) (hearly : ∀ b, m.table.get? slot = some b →
      ∀ e ∈ (m.journal.log.eventsFor b.id).getLast?, e.tick < tick)
    (hbound : Bound m tick slot m') : m'.Recorded seen (tick + 1) (tick + 1) := by
  cases hbound with
  | launched b hslot hunit =>
    refine h.occupy hidle hslot (b.started tick m.units.next) rfl rfl rfl .started rfl rfl rfl rfl
      ?_
    intro p htraced
    cases htraced.standing with
    | fresh hnone hes hleft harrival =>
      rw [hes]
      have hstart := Course.start (p := p) (.ofBlock (b.started tick m.units.next) tick .started none)
        ⟨htraced.id, htraced.arrival, htraced.total⟩ rfl (Nat.le_of_lt_succ harrival) hleft
        (congrArg (tick - ·) htraced.arrival)
      exact .running _ rfl (Option.some_ne_none _) hstart rfl (Nat.lt_succ_self tick) rfl rfl
    | running d hstate hsome => exact absurd hunit hsome
    | blocked d hstate hsome => exact absurd hunit hsome
  | resumed b u hslot hunit =>
    refine h.occupy hidle hslot (b.resumed tick) rfl rfl rfl .resumed rfl rfl rfl rfl ?_
    intro p htraced
    cases htraced.standing with
    | fresh hnone => exact absurd (hnone.symm.trans hunit) (by simp)
    | running d hstate =>
      rcases hm.waiting slot b List.mem_cons_self hslot with ⟨hready, -⟩ | ⟨hblocked, -⟩
      · exact absurd (hstate.symm.trans hready) (by simp)
      · exact absurd (hstate.symm.trans hblocked) (by simp)
    | blocked d hstate hsome hcourse hd htime hleft hwaiting hsince =>
      have htime' : d.tick < tick := by
        refine hearly b hslot d ?_
        rw [htraced.id]
        exact hcourse.getLast?_eq
      have hnext := hcourse.next (.ofBlock (b.resumed tick) tick .resumed none)
        ⟨htraced.id, htraced.arrival, htraced.total⟩
        (.resumed hd rfl ⟨htime', hleft, by
          show b.waiting + (tick - b.waitStart) = d.waiting + (tick - d.tick)
          rw [hwaiting, hsince]⟩)
      exact .running _ rfl hsome hnext rfl (Nat.lt_succ_self tick) rfl rfl

/-- Giving the processor to a process logs that, and no finish. -/
theorem Bound.log (h : Bound m tick slot m') :
    ∃ e, m'.journal.log = m.journal.log.extend [e] [] ∧ e.tick = tick ∧ e.finishes = false ∧
      e.Rated := by
  cases h with
  | launched b hslot hunit => exact ⟨_, log_launch .., rfl, rfl, rfl⟩
  | resumed b u hslot hunit => exact ⟨_, log_resume .., rfl, rfl, rfl⟩

/-- A process that gets the processor is logged, and has it. -/
theorem Bound.dispatched (h : Bound m tick slot m') :
    ∃ e, m'.journal.log = m.journal.log.extend [e] [] ∧ e.tick = tick ∧ e.kind.dispatches = true ∧
      m'.current? = some e.process := by
  cases h with
  | launched b hslot hunit =>
    exact ⟨_, log_launch .., rfl, rfl,
      current?_of_running rfl (ProcessTable.get?_set_self hslot _)⟩
  | resumed b u hslot hunit =>
    exact ⟨_, log_resume .., rfl, rfl,
      current?_of_running rfl (ProcessTable.get?_set_self hslot _)⟩

/-- The end of a tick logs no finish and no rejection. -/
theorem Turn.log (h : Turn m tick m') :
    ∃ es, m'.journal.log = m.journal.log.extend es [] ∧
      ∀ e ∈ es, e.tick = tick ∧ e.finishes = false ∧ e.Rated := by
  cases h with
  | idle hnone ha =>
    exact ⟨[], ha.log.trans (EventLog.extend_nil _).symm, fun _ he => absurd he List.not_mem_nil⟩
  | kept slot b u c hrun hslot hunit hc ha =>
    exact ⟨[], ha.log.trans (EventLog.extend_nil _).symm, fun _ he => absurd he List.not_mem_nil⟩
  | launched next ready m₁ hrun hperm hheld hbound ha =>
    obtain ⟨e, hlog, he⟩ := hbound.log
    exact ⟨[e], ha.log.trans hlog, List.forall_mem_singleton.mpr he⟩
  | swapped slot b u c next ready ready' m₁ hrun hslot hunit hc hperm hperm' hheld hbound ha =>
    obtain ⟨e, hlog, he⟩ := hbound.log
    have hstop := Journal.log_add_process m.journal
      (.ofBlock ({ b with remaining := c.remaining }.stopped tick) tick .stopped none)
    refine ⟨[.ofBlock ({ b with remaining := c.remaining }.stopped tick) tick .stopped none, e], ?_,
      List.forall_mem_cons.mpr ⟨⟨rfl, rfl, rfl⟩, List.forall_mem_singleton.mpr he⟩⟩
    refine (ha.log.trans hlog).trans ((congrArg (EventLog.extend · [e] []) hstop).trans ?_)
    exact EventLog.extend_extend

/-- The events of a live process lie before the tick. -/
theorem Recorded.early (h : m.Recorded seen f g) (hslot : m.table.get? slot = some b) :
    ∀ e ∈ (m.journal.log.eventsFor b.id).getLast?, e.tick < g := by
  obtain ⟨p, -, htraced⟩ := h.chronicle.live slot b hslot
  rw [htraced.id]
  exact htraced.standing.last_lt

/-- **The end of a tick keeps the books in order.** -/
theorem Recorded.turn (h : m.Recorded seen (tick + 1) tick) (hm : m.Sound [])
    (ht : m.Timely (tick + 1)) (hturn : Turn m tick m') :
    m'.Recorded seen (tick + 1) (tick + 1) := by
  cases hturn with
  | idle hnone ha => exact (h.mono (Nat.le_succ tick)).alike ha
  | kept slot b u c hrun hslot hunit hc ha =>
    obtain ⟨-, -, hheard, -⟩ := ht.running hm hrun hslot hunit hc
    exact ((h.mono (Nat.le_succ tick)).hear hm hslot hheard).alike ha
  | launched next ready m₁ hrun hperm hheld hbound ha =>
    have htaken : (m.withReady ready).Recorded seen (tick + 1) (tick + 1) :=
      ⟨h.chronicle.mono (Nat.le_succ tick), h.rota, h.chronological⟩
    exact (htaken.bound hheld hrun (fun b hslot => h.early hslot) hbound).alike ha
  | swapped slot b u c next ready ready' m₁ hrun hslot hunit hc hperm hperm' hheld hbound ha =>
    obtain ⟨-, -, hheard, hpos⟩ := ht.running hm hrun hslot hunit hc
    rw [hheard] at hheld hbound
    have hheardSlot : (m.hear slot b b.remaining).table.get? slot = some b :=
      get?_hear hslot b.remaining
    have hstopped : (((m.hear slot b b.remaining).withReady ready).stop tick slot b u b.remaining
        ready').Recorded seen (tick + 1) (tick + 1) :=
      (h.hear hm hslot rfl).stop (hm.hear hslot _) hrun hheardSlot hunit hpos ready'
    refine (hstopped.bound hheld rfl ?_ hbound).alike ha
    intro d hd
    -- the next process is another one, so its events are those from before the stop
    have hne : next ≠ slot := fun heq =>
      hm.running_notMem hrun (heq ▸ hperm.symm.subset List.mem_cons_self)
    have hd₀ : m.table.get? next = some d :=
      (ProcessTable.get?_set_of_ne hslot _ hne).symm.trans
        ((ProcessTable.get?_set_of_ne hheardSlot _ hne).symm.trans hd)
    have hlog := Journal.log_add_process m.journal (.ofBlock (b.stopped tick) tick .stopped none)
    show ∀ e ∈ ((m.journal.add _).log.eventsFor d.id).getLast?, _
    rw [hlog, EventLog.eventsFor_extend_of_ne
      (List.forall_mem_singleton.mpr (h.chronicle.id_ne hslot hd₀ hne))]
    exact h.early hd₀

end Machine
end Uniprocessor
