import Uniprocessor.Proofs.Journal.Slices
import Uniprocessor.Proofs.Machine.Accounts

/-!
# Slices of the processor

Under round robin the counter of a machine is set when a process gets the processor, and falls with
every dispatch that finds the process there; but there is a dispatch only where somebody waits.  So
the counter and the contended ticks since the last dispatch of a process make up the quantum, as long
as the process has the processor.  A swap comes with the last of them.

* `Machine.Sliced`: where the machine stands between two ticks;
* `Sliced.reported`, `Sliced.arrival`: finishes and arrivals do not touch the counter;
* `Sliced.turn`: **neither does a tick that is not contended, and a contended one takes one off it**, or
  gives a full quantum to the next process.
-/

namespace Uniprocessor
namespace Machine

variable {m m' : Machine} {held : List Slot} {slot : Slot} {b : ControlBlock} {tick f : Tick}
  {contended : Tick → Bool} {quantum : Nat} {p : Process}

/-- Every slice so far has ended as it may, but for that of the running process, which has some of its
quantum left: all but the contended ticks since its dispatch.  `f` is the tick that comes next. -/
inductive Sliced (contended : Tick → Bool) (quantum : Nat) (m : Machine) (f : Tick) : Prop
  | idle (hidle : m.current? = none)
      (hlog : Answered (Slice contended quantum) m.journal.log.process none)
  | busy (d : ProcessEvent) (hcurrent : m.current? = some d.process)
      (hlog : Answered (Slice contended quantum) m.journal.log.process (some d))
      (htime : d.tick < f) (hleft : 0 < m.sliceLeft)
      (hspent : m.sliceLeft + contention contended d.tick (f - 1) = quantum)

theorem Sliced.congr (h : m.Sliced contended quantum f) (hcurrent : m'.current? = m.current?)
    (hlog : m'.journal.log.process = m.journal.log.process) (hslice : m'.sliceLeft = m.sliceLeft) :
    m'.Sliced contended quantum f := by
  cases h with
  | idle hidle hanswered => exact .idle (hcurrent.trans hidle) (hlog ▸ hanswered)
  | busy d hrunning hanswered htime hleft hspent =>
    exact .busy d (hcurrent.trans hrunning) (hlog ▸ hanswered) htime (hslice ▸ hleft) (hslice ▸ hspent)

/-! ## Reports and arrivals -/

/-- A process that finishes may have some of its quantum left. -/
theorem Sliced.reported (h : m.Sliced contended quantum tick) (hm : m.Sound [])
    {reports : List UnitReport} (hr : Reported m tick reports m') :
    m'.Sliced contended quantum tick := by
  cases hr with
  | quiet hquiet => exact h.congr rfl rfl rfl
  | progress slot b u c hrun hslot hunit hc hcounts hleft =>
    exact h.congr (current?_hear hm hslot (c.remaining - 1)) rfl rfl
  | finished slot b u c memory hrun hslot hunit hc hcounts hleft =>
    have hcurrent := current?_of_running hrun hslot
    cases h with
    | idle hidle => exact absurd (hidle.symm.trans hcurrent) (by simp)
    | busy d hrunning hanswered htime hpos hspent =>
      have hid : b.id = d.process := Option.some.inj (hcurrent.symm.trans hrunning)
      refine .idle (current?_of_idle rfl) ?_
      rw [log_retired]
      refine .release hanswered _ rfl hid (.finished rfl htime fun t hused => ?_)
      refine Nat.le_of_not_lt fun hlt => ?_
      have hle : contention contended d.tick t ≤ contention contended d.tick (tick - 1) :=
        contention_mono (Nat.le_sub_one_of_lt hlt)
      rw [hused.count] at hle
      omega

theorem Sliced.arrival (h : m.Sliced contended quantum f) (hm : m.Sound []) {admission : Admission}
    {s : Scheduler} (ha : m.toScheduler.Arrival tick p (.done admission s)) :
    (m.withScheduler s).Sliced contended quantum f := by
  cases ha with
  | rejected hpos hmemory =>
    refine h.congr rfl ?_ rfl
    exact congrArg EventLog.process (Journal.log_add_memory _ _) |>.trans (List.append_nil _)
  | admitted block memory ready hpos hmemory hready hperm =>
    refine h.congr (current?_eq hm rfl fun s d _ hd => ⟨d, ?_, rfl⟩) ?_ rfl
    · exact ProcessTable.get?_insert_of_live hm.scheduler.table hd _
    · exact congrArg EventLog.process (Journal.log_add_memory _ _) |>.trans (List.append_nil _)

/-! ## Dispatch -/

theorem Alike.current?_eq (ha : Alike m m') : m'.current? = m.current? := by
  rw [current?, current?, Scheduler.runningBlock?, Scheduler.runningBlock?, ha.running, ha.table]

/-- Under round robin, a dispatch that finds the processor taken takes one off the counter, and the
processor from a process for which nothing is left. -/
theorem decide_roundRobin (hpolicy : m.policy = .roundRobin quantum) (tick : Tick) (left : Nat) :
    (m.decide tick (some left)).1 = (if 0 < m.sliceLeft - 1 then .keep else .swap) ∧
      (m.decide tick (some left)).2.sliceLeft = m.sliceLeft - 1 := by
  unfold Scheduler.decide
  rw [hpolicy]
  exact ⟨rfl, rfl⟩

/-- Whoever keeps the processor has some of the quantum left, one tick less than before. -/
theorem sliceLeft_of_keep (hpolicy : m.policy = .roundRobin quantum) {left : Nat}
    (hkeep : (m.decide tick (some left)).1 = .keep) :
    0 < m.sliceLeft - 1 ∧ (m.decide tick (some left)).2.sliceLeft = m.sliceLeft - 1 := by
  obtain ⟨hdecision, hfewer⟩ := decide_roundRobin hpolicy tick left
  refine ⟨?_, hfewer⟩
  by_contra hnone
  exact absurd ((if_neg hnone).symm.trans (hdecision.symm.trans hkeep)) (by simp)

/-- Whoever has to give it away has none left. -/
theorem sliceLeft_of_swap (hpolicy : m.policy = .roundRobin quantum) {left : Nat}
    (hswap : (m.decide tick (some left)).1 = .swap) : ¬ 0 < m.sliceLeft - 1 := by
  obtain ⟨hdecision, -⟩ := decide_roundRobin hpolicy tick left
  exact fun hmore => absurd ((if_pos hmore).symm.trans (hdecision.symm.trans hswap)) (by simp)

/-- Where the processor stays with whoever has it, a contended tick takes one off the counter. -/
theorem Sliced.onward (h : m.Sliced contended quantum tick) (hcurrent : m'.current? = m.current?)
    (hlog : m'.journal.log.process = m.journal.log.process)
    (hslice : m'.sliceLeft + (contended tick).toNat = m.sliceLeft)
    (hmore : 0 < m.sliceLeft → 0 < m'.sliceLeft) : m'.Sliced contended quantum (tick + 1) := by
  cases h with
  | idle hidle hanswered => exact .idle (hcurrent.trans hidle) (hlog ▸ hanswered)
  | busy d hrunning hanswered htime hleft hspent =>
    refine .busy d (hcurrent.trans hrunning) (hlog ▸ hanswered) (Nat.lt_succ_of_lt htime)
      (hmore hleft) ?_
    rw [Nat.add_sub_cancel, contention_of_lt htime]
    omega

/-- Whoever gets the processor gets a full quantum with it. -/
theorem Bound.sliced {m₁ : Machine} {next : Slot} (hbound : Bound m tick next m₁) (ha : Alike m₁ m')
    (hanswered : Answered (Slice contended quantum) m.journal.log.process none)
    (hslice : m'.sliceLeft = quantum) (hquantum : 0 < quantum) :
    m'.Sliced contended quantum (tick + 1) := by
  obtain ⟨e, hlog, rfl, he, hcurrent⟩ := hbound.dispatched
  have hlog' : m'.journal.log.process = m.journal.log.process ++ [e] :=
    congrArg EventLog.process (ha.log.trans hlog)
  refine .busy e (ha.current?_eq.trans hcurrent) (hlog' ▸ .dispatch hanswered e he)
    (Nat.lt_succ_self _) (hslice ▸ hquantum) ?_
  rw [hslice, Nat.add_sub_cancel, contention_self, Nat.add_zero]

/-- **A contended tick takes one off the counter, and no other tick does.**  Whoever gets the processor
gets a full quantum with it. -/
theorem Sliced.turn (h : m.Sliced contended quantum tick) (hm : m.Sound [])
    (hpolicy : m.policy = .roundRobin quantum) (hquantum : 0 < quantum)
    (hcontended : contended tick = !m.ready.isEmpty) (ht : Turn m tick m') :
    m'.Sliced contended quantum (tick + 1) := by
  have hwaits : m.ready.toList ≠ [] → contended tick = true := by
    intro hwait
    rw [hcontended, Bool.not_eq_true', Bool.eq_false_iff]
    exact fun hempty => hwait ((ReadyQueue.isEmpty_iff hm.scheduler.ready).mp hempty)
  cases ht with
  | idle hnone ha hslice =>
    have hquiet : contended tick = false := by
      rw [hcontended, (ReadyQueue.isEmpty_iff hm.scheduler.ready).mpr hnone, Bool.not_true]
    refine h.onward ha.current?_eq (congrArg _ ha.log) ?_ fun hleft => hslice ▸ hleft
    rw [hslice, hquiet, Bool.toNat_false, Nat.add_zero]
  | kept slot b u c hrun hslot hunit hc ha hdecide hslice hwait =>
    have hsame : m'.current? = m.current? :=
      ha.current?_eq.trans (current?_hear hm hslot c.remaining)
    obtain ⟨hmore, hfewer⟩ := sliceLeft_of_keep (m := m.hear slot b c.remaining) hpolicy hdecide
    have hslice' : m'.sliceLeft = m.sliceLeft - 1 := hslice.trans hfewer
    refine h.onward hsame (congrArg _ ha.log) ?_ fun _ => hslice' ▸ hmore
    rw [hslice', hwaits hwait, Bool.toNat_true]
    omega
  | launched next ready m₁ hrun hperm hheld hbound ha htake hslice =>
    cases h with
    | busy d hrunning => exact absurd ((current?_of_idle hrun).symm.trans hrunning) (by simp)
    | idle hidle hanswered => exact hbound.sliced ha hanswered (hslice quantum hpolicy) hquantum
  | swapped slot b u c next ready ready' m₁ hrun hslot hunit hc hperm hperm' hheld hbound ha hdecide
      htake hinsert hslice =>
    have hwait : m.ready.toList ≠ [] := fun hnone => absurd (hnone ▸ hperm).nil_eq (by simp)
    have hcurrent := current?_of_running hrun hslot
    have hnone : ¬ 0 < m.sliceLeft - 1 :=
      sliceLeft_of_swap (m := m.hear slot b c.remaining) hpolicy hdecide
    cases h with
    | idle hidle => exact absurd (hidle.symm.trans hcurrent) (by simp)
    | busy d hrunning hanswered htime hleft hspent =>
      have hid : b.id = d.process := Option.some.inj (hcurrent.symm.trans hrunning)
      have hused : UsesUp contended quantum d.tick tick := by
        refine ⟨htime, hwaits hwait, ?_⟩
        rw [contention_of_lt htime, hwaits hwait, Bool.toNat_true]
        omega
      let stop : ProcessEvent :=
        .ofBlock ({ b with remaining := c.remaining }.stopped tick) tick .stopped none
      have hstopped : Answered (Slice contended quantum) (m.journal.add (.process stop)).log.process
          none := by
        rw [Journal.log_add_process]
        exact .release hanswered stop rfl hid (.stopped rfl hused)
      exact hbound.sliced ha hstopped (hslice quantum hpolicy) hquantum

end Machine
end Uniprocessor
