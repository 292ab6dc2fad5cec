import Uniprocessor.Proofs.Journal.Services
import Uniprocessor.Proofs.Machine.Entrants
import Uniprocessor.Proofs.Machine.Service
import Uniprocessor.Proofs.Ready.Stable

/-!
# Highest priority first

Under this policy nobody loses the processor.  A process that has it runs to its end, and those who come
in the meantime wait, each under its priority value; when the processor is free at the end of a tick, it
goes to the first of the least of them.

The times are those of a machine between the parts of a tick: `f` is the tick whose report comes next, and
`g` the tick whose dispatch comes next.  Before a tick they are the same.

* `Machine.Standing`: who waits, in the order of admission;
* `Machine.Prefers`: who has been served so far, who has the processor, and who waits;
* `Prefers.reported`, `Prefers.arrival`: what finishes and arrivals do;
* `Prefers.turn`: **the end of a tick gives the free processor to the first of the least**, and takes it
  from nobody.
-/

namespace Uniprocessor
namespace Machine

open Services

variable {m m' : Machine} {all waiting : List Process} {admitted : Tick → List Process} {slot : Slot}
  {b : ControlBlock} {tick f g : Tick} {p : Process}

/-- The processes `waiting` wait for their first turn, under their priority values; they have been admitted
in this order. -/
def Standing (m : Machine) (waiting : List Process) : Prop :=
  ∃ line : List (Slot × Process), m.ready.Holds (line.map fun x => (x.2.priority, x.1)) ∧
    (∀ x ∈ line, m.Fresh x.1 x.2) ∧ line.map Prod.snd = waiting

/-- What happens to those who do not wait does not matter to those who do. -/
theorem Standing.congr (h : m.Standing waiting) (hready : m'.ready = m.ready)
    (hsame : ∀ s ∈ m.ready.toList, m'.table.get? s = m.table.get? s) : m'.Standing waiting := by
  obtain ⟨line, hholds, hfresh, rfl⟩ := h
  refine ⟨line, hready ▸ hholds, fun x hx => ?_, rfl⟩
  have hmem : x.1 ∈ m.ready.toList := by
    refine hholds.perm.symm.subset ?_
    rw [List.map_map]
    exact List.mem_map_of_mem hx
  obtain ⟨block, hslot⟩ := hfresh x hx
  exact ⟨block, (hsame x.1 hmem).trans hslot⟩

theorem Standing.eq_nil (h : m.Standing waiting) (hnone : m.ready.toList = []) : waiting = [] := by
  obtain ⟨line, hholds, -, rfl⟩ := h
  have hline := hholds.perm
  rw [hnone, List.map_map] at hline
  rw [List.map_eq_nil_iff.mp hline.nil_eq.symm]
  rfl

/-- Who is admitted waits behind the others, under their priority value. -/
theorem Standing.concat (h : m.Standing waiting) (hm : m.Sound [])
    (hpolicy : m.policy = .highestPriorityFirst) {block : Buddy.Block} {memory : Buddy}
    {ready : ReadyQueue} {journal : Journal}
    (hinsert : m.ready.insert (Scheduler.readyKey m.policy (.ofProcess p block))
      (m.table.insert (.ofProcess p block)).1 = .ok ready) :
    (m.withScheduler { m.toScheduler with
      memory := memory
      table := (m.table.insert (.ofProcess p block)).2
      ready := ready
      journal := journal }).Standing (waiting ++ [p]) := by
  have hothers : (m.withScheduler { m.toScheduler with
      memory := memory
      table := (m.table.insert (.ofProcess p block)).2
      journal := journal }).Standing waiting :=
    h.congr rfl fun s hs => hm.get?_insert_of_waiting _ hs
  obtain ⟨line, hholds, hfresh, rfl⟩ := hothers
  rw [hpolicy] at hinsert
  refine ⟨line ++ [((m.table.insert (.ofProcess p block)).1, p)], ?_, ?_, List.map_append⟩
  · rw [List.map_append]
    exact hholds.insert hinsert
  · exact List.forall_mem_append.mpr ⟨hfresh, List.forall_mem_singleton.mpr
      ⟨block, ProcessTable.get?_insert_self hm.scheduler.table _⟩⟩

/-- Whoever goes next is the first of the least of those who wait. -/
theorem Standing.take (h : m.Standing waiting) {next : Slot} {ready : ReadyQueue}
    (htake : m.ready.take? = some (next, ready)) :
    ∃ p earlier later, waiting = earlier ++ p :: later ∧ m.Fresh next p ∧
      (m.withReady ready).Standing (earlier ++ later) ∧ (∀ q ∈ earlier, p.priority < q.priority) ∧
      ∀ q ∈ later, p.priority ≤ q.priority := by
  obtain ⟨line, hholds, hfresh, rfl⟩ := h
  obtain ⟨k, before, after, hsplit, hrest, hbefore, hafter⟩ := hholds.take htake
  obtain ⟨earlier, rest, rfl, rfl, hrest'⟩ := List.map_eq_append_iff.mp hsplit
  obtain ⟨⟨s, p⟩, later, rfl, hpair, rfl⟩ := List.map_eq_cons_iff.mp hrest'
  obtain ⟨rfl, rfl⟩ := Prod.mk.inj hpair
  obtain ⟨hearlier, hlater⟩ := List.forall_mem_append.mp hfresh
  obtain ⟨hp, hlater⟩ := List.forall_mem_cons.mp hlater
  refine ⟨p, earlier.map Prod.snd, later.map Prod.snd, List.map_append, hp,
    ⟨earlier ++ later, List.map_append.symm ▸ hrest, List.forall_mem_append.mpr ⟨hearlier, hlater⟩,
      List.map_append⟩, ?_, ?_⟩
  · exact List.forall_mem_map.mpr fun x hx => List.forall_mem_map.mp hbefore x hx
  · exact List.forall_mem_map.mpr fun x hx => List.forall_mem_map.mp hafter x hx

/-- Those who have been admitted so far have been served, one after the other and each to its end, or have
the processor, or wait. -/
inductive Prefers (m : Machine) (admitted : Tick → List Process) (f g : Tick) (all waiting : List Process) :
    Prop
  | idle (served : List (Process × Tick)) (hrun : m.running = none)
      (houtline : m.journal.log.outline = Services.outline served)
      (hserved : Prioritized admitted served) (hall : (served.map Prod.fst ++ waiting).Perm all)
      (hfree : freeSince served ≤ g)
      (hwaited : ∀ t, freeSince served ≤ t → t < g → (served.map Prod.fst).Perm (admitted t)) :
      Prefers m admitted f g all waiting
  | busy (served : List (Process × Tick)) (p : Process) (start : Tick) (slot : Slot) (b : ControlBlock)
      (hrun : m.running = some slot) (hslot : m.table.get? slot = some b) (hid : b.id = p.id)
      (houtline : m.journal.log.outline = Services.outline served ++ [(.started, p.id, start)])
      (hserved : Prioritized admitted (served ++ [(p, start)]))
      (hall : (served.map Prod.fst ++ p :: waiting).Perm all)
      (hearly : start < f) (hleft : b.remaining + f = p.runTime + start + 1) :
      Prefers m admitted f g all waiting

/-! ## Reports -/

/-- **The reports of a tick bring the process that has the processor nearer to its end**, or to it. -/
theorem Prefers.reported (h : m.Prefers admitted tick tick all waiting) (hm : m.Sound [])
    (ht : m.Timely tick) {reports : List UnitReport} (hr : Reported m tick reports m') :
    m'.Prefers admitted (tick + 1) tick all waiting := by
  cases hr with
  | quiet hquiet =>
    cases h with
    | idle served hrun houtline hserved hall hfree hwaited =>
      exact .idle served hrun houtline hserved hall hfree hwaited
    | busy served p start slot b hrun hslot =>
      exact absurd (hrun.symm.trans (ht.running_eq_none hm hquiet)) (by simp)
  | progress slot b u c hrun hslot hunit hc hcounts hburnt =>
    obtain ⟨-, -, hheard, hpos⟩ := ht.running hm hrun hslot hunit hc
    cases h with
    | idle served hidle => exact absurd (hrun.symm.trans hidle) (by simp)
    | busy served p start slot' b' hrun' hslot' hid houtline hserved hall hearly hleft =>
      obtain rfl : slot = slot' := Option.some.inj (hrun.symm.trans hrun')
      obtain rfl : b = b' := Option.some.inj (hslot.symm.trans hslot')
      refine .busy served p start slot { b with remaining := c.remaining - 1 } hrun
        (ProcessTable.get?_set_self hslot _) hid houtline hserved hall
        (Nat.lt_succ_of_lt hearly) ?_
      show c.remaining - 1 + (tick + 1) = p.runTime + start + 1
      omega
  | finished slot b u c memory hrun hslot hunit hc hcounts hburnt =>
    obtain ⟨-, -, hheard, hpos⟩ := ht.running hm hrun hslot hunit hc
    cases h with
    | idle served hidle => exact absurd (hrun.symm.trans hidle) (by simp)
    | busy served p start slot' b' hrun' hslot' hid houtline hserved hall hearly hleft =>
      obtain rfl : slot = slot' := Option.some.inj (hrun.symm.trans hrun')
      obtain rfl : b = b' := Option.some.inj (hslot.symm.trans hslot')
      have hend : start + p.runTime = tick := by
        dsimp only [Tick] at *
        omega
      have hover : freeSince (served ++ [(p, start)]) = tick := (freeSince_concat ..).trans hend
      refine .idle (served ++ [(p, start)]) rfl ?_ hserved ?_ hover.le fun t hle hlt => ?_
      · rw [log_retired, EventLog.outline_extend, outline_concat, hend, ← hid]
        refine (congrArg (· ++ _) houtline).trans ?_
        rw [List.append_assoc, ← hid]
        rfl
      · rw [List.map_append, List.append_assoc]
        exact hall
      · exact absurd hlt (Nat.not_lt.mpr (hover ▸ hle))

theorem Standing.reported (h : m.Standing waiting) (hm : m.Sound []) {reports : List UnitReport}
    (hr : Reported m tick reports m') : m'.Standing waiting := by
  cases hr with
  | quiet hquiet => exact h
  | progress slot b u c hrun hslot hunit hc hcounts hleft =>
    exact h.congr rfl fun s hs => hm.get?_set_of_waiting hrun hslot _ hs
  | finished slot b u c memory hrun hslot hunit hc hcounts hleft =>
    exact h.congr rfl fun s hs => hm.get?_vacate_of_waiting hrun hslot hs

/-! ## Arrivals -/

/-- **Whoever enters waits behind the others.** -/
theorem Standing.arrival (h : m.Standing waiting) (hm : m.Sound [])
    (hpolicy : m.policy = .highestPriorityFirst) {admission : Admission} {x : Scheduler}
    (ha : m.toScheduler.Arrival tick p (.done admission x)) :
    (m.withScheduler x).Standing (waiting ++ admission.entrant p) := by
  cases ha with
  | rejected hpos hmemory => exact (List.append_nil waiting).symm ▸ h
  | admitted block memory ready hpos hmemory hready hperm hinsert => exact h.concat hm hpolicy hinsert

theorem Prefers.arrival (h : m.Prefers admitted f g all waiting) (hm : m.Sound [])
    {admission : Admission} {x : Scheduler} (ha : m.toScheduler.Arrival tick p (.done admission x)) :
    (m.withScheduler x).Prefers admitted f g (all ++ admission.entrant p)
      (waiting ++ admission.entrant p) := by
  have houtline' : (m.withScheduler x).journal.log.outline = m.journal.log.outline :=
    congrArg (List.map ProcessEvent.outline) (process_arrival ha)
  have hrun' : (m.withScheduler x).running = m.running := by cases ha <;> rfl
  have hlive : ∀ s d, m.table.get? s = some d → (m.withScheduler x).table.get? s = some d := by
    intro s d hd
    cases ha with
    | rejected hpos hmemory => exact hd
    | admitted block memory ready hpos hmemory hready hperm hinsert =>
      exact ProcessTable.get?_insert_of_live hm.scheduler.table hd _
  cases h with
  | idle served hrun houtline hserved hall hfree hwaited =>
    refine .idle served (hrun'.trans hrun) (houtline'.trans houtline) hserved ?_ hfree hwaited
    rw [← List.append_assoc]
    exact hall.append_right _
  | busy served q start slot b hrun hslot hid houtline hserved hall hearly hleft =>
    refine .busy served q start slot b (hrun'.trans hrun) (hlive slot b hslot) hid
      (houtline'.trans houtline) hserved ?_ hearly hleft
    rw [← List.cons_append, ← List.append_assoc]
    exact hall.append_right _

/-! ## Dispatch -/

/-- Where nobody gets the processor, everybody stays where they are. -/
theorem Prefers.still (h : m.Prefers admitted (tick + 1) tick all waiting) (htwins : m.Twins m')
    (hlog : m'.journal.log = m.journal.log) (hall : admitted tick = all)
    (hstill : m.running = none → waiting = []) :
    m'.Prefers admitted (tick + 1) (tick + 1) all waiting := by
  cases h with
  | idle served hrun houtline hserved hperm hfree hwaited =>
    refine .idle served (htwins.running.trans hrun) (hlog ▸ houtline) hserved hperm
      (hfree.trans (Nat.le_succ tick)) fun t hle hlt => ?_
    rcases Nat.lt_succ_iff_lt_or_eq.mp hlt with hlt | rfl
    · exact hwaited t hle hlt
    · obtain rfl := hstill hrun
      rw [List.append_nil] at hperm
      exact hall ▸ hperm
  | busy served p start slot b hrun hslot hid houtline hserved hperm hearly hleft =>
    exact .busy served p start slot b (htwins.running.trans hrun) (htwins.table ▸ hslot) hid
      (hlog ▸ houtline) hserved hperm hearly hleft

/-- The first of the least of those who wait gets the free processor. -/
theorem Prefers.launch (h : m.Prefers admitted (tick + 1) tick all waiting)
    (hstanding : m.Standing waiting) (hall : admitted tick = all) (hsublist : waiting.Sublist all)
    (hrun : m.running = none) {next : Slot} {ready : ReadyQueue} {m₁ : Machine}
    (htake : m.ready.take? = some (next, ready)) (hheld : (m.withReady ready).Sound [next])
    (hbound : Bound (m.withReady ready) tick next m₁) (ha : Alike m₁ m') :
    ∃ waiting', m'.Prefers admitted (tick + 1) (tick + 1) all waiting' ∧ m'.Standing waiting' ∧
      waiting'.Sublist all := by
  obtain ⟨p, earlier, later, rfl, ⟨block, hslot⟩, hrest, hearlier, hlater⟩ := hstanding.take htake
  cases h with
  | busy served p start slot b hrun' => exact absurd (hrun'.symm.trans hrun) (by simp)
  | idle served hidle houtline hserved hperm' hfree hwaited =>
    have hchosen : Chosen admitted served p tick :=
      ⟨hfree, hwaited, earlier, later, hall ▸ hsublist, hall ▸ hperm', hearlier, hlater⟩
    obtain rfl := hbound.first (m := m.withReady ready) hslot rfl
    have hlog : m'.journal.log.outline = m.journal.log.outline ++ [(.started, p.id, tick)] := by
      rw [ha.log, log_launch, EventLog.outline_extend]
      rfl
    refine ⟨earlier ++ later, .busy served p tick next
      ((ControlBlock.ofProcess p block).started tick m.units.next) ha.running ?_ rfl ?_
      (hserved.concat hchosen) ?_ (Nat.lt_succ_self tick) rfl, ?_, ?_⟩
    · rw [ha.table]
      exact ProcessTable.get?_set_self hslot _
    · rw [hlog, houtline]
    · exact (List.perm_middle.symm.append_left _).trans hperm'
    · refine hrest.congr ha.ready fun s hs => ?_
      rw [ha.table]
      exact ProcessTable.get?_set_of_ne hslot _ fun heq => hheld.held_notMem hrun (heq ▸ hs)
    · exact ((List.Sublist.refl earlier).append (List.sublist_cons_self p later)).trans hsublist

/-- **The end of a tick gives the free processor to the first of the least**, and takes it from nobody. -/
theorem Prefers.turn (h : m.Prefers admitted (tick + 1) tick all waiting) (hstanding : m.Standing waiting)
    (hm : m.Sound []) (ht : m.Timely f) (hpolicy : m.policy = .highestPriorityFirst)
    (hall : admitted tick = all) (hsublist : waiting.Sublist all) (hturn : Turn m tick m') :
    ∃ waiting', m'.Prefers admitted (tick + 1) (tick + 1) all waiting' ∧ m'.Standing waiting' ∧
      waiting'.Sublist all := by
  cases hturn with
  | idle hnone ha hslice =>
    refine ⟨waiting, h.still ha.twins ha.log hall fun _ => hstanding.eq_nil hnone, ?_, hsublist⟩
    exact hstanding.congr ha.ready fun s _ => by rw [ha.table]
  | kept slot b u c hrun hslot hunit hc ha hdecide hslice =>
    obtain ⟨-, -, hheard, -⟩ := ht.running hm hrun hslot hunit hc
    have htable : m'.table = m.table := by
      refine ha.table.trans ?_
      rw [hheard]
      exact ProcessTable.set_self hslot
    refine ⟨waiting, h.still ⟨htable, ha.memory, ha.running, ha.units⟩ ha.log hall fun hnone =>
      absurd (hrun.symm.trans hnone) (by simp), ?_, hsublist⟩
    exact hstanding.congr ha.ready fun s _ => by rw [htable]
  | swapped slot b u c next ready ready' m₁ hrun hslot hunit hc hperm hperm' hheld hbound ha hdecide =>
    have hkeep : ((m.hear slot b c.remaining).decide tick (some c.remaining)).1 = .keep :=
      decide_eq_keep (fun hother => absurd (hpolicy.symm.trans hother) (by simp))
        fun _ hother => absurd (hpolicy.symm.trans hother) (by simp)
    exact absurd (hkeep.symm.trans hdecide) (by simp)
  | launched next ready m₁ hrun hperm hheld hbound ha htake hslice =>
    exact h.launch hstanding hall hsublist hrun htake hheld hbound ha

end Machine
end Uniprocessor
