import Uniprocessor.Proofs.Journal.Timetable
import Uniprocessor.Proofs.Machine.Twins
import Uniprocessor.Proofs.Ready.Line

/-!
# Policies that make no difference

A policy looks at one thing only: priorities, run times, or how long a turn lasts.  Where the
processes do not differ in that, it serves them in the order they are admitted, each to its end.

* they wait in line, since their keys are equal or there are none;
* nobody is displaced: not by a process of equal priority, nor by one of equal run time, which has
  no less to go than one that has begun; and a turn that is no shorter than a run time is not used
  up before the process has finished, since a process burns a tick for every contended tick of its
  turn.

Who has come and gone is then on a timetable, and the process that has the processor is the next one
on it.  The times `f` and `g` are the tick that comes next for the running process, and the tick
that comes next for a dispatch; they differ between the reports of a tick and its end.

* `Policy.Impartial`: a policy that makes no difference among the processes of a list;
* `Machine.Attends`: the processes that were admitted are served in their order;
* `Attends.reported`, `Attends.arrival`, `Attends.turn`: **the parts of a tick keep to it.**
-/

namespace Uniprocessor

namespace Policy

/-- A policy that makes no difference among the processes of a list. -/
def Impartial (policy : Policy) (ps : List Process) : Prop :=
  match policy with
  | highestPriorityFirst => ∀ p ∈ ps, ∀ q ∈ ps, p.priority = q.priority
  | shortestRemainingTimeNext => ∀ p ∈ ps, ∀ q ∈ ps, p.runTime = q.runTime
  | roundRobin quantum => ∀ p ∈ ps, p.runTime ≤ quantum

instance (policy : Policy) (ps : List Process) : Decidable (policy.Impartial ps) := by
  unfold Impartial
  split <;> infer_instance

/-- What a policy that makes no difference takes a process for: one with a key, whose run is no
longer than a turn. -/
def Rates (policy : Policy) (key : Nat) (p : Process) : Prop :=
  match policy with
  | highestPriorityFirst => p.priority = key
  | shortestRemainingTimeNext => p.runTime = key
  | roundRobin quantum => key = 0 ∧ p.runTime ≤ quantum

theorem Impartial.exists_key {policy : Policy} {ps : List Process} (h : policy.Impartial ps) :
    ∃ key, ∀ p ∈ ps, policy.Rates key p := by
  cases policy with
  | roundRobin quantum => exact ⟨0, fun p hp => ⟨rfl, h p hp⟩⟩
  | highestPriorityFirst =>
    cases ps with
    | nil => exact ⟨0, fun _ hp => absurd hp List.not_mem_nil⟩
    | cons q ps => exact ⟨q.priority, fun p hp => h p hp q List.mem_cons_self⟩
  | shortestRemainingTimeNext =>
    cases ps with
    | nil => exact ⟨0, fun _ hp => absurd hp List.not_mem_nil⟩
    | cons q ps => exact ⟨q.runTime, fun p hp => h p hp q List.mem_cons_self⟩

theorem Rates.readyKey_eq {policy : Policy} {key : Nat} {p : Process} (h : policy.Rates key p)
    (block : Buddy.Block) : Scheduler.readyKey policy (.ofProcess p block) = key := by
  cases policy with
  | highestPriorityFirst => exact h
  | shortestRemainingTimeNext => exact h
  | roundRobin quantum => exact h.1.symm

end Policy

namespace ProcessTable

/-- The slot of a new process does not depend on the process. -/
theorem fst_insert (t : ProcessTable) (b b' : ControlBlock) : (t.insert b).1 = (t.insert b').1 := by
  cases hvacant : t.vacant with
  | nil => rw [insert_fresh hvacant, insert_fresh hvacant]
  | cons slot rest => rw [insert_vacant hvacant, insert_vacant hvacant]

end ProcessTable

namespace Machine

variable {m m' n n' : Machine} {key : Nat} {admitted waiting : List Process} {line line' : List Slot}
  {slot : Slot} {b : ControlBlock} {tick f g : Tick} {p : Process}

/-- A process that was admitted, and has not been given the processor yet. -/
def Fresh (m : Machine) (slot : Slot) (p : Process) : Prop :=
  ∃ block, m.table.get? slot = some (.ofProcess p block)

/-- The processes `waiting` are in line, in the slots `line`. -/
structure Lined (m : Machine) (key : Nat) (waiting : List Process) (line : List Slot) (g : Tick) :
    Prop where
  queued : m.ready.Line key line
  fresh : List.Forall₂ m.Fresh line waiting
  rated : ∀ p ∈ waiting, m.policy.Rates key p
  arrived : ∀ p ∈ waiting, p.arrival ≤ g

/-- The processes that were admitted are served in their order, each from the time when it has come
and the one before it has gone. -/
inductive Attends (m : Machine) (key : Nat) (f g : Tick) : List Process → List Slot → Prop
  | idle (served waiting : List Process) (line : List Slot) (hrun : m.running = none)
      (hlined : m.Lined key waiting line g)
      (houtline : m.journal.log.outline = timetable 0 served)
      (hadmitted : m.journal.log.admitted = (served ++ waiting).map Process.id)
      (hfree : freeAfter 0 served ≤ g)
      (hnext : ∀ p ∈ waiting, max p.arrival (freeAfter 0 served) = g) :
      Attends m key f g (served ++ waiting) line
  | busy (served : List Process) (p : Process) (waiting : List Process) (line : List Slot)
      (start : Tick) (slot : Slot) (b : ControlBlock) (hrun : m.running = some slot)
      (hslot : m.table.get? slot = some b) (hid : b.id = p.id)
      (hlined : m.Lined key waiting line g) (hrated : m.policy.Rates key p)
      (hstart : max p.arrival (freeAfter 0 served) = start)
      (houtline : m.journal.log.outline = timetable 0 served ++ [(.started, p.id, start)])
      (hadmitted : m.journal.log.admitted = (served ++ p :: waiting).map Process.id)
      (hearly : start < f) (hleft : b.remaining + f = p.runTime + start + 1)
      (hslice : ∀ quantum, m.policy = .roundRobin quantum → b.remaining + f ≤ m.sliceLeft + g) :
      Attends m key f g (served ++ p :: waiting) line

/-! ## In line -/

theorem Lined.nil_of_ready (h : m.Lined key waiting line g) (hnone : m.ready.toList = []) :
    waiting = [] ∧ line = [] := by
  have hline := h.queued.perm
  rw [hnone] at hline
  obtain rfl := hline.nil_eq
  exact ⟨List.forall₂_nil_left_iff.mp h.fresh, rfl⟩

/-- What happens to those who are not in line does not matter to those who are. -/
theorem Lined.congr (h : m.Lined key waiting line g) (hready : m'.ready = m.ready)
    (hpolicy : m'.policy = m.policy) (hg : g ≤ f)
    (hsame : ∀ s ∈ m.ready.toList, m'.table.get? s = m.table.get? s) :
    m'.Lined key waiting line f := by
  obtain ⟨hlength, hfresh⟩ := List.forall₂_iff_zip.mp h.fresh
  refine ⟨hready ▸ h.queued, List.forall₂_iff_zip.mpr ⟨hlength, fun {s p} hmem => ?_⟩,
    hpolicy ▸ h.rated, fun p hp => (h.arrived p hp).trans hg⟩
  obtain ⟨block, hs⟩ := hfresh hmem
  have hline := h.queued.perm.symm.subset (List.of_mem_zip hmem).1
  exact ⟨block, (hsame s hline).trans hs⟩

/-- Who is admitted goes to the end of the line. -/
theorem Lined.concat (h : m.Lined key waiting line g) (hm : m.Sound [])
    (hrated : m.policy.Rates key p) (harrival : p.arrival ≤ g) {block : Buddy.Block} {memory : Buddy}
    {ready : ReadyQueue} {journal : Journal}
    (hinsert : m.ready.insert (Scheduler.readyKey m.policy (.ofProcess p block))
      (m.table.insert (.ofProcess p block)).1 = .ok ready) :
    (m.withScheduler { m.toScheduler with
      memory := memory
      table := (m.table.insert (.ofProcess p block)).2
      ready := ready
      journal := journal }).Lined key (waiting ++ [p])
        (line ++ [(m.table.insert (.ofProcess p block)).1]) g := by
  have hothers : (m.withScheduler { m.toScheduler with
      memory := memory
      table := (m.table.insert (.ofProcess p block)).2
      journal := journal }).Lined key waiting line g :=
    h.congr rfl rfl (Nat.le_refl g) fun s hs => hm.get?_insert_of_waiting _ hs
  rw [hrated.readyKey_eq] at hinsert
  refine ⟨h.queued.insert hm.scheduler.ready hinsert, ?_, ?_, ?_⟩
  · refine List.rel_append hothers.fresh (.cons ⟨block, ?_⟩ .nil)
    exact ProcessTable.get?_insert_self hm.scheduler.table _
  · exact List.forall_mem_append.mpr ⟨h.rated, List.forall_mem_singleton.mpr hrated⟩
  · exact List.forall_mem_append.mpr ⟨h.arrived, List.forall_mem_singleton.mpr harrival⟩

/-! ## Reports -/

/-- The running process burns a tick. -/
theorem Attends.burnt (h : m.Attends key tick tick admitted line) (hm : m.Sound [])
    (ht : m.Timely tick) (hrun : m.running = some slot) (hslot : m.table.get? slot = some b)
    {u : UnitId} (hunit : b.unit = some u) {c : Countdown} (hc : m.units.find? u = some c) :
    ((m.advance tick).2.hear slot b (c.remaining - 1)).Attends key (tick + 1) tick admitted line := by
  obtain ⟨-, -, hheard, hpos⟩ := ht.running hm hrun hslot hunit hc
  cases h with
  | idle served waiting line hidle => exact absurd (hrun.symm.trans hidle) (by simp)
  | busy served p waiting line start slot' b' hrun' hslot' hid hlined hrated hstart houtline hadmitted
      hearly hleft hslice =>
    obtain rfl : slot = slot' := Option.some.inj (hrun.symm.trans hrun')
    obtain rfl : b = b' := Option.some.inj (hslot.symm.trans hslot')
    refine .busy served p waiting line start slot { b with remaining := c.remaining - 1 } hrun
      (ProcessTable.get?_set_self hslot _) hid ?_ hrated hstart houtline hadmitted
      (Nat.lt_succ_of_lt hearly) ?_ fun quantum hpolicy => ?_
    · exact hlined.congr rfl rfl (Nat.le_refl _) fun s hs =>
        hm.get?_set_of_waiting hrun hslot _ hs
    · show c.remaining - 1 + (tick + 1) = p.runTime + start + 1
      omega
    · have hturn := hslice quantum hpolicy
      show c.remaining - 1 + (tick + 1) ≤ m.sliceLeft + tick
      omega

/-- The running process is at its end. -/
theorem Attends.retired (h : m.Attends key tick tick admitted line) (hm : m.Sound [])
    (ht : m.Timely tick) (hrun : m.running = some slot) (hslot : m.table.get? slot = some b)
    {u : UnitId} (hunit : b.unit = some u) {c : Countdown} (hc : m.units.find? u = some c)
    (hburnt : c.remaining - 1 = 0) (memory : Buddy) :
    ((m.advance tick).2.retired tick slot b u memory).Attends key (tick + 1) tick admitted line := by
  obtain ⟨-, -, hheard, hpos⟩ := ht.running hm hrun hslot hunit hc
  have hlog := log_retired (m.advance tick).2 tick slot b u memory
  cases h with
  | idle served waiting line hidle => exact absurd (hrun.symm.trans hidle) (by simp)
  | busy served p waiting line start slot' b' hrun' hslot' hid hlined hrated hstart houtline hadmitted
      hearly hleft hslice =>
    obtain rfl : slot = slot' := Option.some.inj (hrun.symm.trans hrun')
    obtain rfl : b = b' := Option.some.inj (hslot.symm.trans hslot')
    have hend : freeAfter 0 (served ++ [p]) = tick := by
      rw [freeAfter_concat, hstart]
      dsimp only [Tick] at *
      omega
    have hall : served ++ p :: waiting = (served ++ [p]) ++ waiting := by simp
    rw [hall]
    refine .idle (served ++ [p]) waiting line rfl ?_ ?_ ?_ hend.le fun q hq => ?_
    · exact hlined.congr rfl rfl (Nat.le_refl _) fun s hs =>
        hm.get?_vacate_of_waiting hrun hslot hs
    · rw [hlog, EventLog.outline_extend, timetable_concat, hstart]
      refine (congrArg (· ++ _) houtline).trans ?_
      rw [List.append_assoc, ← hid, ← hend, freeAfter_concat, hstart]
      rfl
    · rw [hlog, EventLog.admitted_extend, ← hall]
      exact (List.append_nil _).trans hadmitted
    · rw [hend]
      exact Nat.max_eq_right (hlined.arrived q hq)

/-- **The reports of a tick bring the process that has the processor nearer to its end**, or to it.
-/
theorem Attends.reported (h : m.Attends key tick tick admitted line) (hm : m.Sound [])
    (ht : m.Timely tick) {reports : List UnitReport} (hr : Reported m tick reports m') :
    m'.Attends key (tick + 1) tick admitted line := by
  cases hr with
  | progress slot b u c hrun hslot hunit hc => exact h.burnt hm ht hrun hslot hunit hc
  | finished slot b u c memory hrun hslot hunit hc hcounts hburnt =>
    exact h.retired hm ht hrun hslot hunit hc hburnt memory
  | quiet hquiet =>
    cases h with
    | idle served waiting line hrun hlined houtline hadmitted hfree hnext =>
      exact .idle served waiting line hrun ⟨hlined.queued, hlined.fresh, hlined.rated, hlined.arrived⟩
        houtline hadmitted hfree hnext
    | busy served p waiting line start slot b hrun hslot =>
      exact absurd (hrun.symm.trans (ht.running_eq_none hm hquiet)) (by simp)

/-! ## Arrivals -/

/-- A rejection is no matter of those who were admitted. -/
theorem Attends.reject (h : m.Attends key f g admitted line) (tick : Tick) (p : Process) :
    (m.withScheduler (m.reject tick p)).Attends key f g admitted line := by
  have hlog := (noted_rejected m tick p).log
  have hsame : (m.withScheduler (m.reject tick p)).journal.log.outline = m.journal.log.outline ∧
      (m.withScheduler (m.reject tick p)).journal.log.admitted = m.journal.log.admitted := by
    rw [hlog, EventLog.outline_extend, EventLog.admitted_extend]
    exact ⟨List.append_nil _, List.append_nil _⟩
  cases h with
  | idle served waiting line hrun hlined houtline hadmitted hfree hnext =>
    exact .idle served waiting line hrun
      (hlined.congr rfl rfl (Nat.le_refl _) fun _ _ => rfl) (hsame.1.trans houtline)
      (hsame.2.trans hadmitted) hfree hnext
  | busy served q waiting line start slot b hrun hslot hid hlined hrated hstart houtline hadmitted
      hearly hleft hslice =>
    exact .busy served q waiting line start slot b hrun hslot hid
      (hlined.congr rfl rfl (Nat.le_refl _) fun _ _ => rfl) hrated hstart (hsame.1.trans houtline)
      (hsame.2.trans hadmitted) hearly hleft hslice

/-- **An arrival goes to the end of the line**, or is rejected. -/
theorem Attends.arrival (h : m.Attends key (tick + 1) tick admitted line) (hm : m.Sound [])
    (hrated : m.policy.Rates key p) (harrival : p.arrival = tick) {admission : Admission}
    {s : Scheduler} (ha : m.toScheduler.Arrival tick p (.done admission s)) :
    (admission = .rejected p.id ∧ (m.withScheduler s).Attends key (tick + 1) tick admitted line) ∨
      ∃ block : Buddy.Block, admission = .admitted p.id block.range ∧
        (m.withScheduler s).Attends key (tick + 1) tick (admitted ++ [p])
          (line ++ [(m.table.insert (.ofProcess p block)).1]) := by
  cases ha with
  | rejected hpos hmemory => exact Or.inl ⟨rfl, h.reject tick p⟩
  | admitted block memory ready hpos hmemory hready hperm hinsert =>
    have hlog := (noted_admitted m tick p block memory
      (m.table.insert (.ofProcess p block)).2 ready).log
    have hlive := hm.scheduler.table
    refine Or.inr ⟨block, rfl, ?_⟩
    cases h with
    | idle served waiting line hrun hlined houtline hadmitted hfree hnext =>
      rw [List.append_assoc]
      refine .idle served (waiting ++ [p]) _ hrun (hlined.concat hm hrated harrival.le hinsert) ?_ ?_
        hfree (List.forall_mem_append.mpr ⟨hnext, List.forall_mem_singleton.mpr ?_⟩)
      · rw [hlog, EventLog.outline_extend]
        exact (List.append_nil _).trans houtline
      · rw [hlog, EventLog.admitted_extend_allocated, hadmitted]
        simp
      · rw [harrival]
        exact Nat.max_eq_left hfree
    | busy served q waiting line start slot b hrun hslot hid hlined hrated' hstart houtline hadmitted
        hearly hleft hslice =>
      rw [List.append_assoc, List.cons_append]
      refine .busy served q (waiting ++ [p]) _ start slot b hrun
        (ProcessTable.get?_insert_of_live hlive hslot _) hid
        (hlined.concat hm hrated harrival.le hinsert) hrated' hstart ?_ ?_ hearly hleft hslice
      · rw [hlog, EventLog.outline_extend]
        exact (List.append_nil _).trans houtline
      · rw [hlog, EventLog.admitted_extend_allocated, hadmitted]
        simp

/-! ## Dispatch -/

/-- Nobody is displaced by a process with as much to go, and no turn is over before it is used up.
-/
theorem decide_eq_keep {left : Nat}
    (hshortest : m.policy = .shortestRemainingTimeNext → ∀ k, m.ready.leastKey? = some k → left ≤ k)
    (hround : ∀ quantum, m.policy = .roundRobin quantum → 1 < m.sliceLeft) :
    (m.decide tick (some left)).1 = .keep := by
  unfold Scheduler.decide
  simp only []
  cases hpolicy : m.policy with
  | highestPriorityFirst => rfl
  | roundRobin quantum =>
    have hslice := hround quantum hpolicy
    exact if_pos (Nat.sub_pos_of_lt hslice)
  | shortestRemainingTimeNext =>
    cases hleast : m.ready.leastKey? with
    | none => rfl
    | some needed =>
      simp only []
      rw [if_neg (Nat.not_lt.mpr (hshortest hpolicy needed hleast))]

/-- A decision uses up at most one tick of a turn. -/
theorem sliceLeft_decide_le (m : Machine) (tick : Tick) (left : Option Nat) :
    m.sliceLeft ≤ (m.decide tick left).2.sliceLeft + 1 := by
  unfold Scheduler.decide
  split
  · exact Nat.le_succ _
  · split
    · exact Nat.le_succ _
    · split
      · exact Nat.le_succ _
      · split <;> exact Nat.le_succ _
    · exact Nat.le_add_of_sub_le (Nat.le_refl _)

/-- What the end of a tick comes to where nobody is displaced: everything stays as it is; or the
first process in line gets the free processor. -/
inductive Dispatched (m : Machine) (tick : Tick) : List Slot → Machine → List Slot → Prop
  | still (line : List Slot) (m' : Machine) (htwins : m.Twins m')
      (hlog : m'.journal.log = m.journal.log) (hstill : m.running = none → line = []) :
      Dispatched m tick line m' line
  | launched (slot : Slot) (line : List Slot) (ready : ReadyQueue) (m₁ m' : Machine)
      (hrun : m.running = none) (hbound : Bound (m.withReady ready) tick slot m₁)
      (ha : Alike m₁ m') : Dispatched m tick (slot :: line) m' line

/-- The running process is left alone. -/
theorem Attends.decide_keep (h : m.Attends key (tick + 1) tick admitted line) (hm : m.Sound [])
    (ht : m.Timely (tick + 1)) (hrun : m.running = some slot) (hslot : m.table.get? slot = some b)
    {u : UnitId} (hunit : b.unit = some u) {c : Countdown} (hc : m.units.find? u = some c) :
    ((m.hear slot b c.remaining).decide tick (some c.remaining)).1 = .keep := by
  obtain ⟨-, -, hheard, hpos⟩ := ht.running hm hrun hslot hunit hc
  cases h with
  | idle served waiting line hidle => exact absurd (hrun.symm.trans hidle) (by simp)
  | busy served p waiting line start slot' b' hrun' hslot' hid hlined hrated hstart houtline
      hadmitted hearly hleft hslice =>
    obtain rfl : slot = slot' := Option.some.inj (hrun.symm.trans hrun')
    obtain rfl : b = b' := Option.some.inj (hslot.symm.trans hslot')
    refine decide_eq_keep (fun hshortest k hleast => ?_) fun quantum hround => ?_
    · -- all run times are the key, and the running process has burnt some of its own
      have hkey := hlined.queued.leastKey_eq hleast
      have hlong : p.runTime = key := by
        rw [show m.policy = .shortestRemainingTimeNext from hshortest] at hrated
        exact hrated
      dsimp only [Tick] at *
      omega
    · have hturn := hslice quantum hround
      show 1 < m.sliceLeft
      omega

/-- Where nobody gets the processor, everybody stays where they are. -/
theorem Attends.still (h : m.Attends key (tick + 1) tick admitted line) (htwins : m.Twins m')
    (hready : m'.ready = m.ready) (hlog : m'.journal.log = m.journal.log)
    (hpolicy : m'.policy = m.policy) (hslice : m.sliceLeft ≤ m'.sliceLeft + 1)
    (hstill : m.running = none → line = []) :
    m'.Attends key (tick + 1) (tick + 1) admitted line := by
  have hlined : ∀ {waiting}, m.Lined key waiting line tick →
      m'.Lined key waiting line (tick + 1) := fun hlined =>
    hlined.congr hready hpolicy (Nat.le_succ tick) fun s _ => by rw [htwins.table]
  cases h with
  | idle served waiting line hrun hlined' houtline hadmitted hfree hnext =>
    obtain rfl := hstill hrun
    obtain rfl := List.forall₂_nil_left_iff.mp hlined'.fresh
    exact .idle served [] [] (htwins.running.trans hrun) (hlined hlined') (hlog ▸ houtline)
      (hlog ▸ hadmitted) (hfree.trans (Nat.le_succ tick)) fun _ hp => absurd hp List.not_mem_nil
  | busy served p waiting line start slot b hrun hslot hid hlined' hrated hstart houtline hadmitted
      hearly hleft hturn =>
    refine .busy served p waiting line start slot b (htwins.running.trans hrun)
      (htwins.table ▸ hslot) hid (hlined hlined') (hpolicy ▸ hrated) hstart (hlog ▸ houtline)
      (hlog ▸ hadmitted) hearly hleft fun quantum hround => ?_
    have hbefore := hturn quantum (hpolicy.symm.trans hround)
    omega

/-- The first process in line gets the free processor. -/
theorem Attends.launch (h : m.Attends key (tick + 1) tick admitted line) (hm : m.Sound [])
    (hrun : m.running = none) {next : Slot} {ready : ReadyQueue} {m₁ : Machine}
    (htake : m.ready.take? = some (next, ready)) (hheld : (m.withReady ready).Sound [next])
    (hbound : Bound (m.withReady ready) tick next m₁) (ha : Alike m₁ m')
    (hpolicy : m'.policy = m.policy)
    (hslice : ∀ quantum, m.policy = .roundRobin quantum → m'.sliceLeft = quantum) :
    ∃ rest, m'.Attends key (tick + 1) (tick + 1) admitted rest ∧ Dispatched m tick line m' rest := by
  cases h with
  | busy served p waiting line start slot b hrun' => exact absurd (hrun'.symm.trans hrun) (by simp)
  | idle served waiting line hidle hlined houtline hadmitted hfree hnext =>
    obtain ⟨rest, rfl, hrest⟩ := hlined.queued.take hm.scheduler.ready htake
    obtain ⟨p, ws, ⟨block, hslot⟩, hfresh, rfl⟩ := List.forall₂_cons_left_iff.mp hlined.fresh
    obtain ⟨hrated, hrated'⟩ := List.forall_mem_cons.mp hlined.rated
    have hdispatched : Dispatched m tick (next :: rest) m' rest :=
      .launched next rest ready m₁ m' hrun hbound ha
    obtain rfl := hbound.first (m := m.withReady ready) hslot rfl
    have hlog : m'.journal.log = m.journal.log.extend _ [] := ha.log.trans (log_launch ..)
    have hlined' : m'.Lined key ws rest (tick + 1) := by
      have htaken : (m.withReady ready).Lined key ws rest tick :=
        ⟨hrest, hfresh, hrated', fun q hq => hlined.arrived q (List.mem_cons_of_mem p hq)⟩
      refine htaken.congr ha.ready hpolicy (Nat.le_succ tick) fun s hs => ?_
      rw [ha.table]
      exact ProcessTable.get?_set_of_ne hslot _ fun heq => hheld.held_notMem hrun (heq ▸ hs)
    refine ⟨rest, .busy served p ws rest tick next
      ((ControlBlock.ofProcess p block).started tick m.units.next) ha.running ?_ rfl hlined'
      (hpolicy ▸ hrated) (hnext p List.mem_cons_self) ?_ ?_ (Nat.lt_succ_self tick) rfl
      fun quantum hround => ?_, hdispatched⟩
    · rw [ha.table]
      exact ProcessTable.get?_set_self hslot _
    · rw [hlog, EventLog.outline_extend, houtline]
      rfl
    · rw [hlog, EventLog.admitted_extend_process, hadmitted]
    · have hround' := hpolicy.symm.trans hround
      rw [hround'] at hrated
      rw [hslice quantum hround']
      exact Nat.add_le_add_right hrated.2 _

/-- **The end of a tick gives the free processor to the first process in line**, and takes it from
nobody. -/
theorem Attends.turn (h : m.Attends key (tick + 1) tick admitted line) (hm : m.Sound [])
    (ht : m.Timely (tick + 1)) (hturn : Turn m tick m') (hpolicy : m'.policy = m.policy) :
    ∃ line', m'.Attends key (tick + 1) (tick + 1) admitted line' ∧
      Dispatched m tick line m' line' := by
  cases hturn with
  | idle hnone ha hslice =>
    have hstill : m.running = none → line = [] := by
      intro hrun
      cases h with
      | idle served waiting line hrun' hlined => exact (hlined.nil_of_ready hnone).2
      | busy served p waiting line start slot b hrun' =>
        exact absurd (hrun'.symm.trans hrun) (by simp)
    exact ⟨line, h.still ha.twins ha.ready ha.log hpolicy (hslice ▸ Nat.le_succ _) hstill,
      .still line m' ha.twins ha.log hstill⟩
  | kept slot b u c hrun hslot hunit hc ha hdecide hslice =>
    obtain ⟨-, -, hheard, -⟩ := ht.running hm hrun hslot hunit hc
    have htwins : m.Twins m' := by
      refine ⟨ha.table.trans ?_, ha.memory, ha.running, ha.units⟩
      rw [hheard]
      exact ProcessTable.set_self hslot
    have hstill : m.running = none → line = [] := fun hnone =>
      absurd (hrun.symm.trans hnone) (by simp)
    have hturn := sliceLeft_decide_le (m.hear slot b c.remaining) tick (some c.remaining)
    exact ⟨line, h.still htwins ha.ready ha.log hpolicy (hslice ▸ hturn) hstill,
      .still line m' htwins ha.log hstill⟩
  | launched next ready m₁ hrun hperm hheld hbound ha htake hslice =>
    exact h.launch hm hrun htake hheld hbound ha hpolicy hslice
  | swapped slot b u c next ready ready' m₁ hrun hslot hunit hc hperm hperm' hheld hbound ha
      hdecide =>
    rw [h.decide_keep hm ht hrun hslot hunit hc] at hdecide
    exact absurd hdecide (by simp)

/-- Two machines with the same processes in the same line come to the same. -/
theorem Twins.dispatched (h : m.Twins n) {line₁ line₂ : List Slot}
    (hm : Dispatched m tick line m' line₁) (hn : Dispatched n tick line n' line₂) :
    line₂ = line₁ ∧ m'.Twins n' ∧ ∃ es, m'.journal.log = m.journal.log.extend es [] ∧
      n'.journal.log = n.journal.log.extend es [] := by
  cases hm with
  | still line m' htwins hlog hstill =>
    cases hn with
    | still line n' htwins' hlog' =>
      exact ⟨rfl, (htwins.symm.trans h).trans htwins', [],
        hlog.trans (EventLog.extend_nil _).symm, hlog'.trans (EventLog.extend_nil _).symm⟩
    | launched slot line ready n₁ n' hrun => exact absurd (hstill (h.running ▸ hrun)) (by simp)
  | launched slot line ready m₁ m' hrun hbound ha =>
    cases hn with
    | still line n' htwins' hlog' hstill => exact absurd (hstill (h.running.trans hrun)) (by simp)
    | launched slot line ready' n₁ n' hrun' hbound' ha' =>
      obtain ⟨htwins, es, hlog, hlog'⟩ := (h.withReady ready ready').bound hbound hbound'
      exact ⟨rfl, (ha.twins.symm.trans htwins).trans ha'.twins, es, ha.log.trans hlog,
        ha'.log.trans hlog'⟩

end Machine
end Uniprocessor
