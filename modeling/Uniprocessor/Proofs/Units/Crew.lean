import Uniprocessor.Proofs.Clock.Basic
import Uniprocessor.Proofs.Units.Countdown
import Uniprocessor.Units.Thread

/-!
# Crews as pools

A unit on a thread is behind: there are commands and ticks that it has been sent and has not taken.
What counts is what it is once it has taken them all, first the commands and then the ticks.  Seen
like this a crew is a pool of units that answer at once (`Crew.pool`), and to the reports that it has
sent come those that it still will (`Crew.coming`).

A thread may take from either of its sources at any time.  That the pool does not depend on what it
takes first is due to an order in which the caller deals with it: a command is only sent to a unit
whose ticks bring no report, before the command or after it, and its answer is awaited before
anything else happens to the unit.  This order is
`Crew.Orderly`, where an *errand* is the unit and the command whose answer is awaited.

* `UnitThread.settled`, `Crew.pool`, `Crew.coming`: the view of a crew as a pool;
* `Crew.Orderly`: the order;
* `Crew.Orderly.step`: **no step of a unit changes the pool or the reports to come.**
-/

namespace Uniprocessor

/-- A unit and a command it has been sent, whose answer is awaited. -/
abbrev Errand := Option (UnitId × UnitCommand)

namespace UnitThread

/-- What a unit is once it has taken all the commands it has been sent. -/
def commanded (t : UnitThread) : Countdown :=
  t.commands.foldl (fun c x => (c.onCommand x).2) t.countdown

/-- What a unit is once it has taken all it has been sent. -/
def settled (clock : Clock) (t : UnitThread) : Countdown :=
  t.commanded.after (clock.queue t.mailbox)

/-- The reports that a unit will send for the ticks it has been sent. -/
def coming (clock : Clock) (t : UnitThread) : List UnitReport :=
  t.commanded.reportsOf (clock.queue t.mailbox)

/-- What a unit still has to deal with; a command leads to an answer. -/
def load (clock : Clock) (t : UnitThread) : Nat :=
  2 * t.commands.length + t.acks.length + (clock.queue t.mailbox).length

/-- A unit that nothing is awaited from. -/
structure Idle (t : UnitThread) : Prop where
  commands : t.commands = []
  acks : t.acks = []
  running : t.ended = false

/-- A unit that has been sent a command, and whose ticks bring no report before it or after it, or
that has answered the command. -/
inductive Carries (t : UnitThread) (x : UnitCommand) (ticks : List Tick) : Prop
  | sent (hcommands : t.commands = [x]) (hacks : t.acks = []) (hrunning : t.ended = false)
      (hbefore : t.countdown.reportsOf ticks = [])
      (hafter : (t.countdown.onCommand x).2.reportsOf ticks = [])
  | answered (c : Countdown) (hcommands : t.commands = [])
      (hacks : t.acks = (c.onCommand x).1.toList) (hended : t.ended = (c.onCommand x).1.isNone)
      (hleft : c.remaining = t.countdown.remaining) (hquiet : t.countdown.reportsOf ticks = [])

/-- A unit that has been sent some ticks does what the errand asks of it: nothing, if the errand is
another one's. -/
def Serves (t : UnitThread) (errand : Errand) (ticks : List Tick) : Prop :=
  match errand with
  | some (unit, x) => if t.unit = unit then t.Carries x ticks else t.Idle
  | none => t.Idle

/-- A unit listens to the clock until it has ended; it has been sent no tick that is still to
come. -/
structure InTouch (t : UnitThread) (clock : Clock) : Prop where
  known : t.mailbox < clock.mailboxes.length
  listens : t.ended = false → clock.Open t.mailbox
  hungUp : t.ended = true → clock.queue t.mailbox = []
  bounded : ∀ k ∈ clock.queue t.mailbox, k ≤ clock.tick

variable {t t' : UnitThread} {clock clock' : Clock} {errand : Errand} {ticks : List Tick}
  {x : UnitCommand} {u : UnitId}

theorem foldl_onCommand_unit (xs : List UnitCommand) (c : Countdown) :
    (xs.foldl (fun c x => (c.onCommand x).2) c).unit = c.unit := by
  induction xs generalizing c with
  | nil => rfl
  | cons x xs ih => exact (ih _).trans (c.onCommand_unit x)

@[simp] theorem settled_unit (clock : Clock) (t : UnitThread) : (t.settled clock).unit = t.unit :=
  (Countdown.after_unit _ _).trans (foldl_onCommand_unit _ _)

theorem commanded_of_nil (h : t.commands = []) : t.commanded = t.countdown := by
  rw [commanded, h]
  rfl

theorem commanded_of_singleton (h : t.commands = [x]) :
    t.commanded = (t.countdown.onCommand x).2 := by
  rw [commanded, h]
  rfl

/-- What is in another mailbox does not matter to a unit. -/
theorem congr_of_mailbox? (h : clock'.mailbox? t.mailbox = clock.mailbox? t.mailbox) :
    t.settled clock' = t.settled clock ∧ t.coming clock' = t.coming clock := by
  have hqueue := (Clock.congr_of_mailbox? h).1
  exact ⟨by rw [settled, hqueue, settled], by rw [coming, hqueue, coming]⟩

theorem load_congr (h : clock'.mailbox? t.mailbox = clock.mailbox? t.mailbox) :
    t.load clock' = t.load clock := by
  rw [load, load, (Clock.congr_of_mailbox? h).1]

theorem InTouch.congr (h : t.InTouch clock)
    (hmailbox : clock'.mailbox? t.mailbox = clock.mailbox? t.mailbox)
    (hlength : clock.mailboxes.length ≤ clock'.mailboxes.length)
    (htick : clock'.tick = clock.tick) : t.InTouch clock' := by
  obtain ⟨hqueue, hopen⟩ := Clock.congr_of_mailbox? hmailbox
  refine ⟨Nat.lt_of_lt_of_le h.known hlength, fun hrun => hopen (h.listens hrun), ?_, ?_⟩
  · intro hended
    rw [hqueue]
    exact h.hungUp hended
  · intro k hk
    rw [hqueue] at hk
    rw [htick]
    exact h.bounded k hk

/-- A unit that goes on listens where it did. -/
theorem InTouch.of_running (h : t.InTouch clock) (hmailbox : t'.mailbox = t.mailbox)
    (hrunning : t.ended = false) (hrunning' : t'.ended = false) : t'.InTouch clock where
  known := hmailbox ▸ h.known
  listens _ := hmailbox ▸ h.listens hrunning
  hungUp hended := absurd (hrunning'.symm.trans hended) (by simp)
  bounded := hmailbox ▸ h.bounded

/-- A unit that has ended hangs up. -/
theorem InTouch.hangUp (h : t.InTouch clock) (hmailbox : t'.mailbox = t.mailbox)
    (hrunning : t.ended = false) (hended : t'.ended = true) :
    t'.InTouch (clock.hangUp t.mailbox) := by
  have hqueue := Clock.queue_hangUp (h.listens hrunning)
  refine ⟨?_, fun hrunning' => absurd (hended.symm.trans hrunning') (by simp), fun _ => ?_,
    fun k hk => ?_⟩
  · rw [hmailbox]
    exact (Clock.length_modifyMailbox clock _ _).symm ▸ h.known
  · rw [hmailbox]
    exact hqueue
  · rw [hmailbox] at hk
    exact absurd (hqueue ▸ hk) List.not_mem_nil

/-- A unit that has taken a tick is still in touch. -/
theorem InTouch.taken (h : t.InTouch clock) (hmailbox : t'.mailbox = t.mailbox)
    (hrunning : t.ended = false) (hrunning' : t'.ended = false) {k : Tick} {rest : List Tick}
    (hqueue : clock.queue t.mailbox = k :: rest) :
    t'.InTouch (clock.modifyMailbox t.mailbox fun m => { m with queue := rest }) := by
  obtain ⟨hopen, htaken⟩ := Clock.open_taken (h.listens hrunning) rest
  refine ⟨?_, fun _ => ?_, fun hended => absurd (hrunning'.symm.trans hended) (by simp),
    fun j hj => ?_⟩
  · rw [hmailbox]
    exact (Clock.length_modifyMailbox clock _ _).symm ▸ h.known
  · rw [hmailbox]
    exact hopen
  · rw [hmailbox] at hj
    exact h.bounded j (hqueue ▸ List.mem_cons_of_mem _ (htaken ▸ hj))

theorem serves_carries (hunit : t.unit = u) (h : t.Carries x ticks) :
    t.Serves (some (u, x)) ticks := by
  show if t.unit = u then _ else _
  rw [if_pos hunit]
  exact h

/-- A unit that serves nobody does so whoever else is served. -/
theorem serves_of_ne (hunit : t.unit ≠ u) (h : t.Idle) : t.Serves (some (u, x)) ticks := by
  show if t.unit = u then _ else _
  rw [if_neg hunit]
  exact h

theorem Serves.carries (h : t.Serves (some (u, x)) ticks) (hunit : t.unit = u) :
    t.Carries x ticks := by
  change if t.unit = u then _ else _ at h
  rwa [if_pos hunit] at h

theorem Serves.idle_of_ne (h : t.Serves (some (u, x)) ticks) (hunit : t.unit ≠ u) : t.Idle := by
  change if t.unit = u then _ else _ at h
  rwa [if_neg hunit] at h

/-- A unit with a command to take is the one of the errand. -/
theorem Serves.of_commands (h : t.Serves errand ticks) (hcommands : t.commands ≠ []) :
    ∃ x, errand = some (t.unit, x) ∧ t.commands = [x] ∧ t.acks = [] ∧ t.ended = false ∧
      t.countdown.reportsOf ticks = [] ∧ (t.countdown.onCommand x).2.reportsOf ticks = [] := by
  cases errand with
  | none => exact absurd (show t.Idle from h).commands hcommands
  | some errand =>
    obtain ⟨u, x⟩ := errand
    by_cases hunit : t.unit = u
    · cases h.carries hunit with
      | sent hsent hacks hrunning hbefore hafter =>
        exact ⟨x, by rw [hunit], hsent, hacks, hrunning, hbefore, hafter⟩
      | answered c hnone => exact absurd hnone hcommands
    · exact absurd (h.idle_of_ne hunit).commands hcommands

theorem commands_ne_of_takeCommand? (h : t.takeCommand? = some t') : t.commands ≠ [] := by
  intro hnone
  rw [takeCommand?, hnone] at h
  exact absurd h (by simp)

/-- A unit has taken its only command, and nothing had been awaited from it before. -/
structure Taken (t : UnitThread) (x : UnitCommand) (t' : UnitThread) : Prop where
  sent : t.commands = [x]
  unanswered : t.acks = []
  countdown : t'.countdown = (t.countdown.onCommand x).2
  commands : t'.commands = []
  acks : t'.acks = (t.countdown.onCommand x).1.toList
  ended : t'.ended = (t.countdown.onCommand x).1.isNone
  mailbox : t'.mailbox = t.mailbox

theorem taken_of_takeCommand? (hsent : t.commands = [x]) (hacks : t.acks = [])
    (h : t.takeCommand? = some t') : t.Taken x t' := by
  rw [takeCommand?, hsent, hacks] at h
  obtain rfl := Option.some.inj h
  exact ⟨hsent, hacks, rfl, rfl, rfl, rfl, rfl⟩

theorem Taken.unit_eq (h : t.Taken x t') : t'.unit = t.unit := by
  rw [unit, h.countdown, Countdown.onCommand_unit, unit]

theorem Taken.commanded_eq (h : t.Taken x t') : t'.commanded = t.commanded := by
  rw [commanded_of_nil h.commands, commanded_of_singleton h.sent, h.countdown]

/-- A unit whose ticks bring no report after its command serves the errand with its answer. -/
theorem Taken.serves (h : t.Taken x t') (hquiet : (t.countdown.onCommand x).2.reportsOf ticks = []) :
    t'.Serves (some (t.unit, x)) ticks :=
  serves_carries h.unit_eq (.answered t.countdown h.commands h.acks h.ended
    (by rw [h.countdown, Countdown.onCommand_remaining]) (h.countdown ▸ hquiet))

/-- The answer weighs less than the command did. -/
theorem Taken.load_lt (h : t.Taken x t')
    (hle : (clock'.queue t.mailbox).length ≤ (clock.queue t.mailbox).length) :
    t'.load clock' < t.load clock := by
  have hone := Option.length_toList_le (o := (t.countdown.onCommand x).1)
  rw [load, load, h.commands, h.acks, h.mailbox, h.sent, h.unanswered]
  simp only [List.length_nil, List.length_singleton]
  omega

/-- What becomes of a unit by a tick is the same before its command and after it, and it still does
what the errand asks. -/
theorem Serves.onTick {k : Tick} (h : t.Serves errand (k :: ticks))
    (hcountdown : t'.countdown = (t.countdown.onTick k).2) (hcommands : t'.commands = t.commands)
    (hacks : t'.acks = t.acks) (hended : t'.ended = t.ended) :
    t'.commanded = (t.commanded.onTick k).2 ∧
      (t.commanded.onTick k).1 = (t.countdown.onTick k).1 ∧ t'.Serves errand ticks := by
  have hunit : t'.unit = t.unit := by
    rw [unit, hcountdown, Countdown.onTick_unit, unit]
  by_cases hnone : t.commands = []
  · rw [commanded_of_nil hnone, commanded_of_nil (hcommands.trans hnone)]
    refine ⟨hcountdown, rfl, ?_⟩
    have hidle : t.Idle → t'.Idle := fun hi =>
      ⟨hcommands.trans hi.commands, hacks.trans hi.acks, hended.trans hi.running⟩
    cases errand with
    | none => exact hidle h
    | some errand =>
      obtain ⟨u, x⟩ := errand
      by_cases heq : t.unit = u
      · refine serves_carries (hunit.trans heq) ?_
        cases h.carries heq with
        | sent hsent hacks' hrunning hbefore hafter => exact absurd (hsent.symm.trans hnone) (by simp)
        | answered c hnone' hacks' hended' hleft hquiet =>
          obtain ⟨hsame, hrest⟩ := Countdown.onTick_of_reportsOf_nil hquiet
          rw [hsame] at hcountdown
          exact .answered c (hcommands.trans hnone') (hacks.trans hacks') (hended.trans hended')
            (hcountdown ▸ hleft) (hcountdown ▸ hrest)
      · exact serves_of_ne (hunit ▸ heq) (hidle (h.idle_of_ne heq))
  · obtain ⟨x, herrand, hsent, hacks', hrunning, hbefore, hafter⟩ := h.of_commands hnone
    obtain ⟨hsame, hbefore'⟩ := Countdown.onTick_of_reportsOf_nil hbefore
    obtain ⟨hsame', hafter'⟩ := Countdown.onTick_of_reportsOf_nil hafter
    rw [hsame] at hcountdown ⊢
    rw [commanded_of_singleton hsent, commanded_of_singleton (hcommands.trans hsent), hcountdown,
      hsame']
    refine ⟨rfl, rfl, ?_⟩
    rw [herrand]
    exact serves_carries hunit (.sent (hcommands.trans hsent) (hacks.trans hacks')
      (hended.trans hrunning) (hcountdown ▸ hbefore') (hcountdown ▸ hafter'))

end UnitThread

namespace Crew

/-- The pool that a crew comes to once its units have taken all they have been sent. -/
def pool (c : Crew) : UnitPool :=
  ⟨c.threads.map (·.settled c.clock), c.next⟩

/-- The reports that have not been taken, sent or not. -/
def coming (c : Crew) : List UnitReport :=
  c.reports ++ c.threads.flatMap (·.coming c.clock)

/-- What all units still have to deal with. -/
def load (c : Crew) : Nat :=
  (c.threads.map (·.load c.clock)).sum

/-- The order in which a caller deals with a crew: its units are different, have mailboxes of their
own and listen, and the only unit that an answer is awaited from is that of the errand. -/
structure Orderly (c : Crew) (errand : Errand) : Prop where
  awaited : ∀ u x, errand = some (u, x) → u ∈ c.threads.map UnitThread.unit
  running : c.clock.stopped = false
  units : (c.threads.map UnitThread.unit).Nodup
  older : ∀ t ∈ c.threads, t.unit < c.next
  mailboxes : (c.threads.map UnitThread.mailbox).Nodup
  inTouch : ∀ t ∈ c.threads, t.InTouch c.clock
  serves : ∀ t ∈ c.threads, t.Serves errand (c.clock.queue t.mailbox)

/-- One unit of a crew has been replaced, and nothing else but its mailbox has been touched. -/
structure Replaced (c c' : Crew) (before : List UnitThread) (t t' : UnitThread)
    (after : List UnitThread) : Prop where
  threads : c.threads = before ++ t :: after
  threads' : c'.threads = before ++ t' :: after
  next : c'.next = c.next
  unit : t'.unit = t.unit
  mailbox : t'.mailbox = t.mailbox
  tick : c'.clock.tick = c.clock.tick
  settled : c'.clock.settled = c.clock.settled
  stopped : c'.clock.stopped = c.clock.stopped
  length : c'.clock.mailboxes.length = c.clock.mailboxes.length
  others : ∀ i, i ≠ t.mailbox → c'.clock.mailbox? i = c.clock.mailbox? i

variable {c c' : Crew} {errand errand' : Errand} {t t' : UnitThread} {u : UnitId}
  {before after : List UnitThread} {x : UnitCommand}

theorem mem_of_find? (h : c.find? u = some t) : t ∈ c.threads ∧ t.unit = u :=
  ⟨List.mem_of_find?_eq_some h, by simpa using List.find?_some h⟩

/-- A unit stands among units with other numbers. -/
theorem Orderly.split (h : c.Orderly errand) (hfind : c.find? u = some t) :
    ∃ before after, c.threads = before ++ t :: after ∧ ∀ d ∈ before ++ after, d.unit ≠ u := by
  obtain ⟨hunit, before, after, hthreads, -⟩ := List.find?_eq_some_iff_append.mp hfind
  have hnodup := h.units
  rw [hthreads, List.map_append, List.map_cons, List.nodup_middle, List.nodup_cons,
    ← List.map_append] at hnodup
  refine ⟨before, after, hthreads, fun d hd heq => hnodup.1 ?_⟩
  rw [beq_iff_eq.mp hunit, ← heq]
  exact List.mem_map_of_mem hd

/-- A unit is found under its number. -/
theorem Orderly.find?_unit (h : c.Orderly errand) (ht : t ∈ c.threads) :
    c.find? t.unit = some t := by
  cases hfind : c.find? t.unit with
  | none => exact absurd (List.find?_eq_none.mp hfind t ht) (by simp)
  | some d =>
    obtain ⟨hd, hunit⟩ := mem_of_find? hfind
    exact congrArg some (List.inj_on_of_nodup_map h.units hd ht hunit)

/-- Writing back a unit replaces it. -/
theorem threads_update (hthreads : c.threads = before ++ t :: after)
    (hother : ∀ d ∈ before ++ after, d.unit ≠ u) (hunit : t.unit = u) (hunit' : t'.unit = u) :
    (c.update t').threads = before ++ t' :: after := by
  have hkeep : ∀ ds : List UnitThread, (∀ d ∈ ds, d.unit ≠ u) →
      ds.map (fun d => if d.unit == t'.unit then t' else d) = ds := by
    intro ds hds
    refine (List.map_congr_left ?_).trans (List.map_id ds)
    intro d hd
    rw [hunit', if_neg (by simp [hds d hd]), id]
  show c.threads.map _ = _
  rw [hthreads, List.map_append, List.map_cons,
    hkeep before fun d hd => hother d (List.mem_append_left _ hd),
    hkeep after fun d hd => hother d (List.mem_append_right _ hd), hunit, hunit', if_pos (by simp)]

/-- The other units have other mailboxes. -/
theorem Orderly.mailbox_ne (h : c.Orderly errand) (hthreads : c.threads = before ++ t :: after) :
    ∀ d ∈ before ++ after, d.mailbox ≠ t.mailbox := by
  have hnodup := h.mailboxes
  rw [hthreads, List.map_append, List.map_cons, List.nodup_middle, List.nodup_cons,
    ← List.map_append] at hnodup
  exact fun d hd heq => hnodup.1 (heq ▸ List.mem_map_of_mem hd)

theorem Replaced.mem (hr : Replaced c c' before t t' after) : t ∈ c.threads :=
  hr.threads ▸ List.mem_append_right _ List.mem_cons_self

theorem Replaced.map_unit (hr : Replaced c c' before t t' after) :
    c'.threads.map UnitThread.unit = c.threads.map UnitThread.unit := by
  rw [hr.threads, hr.threads', List.map_append, List.map_append, List.map_cons, List.map_cons,
    hr.unit]

theorem Replaced.map_mailbox (hr : Replaced c c' before t t' after) :
    c'.threads.map UnitThread.mailbox = c.threads.map UnitThread.mailbox := by
  rw [hr.threads, hr.threads', List.map_append, List.map_append, List.map_cons, List.map_cons,
    hr.mailbox]

theorem Replaced.orderly (hr : Replaced c c' before t t' after) (h : c.Orderly errand)
    (hawaited : ∀ u x, errand' = some (u, x) → u ∈ c.threads.map UnitThread.unit)
    (htouch : t'.InTouch c'.clock) (hserves : t'.Serves errand' (c'.clock.queue t'.mailbox))
    (hothers : ∀ d ∈ before ++ after, ∀ ticks, d.Serves errand ticks → d.Serves errand' ticks) :
    c'.Orderly errand' := by
  have hne := h.mailbox_ne hr.threads
  have hmem : ∀ d ∈ c'.threads, d = t' ∨ d ∈ before ++ after ∧ d ∈ c.threads := by
    intro d hd
    rw [hr.threads', List.mem_append, List.mem_cons] at hd
    rw [hr.threads, List.mem_append, List.mem_append, List.mem_cons]
    rcases hd with hd | rfl | hd
    · exact Or.inr ⟨Or.inl hd, Or.inl hd⟩
    · exact Or.inl rfl
    · exact Or.inr ⟨Or.inr hd, Or.inr (Or.inr hd)⟩
  refine ⟨fun u x hx => hr.map_unit ▸ hawaited u x hx, hr.stopped.trans h.running,
    hr.map_unit ▸ h.units, ?_, hr.map_mailbox ▸ h.mailboxes, ?_, ?_⟩
  · intro d hd
    rw [hr.next]
    rcases hmem d hd with rfl | ⟨-, hold⟩
    · rw [hr.unit]
      exact h.older t hr.mem
    · exact h.older d hold
  · intro d hd
    rcases hmem d hd with rfl | ⟨hother, hold⟩
    · exact htouch
    · exact (h.inTouch d hold).congr (hr.others _ (hne d hother)) (Nat.le_of_eq hr.length.symm)
        hr.tick
  · intro d hd
    rcases hmem d hd with rfl | ⟨hother, hold⟩
    · exact hserves
    · rw [(Clock.congr_of_mailbox? (hr.others _ (hne d hother))).1]
      exact hothers d hother _ (h.serves d hold)

/-! ## The pool of a crew -/

theorem Replaced.map_settled (hr : Replaced c c' before t t' after) (h : c.Orderly errand)
    {ds : List UnitThread} (hds : ∀ d ∈ ds, d ∈ before ++ after) :
    ds.map (·.settled c'.clock) = ds.map (·.settled c.clock) :=
  List.map_congr_left fun d hd =>
    (UnitThread.congr_of_mailbox? (hr.others _ (h.mailbox_ne hr.threads d (hds d hd)))).1

/-- A unit that stays the same to the caller leaves the pool as it is. -/
theorem Replaced.pool_eq (hr : Replaced c c' before t t' after) (h : c.Orderly errand)
    (hsame : t'.settled c'.clock = t.settled c.clock) : c'.pool = c.pool := by
  rw [pool, pool, hr.threads, hr.threads', hr.next, List.map_append, List.map_append, List.map_cons,
    List.map_cons, hsame, hr.map_settled h fun d hd => List.mem_append_left _ hd,
    hr.map_settled h fun d hd => List.mem_append_right _ hd]

/-- The reports to come stay the same if those of the replaced unit do. -/
theorem Replaced.coming_perm (hr : Replaced c c' before t t' after) (h : c.Orderly errand)
    (hself : (c'.reports ++ t'.coming c'.clock).Perm (c.reports ++ t.coming c.clock)) :
    c'.coming.Perm c.coming := by
  have hothers : ∀ ds : List UnitThread, (∀ d ∈ ds, d ∈ before ++ after) →
      ds.flatMap (·.coming c'.clock) = ds.flatMap (·.coming c.clock) := fun ds hds =>
    List.flatMap_congr fun d hd =>
      (UnitThread.congr_of_mailbox? (hr.others _ (h.mailbox_ne hr.threads d (hds d hd)))).2
  rw [coming, coming, hr.threads, hr.threads', List.flatMap_append, List.flatMap_append,
    List.flatMap_cons, List.flatMap_cons, hothers before fun d hd => List.mem_append_left _ hd,
    hothers after fun d hd => List.mem_append_right _ hd]
  refine (List.perm_append_comm_assoc _ _ _).trans
    (List.Perm.trans (List.Perm.append_left _ ?_) (List.perm_append_comm_assoc _ _ _).symm)
  rw [← List.append_assoc, ← List.append_assoc]
  exact hself.append_right _

/-- A unit that has less to deal with makes it less for the crew. -/
theorem Replaced.load_lt (hr : Replaced c c' before t t' after) (h : c.Orderly errand)
    (hself : t'.load c'.clock < t.load c.clock) : c'.load < c.load := by
  have hothers : ∀ ds : List UnitThread, (∀ d ∈ ds, d ∈ before ++ after) →
      ds.map (·.load c'.clock) = ds.map (·.load c.clock) := fun ds hds =>
    List.map_congr_left fun d hd =>
      UnitThread.load_congr (hr.others _ (h.mailbox_ne hr.threads d (hds d hd)))
  rw [load, load, hr.threads, hr.threads', List.map_append, List.map_append, List.map_cons,
    List.map_cons, hothers before fun d hd => List.mem_append_left _ hd,
    hothers after fun d hd => List.mem_append_right _ hd, List.sum_append, List.sum_append,
    List.sum_cons, List.sum_cons]
  omega

/-! ## Steps of the units -/

/-- A mailbox that is nobody's in a crew. -/
def Foreign (c : Crew) (i : SubscriberId) : Prop :=
  i < c.clock.mailboxes.length ∧ i ∉ c.threads.map UnitThread.mailbox

/-- What has happened to a crew concerns nobody else who uses its clock. -/
structure Apart (c c' : Crew) : Prop where
  tick : c'.clock.tick = c.clock.tick
  settled : c'.clock.settled = c.clock.settled
  foreign : ∀ i, c.Foreign i → c'.Foreign i ∧ c'.clock.mailbox? i = c.clock.mailbox? i

theorem Replaced.apart (hr : Replaced c c' before t t' after) : c.Apart c' := by
  refine ⟨hr.tick, hr.settled, fun i ⟨hlt, hnot⟩ => ⟨⟨hr.length ▸ hlt, hr.map_mailbox ▸ hnot⟩,
    hr.others i ?_⟩⟩
  rintro rfl
  exact hnot (List.mem_map_of_mem hr.mem)

/-- A unit has made a step, which changes nothing to the caller. -/
structure Heeded (c : Crew) (errand : Errand) (c' : Crew) : Prop where
  orderly : c'.Orderly errand
  pool : c'.pool = c.pool
  coming : c'.coming.Perm c.coming
  apart : c.Apart c'
  lighter : c'.load < c.load

theorem Replaced.heeded (hr : Replaced c c' before t t' after) (h : c.Orderly errand)
    (htouch : t'.InTouch c'.clock) (hserves : t'.Serves errand (c'.clock.queue t'.mailbox))
    (hsame : t'.settled c'.clock = t.settled c.clock)
    (hself : (c'.reports ++ t'.coming c'.clock).Perm (c.reports ++ t.coming c.clock))
    (hload : t'.load c'.clock < t.load c.clock) : c.Heeded errand c' :=
  ⟨hr.orderly h h.awaited htouch hserves fun _ _ _ hd => hd, hr.pool_eq h hsame,
    hr.coming_perm h hself, hr.apart, hr.load_lt h hload⟩

/-- A unit that is written back where it was. -/
theorem Orderly.replaced_update (h : c.Orderly errand) (hfind : c.find? u = some t)
    (hunit : t'.unit = t.unit) (hmailbox : t'.mailbox = t.mailbox) (clock : Clock)
    (reports : List UnitReport) (htick : clock.tick = c.clock.tick)
    (hsettled : clock.settled = c.clock.settled)
    (hstopped : clock.stopped = c.clock.stopped)
    (hlength : clock.mailboxes.length = c.clock.mailboxes.length)
    (hothers : ∀ i, i ≠ t.mailbox → clock.mailbox? i = c.clock.mailbox? i) :
    ∃ before after, (∀ d ∈ before ++ after, d.unit ≠ u) ∧
      Replaced c ({ c with clock := clock, reports := reports }.update t') before t t' after := by
  obtain ⟨hmem, hunit'⟩ := mem_of_find? hfind
  obtain ⟨before, after, hthreads, hother⟩ := h.split hfind
  exact ⟨before, after, hother, hthreads, threads_update hthreads hother hunit'
    (hunit.trans hunit'), rfl, hunit, hmailbox, htick, hsettled, hstopped, hlength, hothers⟩

/-- A command that a unit carries is taken. -/
theorem Orderly.takeCommand (h : c.Orderly errand) (hfind : c.find? u = some t)
    (hstep : t.takeCommand? = some t') :
    c.Heeded errand ((c.update t').closeMailbox t') := by
  obtain ⟨hmem, -⟩ := mem_of_find? hfind
  have htouch := h.inTouch t hmem
  obtain ⟨x, herrand, hsent, hacks, hrunning, -, hquiet⟩ :=
    (h.serves t hmem).of_commands (UnitThread.commands_ne_of_takeCommand? hstep)
  have htaken := UnitThread.taken_of_takeCommand? hsent hacks hstep
  have hmailbox := htaken.mailbox
  cases hended : t'.ended with
  | false =>
    -- the unit goes on listening
    obtain ⟨before, after, -, hr⟩ := h.replaced_update hfind htaken.unit_eq hmailbox c.clock
      c.reports rfl rfl rfl rfl fun _ _ => rfl
    rw [closeMailbox, if_neg (by simp [hended])]
    refine hr.heeded h (htouch.of_running hmailbox hrunning hended)
      (herrand ▸ htaken.serves (hmailbox ▸ hquiet)) ?_ ?_ (htaken.load_lt (Nat.le_refl _))
    · show t'.settled c.clock = t.settled c.clock
      rw [UnitThread.settled, UnitThread.settled, htaken.commanded_eq, hmailbox]
    · show (c.reports ++ t'.coming c.clock).Perm (c.reports ++ t.coming c.clock)
      rw [UnitThread.coming, UnitThread.coming, htaken.commanded_eq, hmailbox]
  | true =>
    -- the unit hangs up, and loses only ticks that it would not have counted
    have hqueue := Clock.queue_hangUp (htouch.listens hrunning)
    have hafter := Countdown.after_of_reportsOf_nil hquiet
    have hcommanded := UnitThread.commanded_of_singleton hsent
    obtain ⟨before, after, -, hr⟩ := h.replaced_update hfind htaken.unit_eq hmailbox
      (c.clock.hangUp t.mailbox) c.reports rfl rfl rfl (c.clock.length_modifyMailbox _ _)
      fun i hi => Clock.mailbox?_modify_of_ne hi.symm _
    rw [closeMailbox, if_pos hended, hmailbox]
    have hnothing : (t.countdown.onCommand x).2.reportsOf
        ((c.clock.hangUp t.mailbox).queue t'.mailbox) = [] := by
      rw [hmailbox, hqueue, Countdown.reportsOf_nil]
    have hless : ((c.clock.hangUp t.mailbox).queue t.mailbox).length ≤
        (c.clock.queue t.mailbox).length := by
      rw [hqueue]
      exact Nat.zero_le _
    refine hr.heeded h (htouch.hangUp hmailbox hrunning hended) (herrand ▸ htaken.serves hnothing)
      ?_ ?_ (htaken.load_lt hless)
    · show t'.settled (c.clock.hangUp t.mailbox) = t.settled c.clock
      rw [UnitThread.settled, UnitThread.settled, htaken.commanded_eq, hcommanded, hmailbox, hqueue,
        hafter]
      rfl
    · show (c.reports ++ t'.coming (c.clock.hangUp t.mailbox)).Perm (c.reports ++ t.coming c.clock)
      rw [UnitThread.coming, UnitThread.coming, htaken.commanded_eq, hcommanded, hmailbox, hqueue,
        hquiet]
      rfl

/-- A unit takes a tick. -/
theorem Orderly.takeTick (h : c.Orderly errand) (hfind : c.find? u = some t)
    (hrunning : t.ended = false) {k : Tick} {rest : List Tick}
    (hqueue : c.clock.queue t.mailbox = k :: rest) :
    c.Heeded errand ({ c with
      clock := c.clock.modifyMailbox t.mailbox fun m => { m with queue := rest }
      reports := c.reports ++ (t.countdown.onTick k).1.toList }.update
        { t with countdown := (t.countdown.onTick k).2 }) := by
  obtain ⟨hmem, -⟩ := mem_of_find? hfind
  have htouch := h.inTouch t hmem
  obtain ⟨-, htaken⟩ := Clock.open_taken (htouch.listens hrunning) rest
  generalize ht' : ({ t with countdown := (t.countdown.onTick k).2 } : UnitThread) = t'
  have hcountdown : t'.countdown = (t.countdown.onTick k).2 := by rw [← ht']
  have hmailbox : t'.mailbox = t.mailbox := by rw [← ht']
  have hcommands : t'.commands = t.commands := by rw [← ht']
  have hacks : t'.acks = t.acks := by rw [← ht']
  have hended : t'.ended = t.ended := by rw [← ht']
  have hunit : t'.unit = t.unit := by
    rw [UnitThread.unit, hcountdown, Countdown.onTick_unit, UnitThread.unit]
  obtain ⟨before, after, -, hr⟩ := h.replaced_update hfind hunit hmailbox
    (c.clock.modifyMailbox t.mailbox fun m => { m with queue := rest })
    (c.reports ++ (t.countdown.onTick k).1.toList) rfl rfl rfl (c.clock.length_modifyMailbox _ _)
    fun i hi => Clock.mailbox?_modify_of_ne hi.symm _
  obtain ⟨hcommanded, hreport, hserves⟩ :=
    (hqueue ▸ h.serves t hmem).onTick hcountdown hcommands hacks hended
  have hrest : t'.Serves errand ((c.clock.modifyMailbox t.mailbox fun m =>
      { m with queue := rest }).queue t'.mailbox) := by
    rw [hmailbox, htaken]
    exact hserves
  refine hr.heeded h (htouch.taken hmailbox hrunning (hended.trans hrunning) hqueue) hrest ?_ ?_ ?_
  · show t'.settled (c.clock.modifyMailbox _ _) = t.settled c.clock
    rw [UnitThread.settled, UnitThread.settled, hcommanded, hmailbox, htaken, hqueue,
      Countdown.after_cons]
  · show (c.reports ++ (t.countdown.onTick k).1.toList ++
      t'.coming (c.clock.modifyMailbox _ _)).Perm (c.reports ++ t.coming c.clock)
    rw [UnitThread.coming, UnitThread.coming, hcommanded, hmailbox, htaken, hqueue,
      Countdown.reportsOf_cons, hreport, List.append_assoc]
  · show t'.load (c.clock.modifyMailbox _ _) < t.load c.clock
    rw [UnitThread.load, UnitThread.load, hcommands, hacks, hmailbox, htaken, hqueue]
    exact Nat.lt_succ_self _

/-- **No step of a unit changes the pool or the reports to come.** -/
theorem Orderly.step {source : Source} (h : c.Orderly errand)
    (hstep : c.step? u source = some c') : c.Heeded errand c' := by
  unfold step? at hstep
  split at hstep
  · exact absurd hstep (by simp)
  · rename_i t hfind
    split at hstep
    · exact absurd hstep (by simp)
    · rename_i hended
      have hrunning : t.ended = false := by simpa using hended
      have hopen := (h.inTouch t (mem_of_find? hfind).1).listens hrunning
      cases source with
      | commands =>
        obtain ⟨t', ht', rfl⟩ := Option.map_eq_some_iff.mp hstep
        exact h.takeCommand hfind ht'
      | ticks =>
        cases hqueue : c.clock.queue t.mailbox with
        | nil =>
          rw [Clock.take?_nil hopen hqueue] at hstep
          exact absurd hstep (by simp)
        | cons k rest =>
          rw [Clock.take?_cons hopen hqueue] at hstep
          obtain rfl := Option.some.inj hstep
          exact h.takeTick hfind hrunning hqueue

/-! ## Units that need not wait -/

/-- A unit that has a command to take need not wait. -/
theorem step?_commands (hfind : c.find? u = some t) (hcommands : t.commands ≠ [])
    (hrunning : t.ended = false) : (c.step? u .commands).isSome = true := by
  rw [step?, hfind]
  show (if t.ended then none else _).isSome = true
  rw [if_neg (by simp [hrunning])]
  cases hsent : t.commands with
  | nil => exact absurd hsent hcommands
  | cons x rest => simp [UnitThread.takeCommand?, hsent]

/-- A unit that has a tick to take need not wait. -/
theorem Orderly.step?_ticks (h : c.Orderly errand) (ht : t ∈ c.threads)
    (hqueue : c.clock.queue t.mailbox ≠ []) : (c.step? t.unit .ticks).isSome = true := by
  have htouch := h.inTouch t ht
  have hrunning : t.ended = false := by
    by_contra hended
    exact hqueue (htouch.hungUp (by simpa using hended))
  rw [step?, h.find?_unit ht]
  show (if t.ended then none else _).isSome = true
  rw [if_neg (by simp [hrunning])]
  cases hticks : c.clock.queue t.mailbox with
  | nil => exact absurd hticks hqueue
  | cons k rest => simp [Clock.take?_cons (htouch.listens hrunning) hticks]

/-- While a report is awaited, it has been sent or a unit need not wait. -/
theorem Orderly.reports_or_step (h : c.Orderly errand) (hcoming : c.coming ≠ []) :
    c.reports ≠ [] ∨ ∃ u, (c.step? u .ticks).isSome = true := by
  by_cases hreports : c.reports = []
  · refine Or.inr ?_
    rw [coming, hreports, List.nil_append] at hcoming
    obtain ⟨r, hr⟩ := List.exists_mem_of_ne_nil _ hcoming
    obtain ⟨t, ht, hr⟩ := List.mem_flatMap.mp hr
    refine ⟨t.unit, h.step?_ticks ht fun hqueue => ?_⟩
    rw [UnitThread.coming, hqueue] at hr
    exact List.not_mem_nil hr
  · exact Or.inl hreports

end Crew
end Uniprocessor
