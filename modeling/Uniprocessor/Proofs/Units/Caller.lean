import Uniprocessor.Proofs.Units.Crew

/-!
# What a caller does to a crew

To its caller a crew is the pool that it comes to, and every step of the caller does to the crew
what the operation of the same name does to the pool.  A command is carried out as soon as it has
been sent: nothing else is sent to the unit before it has answered, and by then it will have taken
the command whatever it does.

The caller only sends a command while no report is to come, and only one that brings no tick to count
that did not count before (`UnitCommand.Quiets`).

* `Crew.Orderly.send`, `takeAck`, `join`, `start`, `remaining_eq`, `advance`: **the steps of a caller
  are those of a pool**;
* `Crew.Orderly.answered_or_step`: while an answer is awaited, it has come or the unit need not wait.
-/

namespace Uniprocessor
namespace UnitPool

/-- The command to stop is only obeyed by hanging up. -/
theorem tell_stop (p : UnitPool) (u : UnitId) : p.tell u .stop = p := by
  have hsame : (fun c : Countdown => if c.unit == u then (c.onCommand .stop).2 else c) = id := by
    funext c
    split <;> rfl
  rw [tell, hsame, List.map_id]

end UnitPool

namespace UnitThread

variable {t : UnitThread} {clock : Clock}

theorem foldl_onCommand_remaining (xs : List UnitCommand) (c : Countdown) :
    (xs.foldl (fun c x => (c.onCommand x).2) c).remaining = c.remaining := by
  induction xs generalizing c with
  | nil => rfl
  | cons x xs ih => exact (ih _).trans (c.onCommand_remaining x)

/-- A unit from which no report is to come has taken all that matters. -/
theorem settled_of_coming_nil (h : t.coming clock = []) : t.settled clock = t.commanded :=
  Countdown.after_of_reportsOf_nil h

/-- What such a unit has left can be read off it at any time. -/
theorem remaining_of_coming_nil (h : t.coming clock = []) :
    t.countdown.remaining = (t.settled clock).remaining := by
  rw [settled_of_coming_nil h]
  exact (foldl_onCommand_remaining t.commands t.countdown).symm

end UnitThread

namespace Crew

variable {c c' : Crew} {errand errand' : Errand} {t t' : UnitThread} {u : UnitId}
  {x : UnitCommand} {tick : Tick}

/-- A crew without units is in order. -/
theorem orderly_ofClock {clock : Clock} (h : clock.stopped = false) :
    (Crew.ofClock clock).Orderly none :=
  ⟨fun _ _ hx => absurd hx (by simp), h, List.nodup_nil, fun _ ht => absurd ht List.not_mem_nil,
    List.nodup_nil, fun _ ht => absurd ht List.not_mem_nil,
    fun _ ht => absurd ht List.not_mem_nil⟩

/-- No report is to come from any unit. -/
theorem coming_eq_nil_iff :
    c.coming = [] ↔ c.reports = [] ∧ ∀ t ∈ c.threads, t.coming c.clock = [] := by
  rw [coming, List.append_eq_nil_iff, List.flatMap_eq_nil_iff]

/-- The units of the pool are those of the crew. -/
theorem find?_pool (c : Crew) (u : UnitId) :
    c.pool.find? u = (c.find? u).map (·.settled c.clock) := by
  show (c.threads.map _).find? _ = _
  rw [List.find?_map]
  refine congrArg (Option.map _) (congrArg (fun f => c.threads.find? f) (funext ?_))
  intro t
  show ((t.settled c.clock).unit == u) = _
  rw [UnitThread.settled_unit]

/-- What a unit has left is what the pool says, once its reports have been taken. -/
theorem remaining_eq (hquiet : c.coming = []) (u : UnitId) : c.remaining u = c.pool.remaining u := by
  rw [remaining, UnitPool.remaining, UnitPool.get, find?_pool]
  cases hfind : c.find? u with
  | none => rfl
  | some t =>
    have hnone := (coming_eq_nil_iff.mp hquiet).2 t (mem_of_find? hfind).1
    show Except.ok t.countdown.remaining = Except.ok (t.settled c.clock).remaining
    rw [UnitThread.remaining_of_coming_nil hnone]

/-! ## Other users of the clock -/

/-- What the units do not see of a clock does not concern them. -/
theorem Orderly.withClock (h : c.Orderly errand) (clock : Clock)
    (htick : clock.tick = c.clock.tick) (hstopped : clock.stopped = c.clock.stopped)
    (hlength : c.clock.mailboxes.length ≤ clock.mailboxes.length)
    (hmailbox : ∀ t ∈ c.threads, clock.mailbox? t.mailbox = c.clock.mailbox? t.mailbox) :
    { c with clock := clock }.Orderly errand ∧ { c with clock := clock }.pool = c.pool ∧
      { c with clock := clock }.coming = c.coming := by
  refine ⟨⟨h.awaited, hstopped.trans h.running, h.units, h.older, h.mailboxes, fun t ht =>
    (h.inTouch t ht).congr (hmailbox t ht) hlength htick, fun t ht =>
    (Clock.congr_of_mailbox? (hmailbox t ht)).1.symm ▸ h.serves t ht⟩, ?_, ?_⟩
  · rw [pool, pool]
    exact congrArg (UnitPool.mk · c.next) (List.map_congr_left fun t ht =>
      (UnitThread.congr_of_mailbox? (hmailbox t ht)).1)
  · rw [coming, coming]
    exact congrArg (c.reports ++ ·) (List.flatMap_congr fun t ht =>
      (UnitThread.congr_of_mailbox? (hmailbox t ht)).2)

/-- Which reports have been taken does not concern the units. -/
theorem Orderly.withReports (h : c.Orderly errand) (reports : List UnitReport) :
    { c with reports := reports }.Orderly errand :=
  ⟨h.awaited, h.running, h.units, h.older, h.mailboxes, h.inTouch, h.serves⟩

/-- **When the clock moves, the tick is offered to the pool.** -/
theorem Orderly.advance (h : c.Orderly none) (hquiet : c.coming = []) :
    { c with clock := c.clock.advanced }.Orderly none ∧
      { c with clock := c.clock.advanced }.pool = (c.pool.advance (c.clock.tick + 1)).2 ∧
      { c with clock := c.clock.advanced }.coming = (c.pool.advance (c.clock.tick + 1)).1 := by
  obtain ⟨hreports, hnone⟩ := coming_eq_nil_iff.mp hquiet
  have hopen : ∀ t ∈ c.threads, c.clock.Open t.mailbox := fun t ht =>
    (h.inTouch t ht).listens (h.serves t ht).running
  have hqueue : ∀ t ∈ c.threads, c.clock.advanced.queue t.mailbox =
      c.clock.queue t.mailbox ++ [c.clock.tick + 1] := fun t ht => (Clock.open_advanced (hopen t ht)).2
  refine ⟨⟨h.awaited, h.running, h.units, h.older, h.mailboxes, ?_, h.serves⟩, ?_, ?_⟩
  · intro t ht
    have htouch := h.inTouch t ht
    refine ⟨?_, fun _ => (Clock.open_advanced (hopen t ht)).1, ?_, ?_⟩
    · exact (List.length_map _).symm ▸ htouch.known
    · intro hended
      exact absurd ((h.serves t ht).running.symm.trans hended) (by simp)
    · intro k hk
      rw [hqueue t ht, List.mem_append, List.mem_singleton] at hk
      rcases hk with hk | rfl
      · exact Nat.le_succ_of_le (htouch.bounded k hk)
      · exact Nat.le_refl _
  · have hsettled : ∀ t ∈ c.threads, t.settled c.clock.advanced =
        ((t.settled c.clock).onTick (c.clock.tick + 1)).2 := fun t ht => by
      rw [UnitThread.settled, hqueue t ht, Countdown.after_append]
      rfl
    show UnitPool.mk _ _ = UnitPool.mk _ _
    rw [pool, List.map_map]
    exact congrArg (UnitPool.mk · c.next) (List.map_congr_left hsettled)
  · have hcoming : ∀ t ∈ c.threads, t.coming c.clock.advanced =
        ((t.settled c.clock).onTick (c.clock.tick + 1)).1.toList := fun t ht => by
      have hold : t.commanded.reportsOf (c.clock.queue t.mailbox) = [] := hnone t ht
      rw [UnitThread.coming, hqueue t ht, Countdown.reportsOf_append, hold, List.nil_append,
        Countdown.reportsOf_cons, Countdown.reportsOf_nil, List.append_nil]
      rfl
    show c.reports ++ c.threads.flatMap _ = (c.threads.map _).filterMap _
    rw [hreports, List.nil_append, List.flatMap_congr hcoming, List.filterMap_map,
      List.filterMap_eq_flatMap_toList]
    rfl

/-! ## Starting a unit -/

/-- A unit with a new number and a new mailbox joins a crew. -/
theorem Orderly.extend (h : c.Orderly none) {d : UnitThread} (hunit : d.unit = c.next)
    (hnew : d.mailbox ∉ c.threads.map UnitThread.mailbox) (htouch : d.InTouch c.clock)
    (hidle : d.Idle) :
    { c with threads := c.threads ++ [d], next := c.next + 1 }.Orderly none := by
  have hmem : ∀ t ∈ c.threads ++ [d], t ∈ c.threads ∨ t = d := by
    intro t ht
    rwa [List.mem_append, List.mem_singleton] at ht
  refine ⟨fun _ _ hx => absurd hx (by simp), h.running, ?_, ?_, ?_, ?_, ?_⟩
  · show ((c.threads ++ [d]).map UnitThread.unit).Nodup
    rw [List.map_append, List.map_singleton, ← List.concat_eq_append, List.nodup_concat]
    refine ⟨?_, h.units⟩
    intro hold
    obtain ⟨t, ht, heq⟩ := List.mem_map.mp hold
    exact Nat.lt_irrefl _ ((heq.trans hunit) ▸ h.older t ht)
  · intro t ht
    rcases hmem t ht with hold | rfl
    · exact Nat.lt_succ_of_lt (h.older t hold)
    · rw [hunit]
      exact Nat.lt_succ_self _
  · show ((c.threads ++ [d]).map UnitThread.mailbox).Nodup
    rw [List.map_append, List.map_singleton, ← List.concat_eq_append, List.nodup_concat]
    exact ⟨hnew, h.mailboxes⟩
  · intro t ht
    rcases hmem t ht with hold | rfl
    · exact h.inTouch t hold
    · exact htouch
  · intro t ht
    rcases hmem t ht with hold | rfl
    · exact h.serves t hold
    · exact hidle

/-- A new unit listens from the next tick on. -/
theorem Orderly.start (h : c.Orderly none) (remaining : Nat) (tick : Tick) :
    (c.start remaining tick).1 = (c.pool.start remaining tick).1 ∧
      (c.start remaining tick).2.Orderly none ∧
      (c.start remaining tick).2.pool = (c.pool.start remaining tick).2 ∧
      (c.start remaining tick).2.coming = c.coming ∧ c.Apart (c.start remaining tick).2 := by
  obtain ⟨hopen, hqueue⟩ := Clock.open_subscribe h.running
  obtain ⟨horderly, hpool, hcoming⟩ := h.withClock c.clock.subscribe.2 rfl rfl
    (by simp [Clock.subscribe]) fun t ht => Clock.mailbox?_subscribe_of_lt (h.inTouch t ht).known
  generalize hd : (⟨.start c.next remaining tick, [], [], c.clock.mailboxes.length, false⟩ :
    UnitThread) = d
  have hunit : d.unit = c.next := by rw [← hd]; rfl
  have hmailbox : d.mailbox = c.clock.mailboxes.length := by rw [← hd]
  have hidle : d.Idle := by rw [← hd]; exact ⟨rfl, rfl, rfl⟩
  have hcommanded : d.commanded = .start c.next remaining tick := by rw [← hd]; rfl
  have hempty : c.clock.subscribe.2.queue d.mailbox = [] := by rw [hmailbox]; exact hqueue
  have hnew : d.mailbox ∉ c.threads.map UnitThread.mailbox := by
    intro hold
    obtain ⟨t, ht, heq⟩ := List.mem_map.mp hold
    exact Nat.lt_irrefl _ ((heq.trans hmailbox) ▸ (h.inTouch t ht).known)
  have htouch : d.InTouch c.clock.subscribe.2 := by
    refine ⟨?_, ?_, fun _ => hempty, fun k hk => absurd (hempty ▸ hk) List.not_mem_nil⟩
    · rw [hmailbox]
      exact hopen.lt
    · intro _
      rw [hmailbox]
      exact hopen
  have hstart : (c.start remaining tick).2 =
      ⟨c.clock.subscribe.2, c.threads ++ [d], c.next + 1, c.reports⟩ := by
    rw [← hd]
    rfl
  refine ⟨rfl, ?_, ?_, ?_, ?_⟩ <;> rw [hstart]
  · exact horderly.extend hunit hnew htouch hidle
  · have hsettled : d.settled c.clock.subscribe.2 = .start c.next remaining tick := by
      rw [UnitThread.settled, hempty, hcommanded, Countdown.after_nil]
    show UnitPool.mk ((c.threads ++ [d]).map _) _ = _
    rw [List.map_append, List.map_singleton, hsettled]
    exact congrArg (fun p => (UnitPool.start p remaining tick).2) hpool
  · have hnone : d.coming c.clock.subscribe.2 = [] := by
      rw [UnitThread.coming, hempty, Countdown.reportsOf_nil]
    show c.reports ++ (c.threads ++ [d]).flatMap _ = _
    rw [List.flatMap_append, List.flatMap_singleton, hnone, List.append_nil]
    exact hcoming
  · refine ⟨rfl, rfl, fun i hi => ⟨⟨Nat.lt_trans hi.1 hopen.lt, ?_⟩,
      Clock.mailbox?_subscribe_of_lt hi.1⟩⟩
    show i ∉ (c.threads ++ [d]).map UnitThread.mailbox
    rw [List.map_append, List.map_singleton, hmailbox, List.mem_append, List.mem_singleton, not_or]
    exact ⟨hi.2, Nat.ne_of_lt hi.1⟩

/-! ## Commands -/

/-- A command to a unit that does not exist is refused. -/
theorem send_unknown (hfind : c.find? u = none) (x : UnitCommand) :
    c.send u x = .error (.unit (.unknown u)) ∧ c.pool.command u x = .error (.unit (.unknown u)) := by
  rw [send, UnitPool.command, find?_pool, hfind]
  exact ⟨rfl, rfl⟩

/-- The pool in which one unit has changed. -/
theorem Replaced.pool_tell {before after : List UnitThread}
    (hr : Replaced c c' before t t' after) (h : c.Orderly errand) (hunit : t.unit = u)
    (hother : ∀ d ∈ before ++ after, d.unit ≠ u)
    (htold : t'.settled c'.clock = ((t.settled c.clock).onCommand x).2) :
    c'.pool = c.pool.tell u x := by
  have hkeep : ∀ ds : List UnitThread, (∀ d ∈ ds, d ∈ before ++ after) →
      (ds.map (·.settled c.clock)).map
        (fun d => if d.unit == u then (d.onCommand x).2 else d) = ds.map (·.settled c.clock) := by
    intro ds hds
    rw [List.map_map]
    refine List.map_congr_left fun d hd => if_neg ?_
    rw [UnitThread.settled_unit]
    simp [hother d (hds d hd)]
  rw [pool, pool, UnitPool.tell, hr.threads, hr.threads', hr.next]
  simp only [List.map_append, List.map_cons]
  rw [hkeep before fun d hd => List.mem_append_left _ hd,
    hkeep after fun d hd => List.mem_append_right _ hd, UnitThread.settled_unit, hunit,
    if_pos (by simp), htold, hr.map_settled h fun d hd => List.mem_append_left _ hd,
    hr.map_settled h fun d hd => List.mem_append_right _ hd]

/-- **A command that is sent while no report is to come is as good as carried out.** -/
theorem Orderly.send (h : c.Orderly none) (hquiet : c.coming = []) (hx : x.Quiets c.clock.tick)
    (hfind : c.find? u = some t) :
    ∃ c', c.send u x = .ok c' ∧ c.pool.command u x = .ok c'.pool ∧ c'.pool = c.pool.tell u x ∧
      c'.Orderly (some (u, x)) ∧ c'.coming = [] ∧ c.Apart c' := by
  obtain ⟨hmem, hunit⟩ := mem_of_find? hfind
  have hidle : t.Idle := h.serves t hmem
  have hnone := (coming_eq_nil_iff.mp hquiet).2 t hmem
  have hsettled : t.settled c.clock = t.countdown :=
    (UnitThread.settled_of_coming_nil hnone).trans (UnitThread.commanded_of_nil hidle.commands)
  have hbefore : t.countdown.reportsOf (c.clock.queue t.mailbox) = [] := by
    rw [UnitThread.coming, UnitThread.commanded_of_nil hidle.commands] at hnone
    exact hnone
  generalize ht' : ({ t with commands := t.commands ++ [x] } : UnitThread) = t'
  have hcommands : t'.commands = [x] := by rw [← ht', hidle.commands]; rfl
  have hcountdown : t'.countdown = t.countdown := by rw [← ht']
  have hmailbox : t'.mailbox = t.mailbox := by rw [← ht']
  have hacks : t'.acks = [] := by rw [← ht']; exact hidle.acks
  have hended : t'.ended = false := by rw [← ht']; exact hidle.running
  have hunit' : t'.unit = t.unit := by rw [← ht']; rfl
  have hcommanded : t'.commanded = (t.countdown.onCommand x).2 := by
    rw [UnitThread.commanded_of_singleton hcommands, hcountdown]
  have htouch := h.inTouch t hmem
  have hafter := hx.reportsOf htouch.bounded hbefore
  have hsame := Countdown.after_of_reportsOf_nil hafter
  have hsend : c.send u x = .ok (c.update t') := by
    rw [Crew.send, hfind, ← ht']
  obtain ⟨before, after, hother, hr⟩ := h.replaced_update hfind hunit' hmailbox c.clock c.reports
    rfl rfl rfl rfl fun _ _ => rfl
  have htold : c.pool.command u x = .ok (c.pool.tell u x) :=
    UnitPool.command_eq ((find?_pool c u).trans (congrArg _ hfind)) x
  have hpool := hr.pool_tell h hunit hother (by
    show t'.settled c.clock = _
    rw [UnitThread.settled, hcommanded, hmailbox, hsame, hsettled])
  refine ⟨_, hsend, htold.trans (congrArg _ hpool.symm), hpool,
    hr.orderly h ?_ ?_ ?_ ?_, ?_, hr.apart⟩
  · intro v y hv
    obtain ⟨rfl, -⟩ := Prod.mk.inj (Option.some.inj hv)
    exact hunit ▸ List.mem_map_of_mem hmem
  · exact htouch.of_running hmailbox hidle.running hended
  · exact UnitThread.serves_carries (hunit'.trans hunit) (.sent hcommands hacks hended
      (hmailbox ▸ hcountdown ▸ hbefore) (hmailbox ▸ hcountdown ▸ hafter))
  · intro d hd ticks hserves
    exact UnitThread.serves_of_ne (hother d hd) hserves
  · have hperm := hr.coming_perm h (List.Perm.append_left _ (by
      show (t'.coming c.clock).Perm _
      rw [UnitThread.coming, hcommanded, hmailbox, hafter, hnone]))
    rw [hquiet] at hperm
    exact hperm.eq_nil

/-- An answer is that of the unit in the pool, and with it the errand is done. -/
theorem Orderly.takeAck {ack : UnitAck} (h : c.Orderly (some (u, x)))
    (hack : c.takeAck? u = some (ack, c')) :
    (∃ d, c.pool.find? u = some d ∧ (d.onCommand x).1 = some ack) ∧ c.Heeded none c' := by
  unfold takeAck? at hack
  split at hack
  · rename_i t hfind
    split at hack
    · rename_i ack' rest hacks
      obtain ⟨rfl, rfl⟩ := Prod.mk.inj (Option.some.inj hack)
      obtain ⟨hmem, hunit⟩ := mem_of_find? hfind
      have htouch := h.inTouch t hmem
      cases (h.serves t hmem).carries hunit with
      | sent hsent hnone hrunning hbefore hafter => exact absurd (hnone.symm.trans hacks) (by simp)
      | answered d hnone hanswer hended hleft hsilent =>
        have hanswered : (d.onCommand x).1 = some ack' ∧ rest = [] := by
          rw [hacks] at hanswer
          cases hack : (d.onCommand x).1 with
          | none => exact absurd (hack ▸ hanswer) (by simp)
          | some ack =>
            obtain ⟨rfl, hrest⟩ := List.cons.inj (hack ▸ hanswer)
            exact ⟨rfl, hrest⟩
        have hidle : UnitThread.Idle { t with acks := rest } :=
          ⟨hnone, hanswered.2, hended.trans (by rw [hanswered.1]; rfl)⟩
        obtain ⟨before, after, hother, hr⟩ := h.replaced_update hfind
          (show UnitThread.unit { t with acks := rest } = t.unit from rfl) rfl c.clock c.reports rfl
          rfl rfl rfl fun _ _ => rfl
        -- it has not changed since it answered
        have hsettled : t.settled c.clock = t.countdown := by
          rw [UnitThread.settled, UnitThread.commanded_of_nil hnone,
            Countdown.after_of_reportsOf_nil hsilent]
        refine ⟨⟨t.countdown, ?_, ?_⟩, hr.orderly h (fun _ _ hx => absurd hx (by simp)) ?_ hidle
          fun d hd ticks hserves => hserves.idle_of_ne (hother d hd), hr.pool_eq h rfl,
          hr.coming_perm h (List.Perm.refl _), hr.apart, hr.load_lt h ?_⟩
        · rw [find?_pool, hfind, Option.map_some, hsettled]
        · exact (Countdown.onCommand_ack hleft x).symm.trans hanswered.1
        · exact ⟨htouch.known, htouch.listens, htouch.hungUp, htouch.bounded⟩
        · show 2 * t.commands.length + rest.length + _ < 2 * t.commands.length + t.acks.length + _
          rw [hacks, List.length_cons]
          exact Nat.add_lt_add_right (Nat.lt_succ_self _) _
    · exact absurd hack (by simp)
  · exact absurd hack (by simp)

/-! ## Releasing a unit -/

/-- A unit that has ended can be released, and no report is lost. -/
theorem Orderly.join (h : c.Orderly (some (u, .stop))) (hjoin : c.join? u = some c') :
    c'.Orderly none ∧ c'.pool = c.pool.drop u ∧ c'.coming = c.coming ∧ c.Apart c' := by
  unfold join? at hjoin
  split at hjoin
  · rename_i t hfind
    split at hjoin
    · rename_i hended
      obtain rfl := Option.some.inj hjoin
      obtain ⟨hmem, hunit⟩ := mem_of_find? hfind
      obtain ⟨before, after, hthreads, hother⟩ := h.split hfind
      have hkept : ∀ d ∈ c.threads.filter fun t => t.unit != u, d ∈ c.threads ∧ d.unit ≠ u :=
        fun d hd => by simpa using List.mem_filter.mp hd
      refine ⟨⟨fun _ _ hx => absurd hx (by simp), h.running, h.units.sublist
        (List.filter_sublist.map _), fun d hd => h.older d (hkept d hd).1, h.mailboxes.sublist
        (List.filter_sublist.map _), fun d hd => h.inTouch d (hkept d hd).1, fun d hd =>
        (h.serves d (hkept d hd).1).idle_of_ne (hkept d hd).2⟩, ?_, ?_, ?_⟩
      · show UnitPool.mk ((c.threads.filter _).map _) _ = UnitPool.mk ((c.threads.map _).filter _) _
        rw [List.filter_map]
        refine congrArg (fun f => UnitPool.mk ((c.threads.filter f).map _) _) (funext ?_)
        intro d
        exact congrArg (· != u) (UnitThread.settled_unit c.clock d).symm
      · have hnone : t.coming c.clock = [] := by
          rw [UnitThread.coming, (h.inTouch t hmem).hungUp hended, Countdown.reportsOf_nil]
        have hkeep : ∀ ds : List UnitThread, (∀ d ∈ ds, d.unit ≠ u) →
            ds.filter (fun t => t.unit != u) = ds := fun ds hds =>
          List.filter_eq_self.mpr fun d hd => by simpa using hds d hd
        show c.reports ++ (c.threads.filter _).flatMap _ = c.reports ++ c.threads.flatMap _
        rw [hthreads, List.filter_append, List.filter_cons_of_neg (by simp [hunit]),
          hkeep before fun d hd => hother d (List.mem_append_left _ hd),
          hkeep after fun d hd => hother d (List.mem_append_right _ hd), List.flatMap_append,
          List.flatMap_append, List.flatMap_cons, hnone, List.nil_append]
      · exact ⟨rfl, rfl, fun i hi => ⟨⟨hi.1, fun hmem =>
          hi.2 ((List.filter_sublist.map _).subset hmem)⟩, rfl⟩⟩
    · exact absurd hjoin (by simp)
  · exact absurd hjoin (by simp)

/-! ## Waiting for an answer -/

/-- **While an answer is awaited, it has come or the unit need not wait**; the answer to the command
to stop is that the unit has ended. -/
theorem Orderly.answered_or_step (h : c.Orderly (some (u, x))) :
    (c.step? u .commands).isSome = true ∨ (∃ ack c', c.takeAck? u = some (ack, c')) ∨
      x = .stop ∧ (c.join? u).isSome = true := by
  obtain ⟨t, ht, hunit⟩ := List.mem_map.mp (h.awaited u x rfl)
  have hfind : c.find? u = some t := hunit ▸ h.find?_unit ht
  cases (h.serves t ht).carries hunit with
  | sent hsent hacks hrunning hbefore hafter =>
    exact Or.inl (step?_commands hfind (by simp [hsent]) hrunning)
  | answered d hnone hacks hended hleft hsilent =>
    refine Or.inr ?_
    rw [takeAck?, join?, hfind]
    cases x with
    | pause =>
      refine Or.inl ⟨.paused d.remaining, c.update { t with acks := [] }, ?_⟩
      simp [hacks, Countdown.onCommand]
    | resume after =>
      refine Or.inl ⟨.resumed d.remaining, c.update { t with acks := [] }, ?_⟩
      simp [hacks, Countdown.onCommand]
    | stop => exact Or.inr ⟨rfl, by simp [hended, Countdown.onCommand]⟩

end Crew
end Uniprocessor
