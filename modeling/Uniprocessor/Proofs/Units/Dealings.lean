import Mathlib.Data.Prod.Lex
import Mathlib.Logic.Relation
import Mathlib.Order.WellFounded
import Uniprocessor.Proofs.Units.Caller
import Uniprocessor.Units.Dealings

/-!
# Units on threads answer as a pool does

What a caller will be told is settled before anybody moves: it is what the pool that its crew comes to
will answer (`Dealings.prospect`).  With every step of the caller an answer goes from what it will be
told to what it has been told, and no step of a unit changes either, whatever the unit takes first.

The caller has to keep one rule: it does not have a unit resumed as of a tick that has passed.  For a
paused unit may have any number of ticks before it that it has not read, and when it is resumed it
may still read them; the resumed unit ignores them because they are not after the tick it is resumed
as of.

* `Answer.Same`: answers that differ at most in the order of the reports;
* `Dealings.Regular`, `Regular.step`: the invariant, and what every step does to it;
* `Regular.goes`: somebody can go on until the caller has all answers;
* `Dealings.steps_confluent`: **in every order of steps the caller is told what a pool would say**.
-/

namespace Uniprocessor

/-- Two answers that say the same: in which order the reports of a tick come in does not matter. -/
inductive Answer.Same : Answer → Answer → Prop
  | refl (a : Answer) : Same a a
  | reports (tick : Tick) {rs rs' : List UnitReport} (h : rs.Perm rs') :
      Same (.reports tick rs) (.reports tick rs')

namespace Answer

theorem Same.trans {a b c : Answer} (h : Same a b) (h' : Same b c) : Same a c := by
  cases h with
  | refl => exact h'
  | reports tick hperm =>
    cases h' with
    | refl => exact .reports tick hperm
    | reports _ hperm' => exact .reports tick (hperm.trans hperm')

theorem same_refl (as : List Answer) : List.Forall₂ Same as as :=
  List.forall₂_same.mpr fun a _ => .refl a

theorem same_trans {as bs cs : List Answer} (h : List.Forall₂ Same as bs)
    (h' : List.Forall₂ Same bs cs) : List.Forall₂ Same as cs := by
  induction h generalizing cs with
  | nil => exact h'
  | cons hab _ ih =>
    cases h' with
    | cons hbc hrest => exact .cons (hab.trans hbc) (ih hrest)

end Answer

namespace Request

/-- No unit is resumed as of a tick that has passed. -/
def Timely (tick : Tick) : Request → Prop
  | resume _ after => tick ≤ after
  | _ => True

/-- The same for requests that are made one after the other. -/
def AllTimely : Tick → List Request → Prop
  | _, [] => True
  | tick, r :: rs => r.Timely tick ∧ AllTimely (r.after tick) rs

end Request

namespace Awaited

/-- The unit and the command whose answer is awaited. -/
def errand : Awaited → Errand
  | answer unit x => some (unit, x)
  | _ => none

/-- The answer that is awaited from a crew, and the pool that there will be with it. -/
def outcome (c : Crew) : Awaited → List Answer × UnitPool
  | nothing => ([], c.pool)
  | answer unit .stop => ([.released], c.pool.drop unit)
  | answer unit x =>
    ([.acknowledged ((c.pool.find? unit).bind fun d => (d.onCommand x).1)], c.pool)
  | reports tick _ taken => ([.reports tick (taken ++ c.coming)], c.pool)

/-- The reports to come are those that are awaited. -/
def Expects (coming : List UnitReport) : Awaited → Prop
  | reports _ due taken => due = taken.length + coming.length
  | _ => coming = []

/-- How much is still to be taken until the answer is there. -/
def rank : Awaited → Nat
  | nothing => 0
  | answer _ _ => 1
  | reports _ due taken => due - taken.length + 1

variable {a : Awaited} {c c' : Crew} {coming coming' : List UnitReport}

/-- The answer that is awaited does not depend on how far the units have got. -/
theorem outcome_congr (a : Awaited) (hpool : c'.pool = c.pool) (hcoming : c'.coming.Perm c.coming) :
    List.Forall₂ Answer.Same (a.outcome c').1 (a.outcome c).1 ∧
      (a.outcome c').2 = (a.outcome c).2 := by
  cases a with
  | nothing => exact ⟨.nil, hpool⟩
  | answer unit x =>
    have hsame : outcome c' (answer unit x) = outcome c (answer unit x) := by
      cases x <;> simp only [outcome, hpool]
    rw [hsame]
    exact ⟨Answer.same_refl _, rfl⟩
  | reports tick due taken =>
    exact ⟨.cons (.reports tick (hcoming.append_left taken)) .nil, hpool⟩

theorem Expects.congr (h : a.Expects coming) (hcoming : coming'.Perm coming) :
    a.Expects coming' := by
  have hnone : coming = [] → coming' = [] := fun hnil => (hnil ▸ hcoming).eq_nil
  cases a with
  | reports tick due taken =>
    show due = taken.length + coming'.length
    rw [hcoming.length_eq]
    exact h
  | nothing => exact hnone h
  | answer unit x => exact hnone h

end Awaited

namespace Dealings

/-- Some party that need not wait has made a step. -/
def Step (s s' : Dealings) : Prop :=
  ∃ party, s.step? party = some s'

/-- What the caller will still be told. -/
def prospect (s : Dealings) : List Answer :=
  (s.awaited.outcome s.crew).1 ++
    (s.awaited.outcome s.crew).2.answers s.crew.clock.tick s.requests

/-- The order in which a caller deals with its crew. -/
structure Regular (s : Dealings) : Prop where
  orderly : s.crew.Orderly s.awaited.errand
  pool : s.pool = (s.awaited.outcome s.crew).2
  expects : s.awaited.Expects s.crew.coming
  timely : Request.AllTimely s.crew.clock.tick s.requests

/-- What is still to be done: first of all the requests, then what is awaited, then what the units
have before them. -/
def toDo (s : Dealings) : ℕ ×ₗ ℕ ×ₗ ℕ :=
  toLex (s.requests.length, toLex (s.awaited.rank, s.crew.load))

/-- A step that keeps the order, leads to the same answers and leaves less to do. -/
structure Leads (s s' : Dealings) : Prop where
  regular : s'.Regular
  answers : List.Forall₂ Answer.Same (s'.answers ++ s'.prospect) (s.answers ++ s.prospect)
  lighter : s'.toDo < s.toDo

variable {s s' : Dealings} {r : Request} {rest : List Request} {crew : Crew} {unit : UnitId}
  {x : UnitCommand}

theorem regular_start {clock : Clock} {requests : List Request} (hrun : clock.stopped = false)
    (htimely : Request.AllTimely clock.tick requests) : (start clock requests).Regular :=
  ⟨Crew.orderly_ofClock hrun, rfl, rfl, htimely⟩

/-! ## Requests -/

/-- A request has been made: its answer has been given, or is awaited, and the crew has come to what
the pool has. -/
structure Asked (s : Dealings) (r : Request) (s' : Dealings) : Prop where
  orderly : s'.crew.Orderly s'.awaited.errand
  expects : s'.awaited.Expects s'.crew.coming
  tick : s'.crew.clock.tick = r.after s.crew.clock.tick
  answers : s'.answers ++ (s'.awaited.outcome s'.crew).1 =
    s.answers ++ [(s.crew.pool.answer s.crew.clock.tick r).1]
  pool : (s'.awaited.outcome s'.crew).2 = (s.crew.pool.answer s.crew.clock.tick r).2

/-- A request that is answered at once. -/
theorem asked_conclude (horderly : crew.Orderly none) (hcoming : crew.coming = [])
    (htick : crew.clock.tick = r.after s.crew.clock.tick) {a : Answer}
    (hanswer : (s.crew.pool.answer s.crew.clock.tick r).1 = a)
    (hpool : crew.pool = (s.crew.pool.answer s.crew.clock.tick r).2) :
    s.Asked r (s.conclude crew a) :=
  ⟨horderly, hcoming, htick, by rw [hanswer]; exact List.append_nil _, hpool⟩

/-- A request that does nothing to the crew. -/
theorem asked_read (horderly : s.crew.Orderly none) (hcoming : s.crew.coming = []) {a : Answer}
    (hanswer : s.crew.pool.answer s.crew.clock.tick r = (a, s.crew.pool))
    (htick : r.after s.crew.clock.tick = s.crew.clock.tick) :
    s.Asked r (s.conclude s.crew a) :=
  asked_conclude horderly hcoming htick.symm (congrArg Prod.fst hanswer)
    (congrArg Prod.snd hanswer).symm

/-- A command that is sent to a unit. -/
theorem asked_tell (horderly : s.crew.Orderly none) (hcoming : s.crew.coming = [])
    (hx : x.Quiets s.crew.clock.tick) (htick : r.after s.crew.clock.tick = s.crew.clock.tick)
    (hunknown : s.crew.pool.find? unit = none →
      s.crew.pool.answer s.crew.clock.tick r = (.refused (.unit (.unknown unit)), s.crew.pool))
    (hknown : ∀ crew : Crew, crew.pool = s.crew.pool.tell unit x →
      (∃ d, s.crew.pool.find? unit = some d) →
      (Awaited.outcome crew (.answer unit x)).1 = [(s.crew.pool.answer s.crew.clock.tick r).1] ∧
        (Awaited.outcome crew (.answer unit x)).2 = (s.crew.pool.answer s.crew.clock.tick r).2) :
    s.Asked r (s.tell unit x) := by
  cases hfind : s.crew.find? unit with
  | none =>
    have hnone : s.crew.pool.find? unit = none := by rw [Crew.find?_pool, hfind, Option.map_none]
    rw [tell, (Crew.send_unknown hfind x).1]
    exact asked_read horderly hcoming (hunknown hnone) htick
  | some t =>
    obtain ⟨crew, hsend, -, hpool, hsent, hquiet, hapart⟩ := horderly.send hcoming hx hfind
    have hsome : ∃ d, s.crew.pool.find? unit = some d :=
      ⟨t.settled s.crew.clock, by rw [Crew.find?_pool, hfind, Option.map_some]⟩
    obtain ⟨hanswer, hnext⟩ := hknown crew hpool hsome
    rw [tell, hsend]
    exact ⟨hsent, hquiet, hapart.tick.trans htick.symm, congrArg _ hanswer, hnext⟩

/-- A pause or a resume. -/
theorem asked_obey (horderly : s.crew.Orderly none) (hcoming : s.crew.coming = [])
    (hx : x.Quiets s.crew.clock.tick) (hstop : x ≠ .stop)
    (htick : r.after s.crew.clock.tick = s.crew.clock.tick)
    (hobey : s.crew.pool.answer s.crew.clock.tick r = s.crew.pool.obey unit x) :
    s.Asked r (s.tell unit x) := by
  refine asked_tell horderly hcoming hx htick ?_ ?_
  · intro hnone
    rw [hobey, UnitPool.obey, UnitPool.command, hnone]
  · rintro crew hpool ⟨d, hd⟩
    have hack : ((d.onCommand x).2.onCommand x).1 = (d.onCommand x).1 :=
      Countdown.onCommand_ack (d.onCommand_remaining x) x
    have houtcome : Awaited.outcome crew (.answer unit x) =
        ([.acknowledged ((crew.pool.find? unit).bind fun d => (d.onCommand x).1)], crew.pool) := by
      cases x with
      | stop => exact absurd rfl hstop
      | _ => rfl
    rw [houtcome, hobey, UnitPool.obey, UnitPool.command_eq hd, hpool,
      UnitPool.find?_tell_self hd, hd]
    exact ⟨by simp [hack], rfl⟩

theorem asked_reap (horderly : s.crew.Orderly none) (hcoming : s.crew.coming = []) :
    s.Asked (.reap unit) (s.tell unit .stop) := by
  refine asked_tell horderly hcoming (UnitCommand.quiets_stop _) rfl ?_ ?_
  · intro hnone
    rw [UnitPool.answer, UnitPool.reap, hnone]
  · rintro crew hpool ⟨d, hd⟩
    rw [Awaited.outcome, hpool, UnitPool.tell_stop, UnitPool.answer, UnitPool.reap_eq hd]
    exact ⟨rfl, rfl⟩

/-- The clock is moved, and the pool says how many reports are due. -/
theorem asked_advance (horderly : s.crew.Orderly none) (hcoming : s.crew.coming = []) :
    s.Asked .advance
      (s.advance (s.crew.pool.advance (s.crew.clock.tick + 1)).1.length) := by
  obtain ⟨horderly', hpool, hreports⟩ := horderly.advance hcoming
  rw [advance, Clock.advance?_eq horderly.running]
  refine ⟨horderly', ?_, rfl, congrArg (s.answers ++ [.reports (s.crew.clock.tick + 1) ·]) ?_, hpool⟩
  · show _ = 0 + List.length _
    rw [Nat.zero_add]
    exact (congrArg List.length hreports).symm
  · exact hreports

/-- **What the caller asks of its crew is what it asks of the pool.** -/
theorem asked_make (horderly : s.crew.Orderly none) (hcoming : s.crew.coming = [])
    (hpool : s.pool = s.crew.pool) (htimely : r.Timely s.crew.clock.tick) :
    s.Asked r (s.make r) := by
  cases r with
  | start remaining since =>
    obtain ⟨hnumber, horderly', hpool', hcoming', hapart⟩ := horderly.start remaining since
    exact asked_conclude horderly' (hcoming'.trans hcoming) (r := .start remaining since)
      hapart.tick (congrArg Answer.started hnumber.symm) hpool'
  | pause unit =>
    exact asked_obey horderly hcoming (UnitCommand.quiets_pause _) (by simp) rfl rfl
  | resume unit after =>
    exact asked_obey horderly hcoming (UnitCommand.quiets_resume htimely) (by simp) rfl rfl
  | reap unit => exact asked_reap horderly hcoming
  | remaining unit =>
    refine asked_read horderly hcoming ?_ rfl
    rw [Crew.remaining_eq hcoming]
    rfl
  | size =>
    refine asked_read horderly hcoming ?_ rfl
    show (Answer.live (s.crew.threads.map _).length, _) = _
    rw [List.length_map]
    rfl
  | advance =>
    rw [make, hpool]
    exact asked_advance horderly hcoming

/-- The pool of the caller does not concern the crew. -/
theorem Asked.withPool (h : s.Asked r s') (pool : UnitPool) :
    s.Asked r { s' with pool := pool } :=
  ⟨h.orderly, h.expects, h.tick, h.answers, h.pool⟩

theorem requests_make (s : Dealings) (r : Request) : (s.make r).requests = s.requests := by
  have htell : ∀ unit x, (s.tell unit x).requests = s.requests := by
    intro unit x
    rw [tell]
    split <;> rfl
  cases r <;> first | rfl | exact htell _ _

theorem Regular.leads_ask (h : s.Regular) (hawaited : s.awaited = .nothing)
    (hrequests : s.requests = r :: rest) :
    s.Leads ({ s with requests := rest }.ask r) := by
  have horderly : s.crew.Orderly none := by
    have horder := h.orderly
    rwa [hawaited] at horder
  have hcoming : s.crew.coming = [] := by
    have hexpects := h.expects
    rwa [hawaited] at hexpects
  have hpool : s.pool = s.crew.pool := by
    have hsame := h.pool
    rwa [hawaited] at hsame
  have htimely := h.timely
  rw [hrequests] at htimely
  have hasked := (asked_make (s := { s with requests := rest }) horderly hcoming hpool
    htimely.1).withPool ({ s with requests := rest }.pool.answer s.crew.clock.tick r).2
  have hrest : ({ s with requests := rest }.ask r).requests = rest := requests_make _ r
  generalize hs' : { s with requests := rest }.ask r = s' at hrest ⊢
  have hasked : Asked { s with requests := rest } r s' := hs' ▸ hasked
  have htwin : s'.pool = (s.pool.answer s.crew.clock.tick r).2 := by
    rw [← hs']
    rfl
  refine ⟨⟨hasked.orderly, ?_, hasked.expects, ?_⟩, ?_, ?_⟩
  · rw [htwin, hpool, hasked.pool]
  · rw [hasked.tick, hrest]
    exact htimely.2
  · have hbefore : s.prospect = (s.crew.pool.answer s.crew.clock.tick r).1 ::
        (s.crew.pool.answer s.crew.clock.tick r).2.answers (r.after s.crew.clock.tick) rest := by
      rw [prospect, hawaited, hrequests]
      rfl
    rw [hbefore, prospect, ← List.append_assoc, hasked.answers, hasked.pool, hasked.tick, hrest,
      List.append_assoc]
    exact Answer.same_refl _
  · rw [toDo, toDo, Prod.Lex.toLex_lt_toLex, hrest, hrequests]
    exact Or.inl (Nat.lt_succ_self _)

/-! ## Answers -/

/-- The caller has been told what it waited for. -/
theorem Regular.leads_conclude (h : s.Regular) (horderly : crew.Orderly none)
    (hcoming : crew.coming = []) (htick : crew.clock.tick = s.crew.clock.tick) {a : Answer}
    (hanswer : (s.awaited.outcome s.crew).1 = [a])
    (hpool : crew.pool = (s.awaited.outcome s.crew).2) (hrank : 0 < s.awaited.rank) :
    s.Leads (s.conclude crew a) := by
  refine ⟨⟨horderly, h.pool.trans hpool.symm, hcoming, ?_⟩, ?_, ?_⟩
  · show Request.AllTimely crew.clock.tick s.requests
    rw [htick]
    exact h.timely
  · rw [prospect, prospect, hanswer, ← hpool, ← htick, ← List.append_assoc, ← List.append_assoc]
    show List.Forall₂ _ (((s.answers ++ [a]) ++ []) ++ _) _
    rw [List.append_nil]
    exact Answer.same_refl _
  · rw [toDo, toDo, Prod.Lex.toLex_lt_toLex, Prod.Lex.toLex_lt_toLex]
    exact Or.inr ⟨rfl, Or.inl hrank⟩

theorem Regular.leads_join (h : s.Regular) (hawaited : s.awaited = .answer unit .stop)
    (hjoin : s.crew.join? unit = some crew) : s.Leads (s.conclude crew .released) := by
  have horderly := h.orderly
  have hexpects := h.expects
  rw [hawaited] at horderly hexpects
  obtain ⟨horderly', hpool, hcoming, hapart⟩ := Crew.Orderly.join horderly hjoin
  refine h.leads_conclude horderly' (hcoming.trans hexpects) hapart.tick ?_ ?_ ?_ <;> rw [hawaited]
  · rfl
  · exact hpool
  · exact Nat.one_pos

theorem Regular.leads_takeAck (h : s.Regular) (hawaited : s.awaited = .answer unit x)
    (hstop : x ≠ .stop) {ack : UnitAck} (hack : s.crew.takeAck? unit = some (ack, crew)) :
    s.Leads (s.conclude crew (.acknowledged (some ack))) := by
  have horderly := h.orderly
  have hexpects := h.expects
  rw [hawaited] at horderly hexpects
  obtain ⟨⟨d, hd, hanswer⟩, hheeded⟩ := Crew.Orderly.takeAck horderly hack
  have hcoming : crew.coming = [] := hexpects.congr (a := .answer unit x) hheeded.coming
  have houtcome : Awaited.outcome s.crew (.answer unit x) =
      ([.acknowledged (some ack)], s.crew.pool) := by
    cases x with
    | stop => exact absurd rfl hstop
    | _ => simp only [Awaited.outcome, hd, Option.bind_some, hanswer]
  refine h.leads_conclude hheeded.orderly hcoming hheeded.apart.tick ?_ ?_ ?_ <;> rw [hawaited]
  · rw [houtcome]
  · rw [houtcome]
    exact hheeded.pool
  · exact Nat.one_pos

/-! ## Reports -/

variable {tick : Tick} {due : Nat} {taken : List UnitReport}

/-- As many reports have come in as the pool has given. -/
theorem Regular.leads_collected (h : s.Regular) (hawaited : s.awaited = .reports tick due taken)
    (hdue : taken.length = due) : s.Leads (s.conclude s.crew (.reports tick taken)) := by
  have horderly := h.orderly
  have hexpects := h.expects
  rw [hawaited] at horderly hexpects
  have hlength : due = taken.length + s.crew.coming.length := hexpects
  have hcoming : s.crew.coming = [] := List.eq_nil_of_length_eq_zero (by omega)
  refine h.leads_conclude horderly hcoming rfl ?_ ?_ ?_ <;> rw [hawaited]
  · rw [Awaited.outcome, hcoming, List.append_nil]
  · rfl
  · exact Nat.succ_pos _

/-- One more report has come in. -/
theorem Regular.leads_collect (h : s.Regular) (hawaited : s.awaited = .reports tick due taken)
    {report : UnitReport} {reports : List UnitReport}
    (hreports : s.crew.reports = report :: reports) :
    s.Leads { s with
      crew := { s.crew with reports := reports }
      awaited := .reports tick due (taken ++ [report]) } := by
  have horderly := h.orderly
  have hexpects := h.expects
  have hpool := h.pool
  rw [hawaited] at horderly hexpects hpool
  have hcoming : s.crew.coming = report :: { s.crew with reports := reports }.coming := by
    rw [Crew.coming, hreports]
    rfl
  have hdue : due = taken.length + ({ s.crew with reports := reports }.coming.length + 1) := by
    have hlength : due = taken.length + s.crew.coming.length := hexpects
    rw [hlength, hcoming, List.length_cons]
  refine ⟨⟨horderly.withReports reports, hpool, ?_, h.timely⟩, ?_, ?_⟩
  · show due = (taken ++ [report]).length + { s.crew with reports := reports }.coming.length
    rw [List.length_append, List.length_singleton]
    omega
  · rw [prospect, prospect, hawaited, Awaited.outcome, Awaited.outcome, hcoming,
      List.append_assoc taken]
    exact Answer.same_refl _
  · rw [toDo, toDo, Prod.Lex.toLex_lt_toLex, Prod.Lex.toLex_lt_toLex, hawaited]
    refine Or.inr ⟨rfl, Or.inl ?_⟩
    show due - (taken ++ [report]).length + 1 < due - taken.length + 1
    rw [List.length_append, List.length_singleton, hdue]
    omega

/-! ## Steps -/

/-- What a unit takes first does not matter to the caller. -/
theorem Regular.leads_unit (h : s.Regular) {source : Source}
    (hstep : s.crew.step? unit source = some crew) : s.Leads { s with crew := crew } := by
  have hheeded := h.orderly.step hstep
  obtain ⟨hanswer, hpool⟩ := s.awaited.outcome_congr hheeded.pool hheeded.coming
  refine ⟨⟨hheeded.orderly, h.pool.trans hpool.symm, h.expects.congr hheeded.coming, ?_⟩, ?_, ?_⟩
  · show Request.AllTimely crew.clock.tick s.requests
    rw [hheeded.apart.tick]
    exact h.timely
  · refine List.rel_append (Answer.same_refl _) (List.rel_append hanswer ?_)
    show List.Forall₂ _ (UnitPool.answers _ crew.clock.tick _) _
    rw [hpool, hheeded.apart.tick]
    exact Answer.same_refl _
  · rw [toDo, toDo, Prod.Lex.toLex_lt_toLex, Prod.Lex.toLex_lt_toLex]
    exact Or.inr ⟨rfl, Or.inr ⟨rfl, hheeded.lighter⟩⟩

theorem Regular.leads_caller (h : s.Regular) (hstep : s.callerStep? = some s') : s.Leads s' := by
  rw [callerStep?] at hstep
  split at hstep
  · rename_i hawaited
    split at hstep
    · rename_i r rest hrequests
      obtain rfl := Option.some.inj hstep
      exact h.leads_ask hawaited hrequests
    · exact absurd hstep (by simp)
  · rename_i unit hawaited
    obtain ⟨crew, hjoin, rfl⟩ := Option.map_eq_some_iff.mp hstep
    exact h.leads_join hawaited hjoin
  · rename_i unit x hstop hawaited
    obtain ⟨⟨ack, crew⟩, hack, rfl⟩ := Option.map_eq_some_iff.mp hstep
    exact h.leads_takeAck hawaited hstop hack
  · rename_i tick due taken hawaited
    split at hstep
    · rename_i hdue
      obtain rfl := Option.some.inj hstep
      exact h.leads_collected hawaited hdue
    · split at hstep
      · rename_i report reports hreports
        obtain rfl := Option.some.inj hstep
        exact h.leads_collect hawaited hreports
      · exact absurd hstep (by simp)

/-- **No step of any party changes what the caller will have been told.** -/
theorem Regular.step (h : s.Regular) (hstep : s.Step s') : s.Leads s' := by
  obtain ⟨party, hparty⟩ := hstep
  cases party with
  | caller => exact h.leads_caller hparty
  | unit unit source =>
    obtain ⟨crew, hcrew, rfl⟩ := Option.map_eq_some_iff.mp hparty
    exact h.leads_unit hcrew

/-! ## Going on -/

theorem goes_unit {source : Source} (h : (s.crew.step? unit source).isSome = true) :
    ∃ party, (s.step? party).isSome = true :=
  ⟨.unit unit source, by rw [step?, Option.isSome_map]; exact h⟩

/-- **Somebody can go on until the caller has all answers.** -/
theorem Regular.goes (h : s.Regular) (hover : s.isOver = false) :
    ∃ party, (s.step? party).isSome = true := by
  have horderly := h.orderly
  have hexpects := h.expects
  cases hawaited : s.awaited with
  | nothing =>
    cases hrequests : s.requests with
    | nil => exact absurd hover (by simp [isOver, hawaited, hrequests])
    | cons r rest => exact ⟨.caller, by simp [step?, callerStep?, hawaited, hrequests]⟩
  | answer unit x =>
    rw [hawaited] at horderly
    rcases Crew.Orderly.answered_or_step horderly with
      hunit | ⟨ack, crew, hack⟩ | ⟨rfl, hjoin⟩
    · exact goes_unit hunit
    · refine ⟨.caller, ?_⟩
      cases x with
      | stop =>
        -- a unit that has been told to stop acknowledges nothing
        obtain ⟨⟨d, -, hnone⟩, -⟩ := Crew.Orderly.takeAck horderly hack
        exact absurd hnone (by simp [Countdown.onCommand])
      | _ => simp [step?, callerStep?, hawaited, hack]
    · exact ⟨.caller, by simpa [step?, callerStep?, hawaited] using hjoin⟩
  | reports tick due taken =>
    rw [hawaited] at hexpects
    by_cases hdue : taken.length = due
    · exact ⟨.caller, by simp [step?, callerStep?, hawaited, hdue]⟩
    · have hlength : due = taken.length + s.crew.coming.length := hexpects
      have hcoming : s.crew.coming ≠ [] := fun hnone => hdue (by simp [hlength, hnone])
      rcases horderly.reports_or_step hcoming with hreports | ⟨unit, hunit⟩
      · obtain ⟨report, reports, hcons⟩ := List.exists_cons_of_ne_nil hreports
        exact ⟨.caller, by simp [step?, callerStep?, hawaited, hdue, hcons]⟩
      · exact goes_unit hunit

/-- An acknowledgement is taken before the next one is given. -/
theorem Regular.acks (h : s.Regular) : ∀ t ∈ s.crew.threads, t.acks.length ≤ 1 := by
  intro t ht
  have hserves := h.orderly.serves t ht
  have hidle : t.Idle → t.acks.length ≤ 1 := fun hi => by simp [hi.acks]
  cases herrand : s.awaited.errand with
  | none =>
    rw [herrand] at hserves
    exact hidle hserves
  | some errand =>
    rw [herrand] at hserves
    by_cases hunit : t.unit = errand.1
    · cases hserves.carries hunit with
      | sent _ hacks => simp [hacks]
      | answered _ _ hacks =>
        rw [hacks]
        exact Option.length_toList_le
    · exact hidle (hserves.idle_of_ne hunit)

/-! ## Whole runs -/

/-- What the caller has been told at some point, beside what a pool says to the same requests; no
unit ever has two acknowledgements to give. -/
structure Agrees (clock : Clock) (requests : List Request) (s : Dealings) : Prop where
  told : List.Forall₂ Answer.Same s.answers
    ((UnitPool.empty.answers clock.tick requests).take s.answers.length)
  complete : s.isOver = true →
    List.Forall₂ Answer.Same s.answers (UnitPool.empty.answers clock.tick requests)
  goes : s.isOver = false → ∃ party, (s.step? party).isSome = true
  acks : ∀ t ∈ s.crew.threads, t.acks.length ≤ 1

variable {clock : Clock} {requests : List Request}

theorem Regular.agrees (h : s.Regular)
    (hanswers : List.Forall₂ Answer.Same (s.answers ++ s.prospect)
      (UnitPool.empty.answers clock.tick requests)) : Agrees clock requests s where
  told := by
    have htaken := List.forall₂_take s.answers.length hanswers
    rwa [List.take_left' rfl] at htaken
  complete hover := by
    rw [isOver, Bool.and_eq_true, List.isEmpty_iff, beq_iff_eq] at hover
    have hnone : s.prospect = [] := by
      rw [prospect, hover.1, hover.2]
      rfl
    rwa [hnone, List.append_nil] at hanswers
  goes := h.goes
  acks := h.acks

/-- What holds of the first state of a run and is kept by every step: the answers that have been
given and those to come are the pool's. -/
theorem Regular.steps (h : s.Regular) (hsteps : Relation.ReflTransGen Step s s') :
    s'.Regular ∧ List.Forall₂ Answer.Same (s'.answers ++ s'.prospect) (s.answers ++ s.prospect) := by
  induction hsteps with
  | refl => exact ⟨h, Answer.same_refl _⟩
  | tail _ hstep ih =>
    obtain ⟨hregular, hanswers⟩ := ih
    have hleads := hregular.step hstep
    exact ⟨hleads.regular,
      Answer.same_trans hleads.answers hanswers⟩

/-- Nobody goes on for ever. -/
theorem Regular.ends {f : ℕ → Dealings} (h : (f 0).Regular) : ∃ n, ¬ Step (f n) (f (n + 1)) := by
  by_contra hgoes
  rw [not_exists] at hgoes
  have hstep : ∀ n, Step (f n) (f (n + 1)) := fun n => not_not.mp (hgoes n)
  have hregular : ∀ n, (f n).Regular := by
    intro n
    induction n with
    | zero => exact h
    | succ n ih => exact (ih.step (hstep n)).regular
  obtain ⟨n, hn⟩ := WellFounded.not_rel_apply_succ (r := (· < ·)) fun n => (f n).toDo
  exact hn ((hregular n).step (hstep n)).lighter

/-- **In every order of steps the caller is told what a pool would say**, of every request, and it is
told after finitely many steps. -/
theorem steps_confluent (hrun : clock.stopped = false)
    (htimely : Request.AllTimely clock.tick requests) :
    (∀ s, Relation.ReflTransGen Step (start clock requests) s → Agrees clock requests s) ∧
      ∀ f : ℕ → Dealings, f 0 = start clock requests → ∃ n, ¬ Step (f n) (f (n + 1)) := by
  have hstart := regular_start hrun htimely
  refine ⟨?_, ?_⟩
  · intro s hsteps
    obtain ⟨hregular, hanswers⟩ := hstart.steps hsteps
    exact hregular.agrees hanswers
  · intro f hf
    exact Regular.ends (hf ▸ hstart)

/-- A unit that is paused while the clock moves past two ticks, and does not count them. -/
theorem steps_confluent_pause :
    ∃ requests, Clock.start.stopped = false ∧ Request.AllTimely Clock.start.tick requests ∧
      UnitPool.empty.answers Clock.start.tick requests =
        [.started 0, .reports 1 [.progress 0 1 2], .acknowledged (some (.paused 2)), .reports 2 [],
          .reports 3 [], .acknowledged (some (.resumed 2)), .reports 4 [.progress 0 4 1], .left 1,
          .released, .live 0] ∧
      (∀ s, Relation.ReflTransGen Step (start .start requests) s → Agrees .start requests s) ∧
      ∀ f : ℕ → Dealings, f 0 = start .start requests → ∃ n, ¬ Step (f n) (f (n + 1)) := by
  refine ⟨[.start 3 0, .advance, .pause 0, .advance, .advance, .resume 0 3, .advance, .remaining 0,
    .reap 0, .size], rfl, ?_, rfl, steps_confluent rfl ?_⟩ <;>
  exact ⟨trivial, trivial, trivial, trivial, trivial, Nat.le_refl 3, trivial, trivial, trivial,
    trivial, trivial⟩

end Dealings
end Uniprocessor
