import Uniprocessor.Command.Session
import Uniprocessor.Proofs.Json.Record
import Uniprocessor.Proofs.Text.Grammar
import Uniprocessor.Proofs.Workload.Text

/-!
# Where workloads come from

Everything that runs a workload counts on three things: all processes have run time, no two have the
same identifier, and they stand in the order in which they arrive, so that the last of them is the last
to arrive.  `Workload.ofList` sees to all three, and a list, a text, a file and a seed all become a
workload through it.  A saved workload does not: it is taken as it stands, and there is a saved text for
every list of processes that fit their words.

* `Workload.Origin`, `Obtained`: the ways to come by a workload;
* `Workload.Checked`: what is counted on;
* `Workload.checked_ofList`: a list that was made a workload is checked;
* `Workload.obtained_saved_iff`: what saved workloads are like;
* `Workload.obtained_checked`: **a workload is checked wherever it comes from, unless it was saved.**
-/

namespace Uniprocessor

/-! ## Saved processes -/

/-- A number that is read lies below the bound. -/
theorem Json.lt_of_required_nat? {v : Option Json} {bound n : Nat}
    (h : Json.required (Json.nat? bound) v = some n) : n < bound := by
  obtain ⟨u, -, hu⟩ := Option.bind_eq_some_iff.mp h
  unfold Json.nat? at hu
  split at hu
  · rename_i l
    unfold Literal.nat? at hu
    split at hu
    · exact absurd hu (by simp)
    · exact (Text.readDigits?_eq_some_iff.mp hu).2
  · exact absurd hu (by simp)

namespace Process

variable {p : Process}

/-- A process as it is saved. -/
def toJson (p : Process) : Json :=
  .record [("id", .ofNat p.id), ("arrival_time", .ofNat p.arrival), ("run_time", .ofNat p.runTime),
    ("priority", .ofNat p.priority), ("mem_size", .ofNat p.memory)]

theorem clean_toJson (p : Process) : p.toJson.Clean := by
  refine Json.clean_record fun f hf => ?_
  simp only [List.mem_cons, List.not_mem_nil, or_false] at hf
  rcases hf with rfl | rfl | rfl | rfl | rfl <;> exact Json.clean_ofNat _

theorem ofJson?_toJson (h : p.Fits) : ofJson? p.toJson = some p := by
  have hfields : p.toJson.fields? ["id", "arrival_time", "run_time", "priority", "mem_size"] 0 =
      some [some (.ofNat p.id), some (.ofNat p.arrival), some (.ofNat p.runTime),
        some (.ofNat p.priority), some (.ofNat p.memory)] :=
    Json.fields?_self ["id", "arrival_time", "run_time", "priority", "mem_size"] rfl (by decide) 0
  rw [ofJson?, hfields]
  simp [Json.required, Json.nat?_ofNat h.id, Json.nat?_ofNat h.arrival, Json.nat?_ofNat h.runTime,
    Json.nat?_ofNat h.priority, Json.nat?_ofNat h.memory]

/-- A process that is read fits its words. -/
theorem fits_of_ofJson? {v : Json} (h : ofJson? v = some p) : p.Fits := by
  unfold ofJson? at h
  split at h
  · obtain ⟨id, hid, h⟩ := Option.bind_eq_some_iff.mp h
    obtain ⟨arrival, harrival, h⟩ := Option.bind_eq_some_iff.mp h
    obtain ⟨runTime, hrunTime, h⟩ := Option.bind_eq_some_iff.mp h
    obtain ⟨priority, hpriority, h⟩ := Option.bind_eq_some_iff.mp h
    obtain ⟨memory, hmemory, h⟩ := Option.bind_eq_some_iff.mp h
    obtain rfl := Option.some.inj h
    exact ⟨Json.lt_of_required_nat? hid, Json.lt_of_required_nat? harrival,
      Json.lt_of_required_nat? hrunTime, Json.lt_of_required_nat? hpriority,
      Json.lt_of_required_nat? hmemory⟩
  · exact absurd h (by simp)

end Process

namespace Workload

/-- A workload as it is saved. -/
def toJson (w : Workload) : Json :=
  .record [("processes", .array (w.processes.map Process.toJson))]

variable {w : Workload} {ps : List Process}

theorem clean_toJson (w : Workload) : w.toJson.Clean := by
  refine Json.clean_record fun f hf => ?_
  simp only [List.mem_cons, List.not_mem_nil, or_false] at hf
  subst hf
  exact Json.clean_array fun p _ => p.clean_toJson

theorem ofJson?_toJson (h : ∀ p ∈ w.processes, p.Fits) : ofJson? w.toJson = some w := by
  have hfields : w.toJson.fields? ["processes"] 0 =
      some [some (.array (w.processes.map Process.toJson))] :=
    Json.fields?_self ["processes"] rfl (by decide) 0
  have hprocesses : Json.list? Process.ofJson? (.array (w.processes.map Process.toJson)) =
      some (w.processes.map id) :=
    Json.list?_map fun p hp => Process.ofJson?_toJson (h p hp)
  rw [ofJson?, hfields]
  simp [Json.required, hprocesses]

/-- A list is read only if each of its items is. -/
theorem mem_of_list? {α : Type} {decode : Json → Option α} {v : Json} {as : List α}
    (h : Json.list? decode v = some as) : ∀ a ∈ as, ∃ item, decode item = some a := by
  unfold Json.list? at h
  split at h
  · rename_i items
    induction items generalizing as with
    | nil =>
      obtain rfl := Option.some.inj h
      exact fun a ha => absurd ha List.not_mem_nil
    | cons item items ih =>
      rw [List.mapM_cons] at h
      obtain ⟨a, ha, h⟩ := Option.bind_eq_some_iff.mp h
      obtain ⟨rest, hrest, h⟩ := Option.bind_eq_some_iff.mp h
      obtain rfl := Option.some.inj h
      exact List.forall_mem_cons.mpr ⟨⟨item, ha⟩, ih hrest⟩
  · exact absurd h (by simp)

/-- The processes of a workload that is read fit their words. -/
theorem fits_of_ofJson? {v : Json} (h : ofJson? v = some w) : ∀ p ∈ w.processes, p.Fits := by
  unfold ofJson? at h
  split at h
  · obtain ⟨ps, hps, rfl⟩ := Option.map_eq_some_iff.mp h
    obtain ⟨v, -, hlist⟩ := Option.bind_eq_some_iff.mp hps
    intro p hp
    obtain ⟨item, hitem⟩ := mem_of_list? hlist p hp
    exact Process.fits_of_ofJson? hitem
  · exact absurd h (by simp)

/-! ## Ways to come by a workload -/

/-- What a workload can be made from. -/
inductive Origin where
  | list
  | text
  | file
  | seed
  | nothing
  | saved
  deriving DecidableEq

/-- A workload is obtained from something. -/
inductive Obtained (w : Workload) : Origin → Prop
  | list {ps : List Process} (h : ofList ps = .ok w) : Obtained w .list
  | text {s : String} (h : parse s = .ok w) : Obtained w .text
  | file {folder : Folder} {path : String}
      (h : ((Session.readWorkload Folder.disk path).run folder).1 = .ok w) : Obtained w .file
  | seed {count seed arena : Nat} (h : generate count seed arena = .ok w) : Obtained w .seed
  | nothing (h : w = empty) : Obtained w .nothing
  | saved {s : String} (h : (Json.parse? s).bind ofJson? = some w) : Obtained w .saved

/-- What everything that runs a workload counts on. -/
structure Checked (w : Workload) : Prop where
  runTime : ∀ p ∈ w.processes, 0 < p.runTime
  distinct : (w.processes.map Process.id).Nodup
  ascending : w.processes.Pairwise fun p q => p.arrival ≤ q.arrival
  lastArrival : w.lastArrival? = (w.processes.map Process.arrival).max?

/-- The last of processes that stand in the order of arrival is the last to arrive. -/
theorem lastArrival?_eq_max? (h : w.processes.Pairwise fun p q => p.arrival ≤ q.arrival) :
    w.lastArrival? = (w.processes.map Process.arrival).max? := by
  rw [lastArrival?]
  cases hlast : w.processes.getLast? with
  | none =>
    rw [List.getLast?_eq_none_iff.mp hlast]
    rfl
  | some q =>
    obtain ⟨before, hbefore⟩ := List.getLast?_eq_some_iff.mp hlast
    rw [hbefore] at h ⊢
    have hle := (List.pairwise_append.mp h).2.2
    refine (List.max?_eq_some_iff.mpr ⟨by simp, fun arrival harrival => ?_⟩).symm
    obtain ⟨p, hp, rfl⟩ := List.mem_map.mp harrival
    rcases List.mem_append.mp hp with hp | hp
    · exact hle p hp q List.mem_cons_self
    · rw [List.mem_singleton.mp hp]

/-- **A list that was made a workload is checked.** -/
theorem checked_ofList (h : ofList ps = .ok w) : w.Checked := by
  obtain ⟨-, hpos, hdistinct⟩ := ofList_ok h
  have hascending := pairwise_ofList h
  exact ⟨fun p hp => Nat.pos_of_ne_zero (hpos p hp), hdistinct, hascending,
    lastArrival?_eq_max? hascending⟩

/-- The workload of a file is the workload of its text. -/
theorem parse_of_readWorkload {folder : Folder} {path : String}
    (h : ((Session.readWorkload Folder.disk path).run folder).1 = .ok w) :
    ∃ s, parse s = .ok w := by
  have hread : (Folder.disk.read path).run folder =
      (pure (Path.read path >>= folder.read, folder) : Id (Except FileError ByteArray × Folder)) := rfl
  rw [Session.readWorkload, StateT.run_bind, hread, pure_bind] at h
  dsimp only at h
  split at h
  · cases h
  · split at h
    · cases h
    · rename_i s _
      cases hparse : parse s with
      | error fault =>
        rw [hparse] at h
        cases h
      | ok v =>
        rw [hparse] at h
        exact ⟨s, hparse.trans (congrArg Except.ok (Except.ok.inj h))⟩

/-- **Every list of processes that fit their words is read from some saved text, and no other is.** -/
theorem obtained_saved_iff : w.Obtained .saved ↔ ∀ p ∈ w.processes, p.Fits := by
  constructor
  · intro h
    cases h with
    | saved h =>
      obtain ⟨v, -, hv⟩ := Option.bind_eq_some_iff.mp h
      exact fits_of_ofJson? hv
  · intro h
    refine .saved (s := w.toJson.pretty) ?_
    rw [Json.parse?_pretty (clean_toJson w), Option.bind_some, ofJson?_toJson h]

/-- **A workload is checked wherever it comes from, unless it was saved.**  A saved one may be any list
of processes whose numbers fit their words. -/
theorem obtained_checked (w : Workload) :
    (∀ o, w.Obtained o → o ≠ .saved → w.Checked) ∧
      (w.Obtained .saved ↔ ∀ p ∈ w.processes, p.Fits) := by
  refine ⟨fun o h hsaved => ?_, obtained_saved_iff⟩
  -- a file is read as its text, and a text and a seed end in a list
  have hparse {s : String} (h : parse s = .ok w) : w.Checked := by
    obtain ⟨ps, hps, -⟩ := ofList_of_parse h
    exact checked_ofList hps
  cases h with
  | list h => exact checked_ofList h
  | text h => exact hparse h
  | file h =>
    obtain ⟨s, hs⟩ := parse_of_readWorkload h
    exact hparse hs
  | seed h =>
    unfold generate at h
    split at h
    · exact absurd h (by simp)
    · exact checked_ofList h
  | nothing h =>
    subst h
    exact checked_ofList (ofList_of_pairwise rfl .nil)
  | saved h => exact absurd rfl hsaved

/-- A list whose processes do not stand in the order of arrival. -/
theorem obtained_checked_sorted :
    ∃ w : Workload, w = ⟨[⟨2, 1, 5, 0, 8⟩, ⟨1, 9, 3, 0, 8⟩]⟩ ∧ w.Obtained .list ∧ Origin.list ≠ .saved ∧
      w.Checked ∧ w.lastArrival? = some 9 := by
  have hlist : ofList [⟨1, 9, 3, 0, 8⟩, ⟨2, 1, 5, 0, 8⟩] = .ok ⟨[⟨2, 1, 5, 0, 8⟩, ⟨1, 9, 3, 0, 8⟩]⟩ := by
    simp [ofList, fault?, List.mergeSort]
  exact ⟨_, rfl, .list hlist, by decide, (obtained_checked _).1 .list (.list hlist) (by decide), rfl⟩

/-- A saved workload has a process without run time, repeats an identifier, and ends with a process that
is not the last to arrive. -/
theorem obtained_unchecked :
    ∃ w : Workload, w = ⟨[⟨1, 5, 0, 0, 1⟩, ⟨1, 2, 3, 0, 1⟩]⟩ ∧ w.Obtained .saved ∧ ¬ w.Checked ∧
      ¬ (∀ p ∈ w.processes, 0 < p.runTime) ∧ ¬ (w.processes.map Process.id).Nodup ∧
      w.lastArrival? = some 2 ∧ (w.processes.map Process.arrival).max? = some 5 := by
  have hread : (Json.parse? ("\x7b\"processes\":[" ++
      "\x7b\"id\":1,\"arrival_time\":5,\"run_time\":0,\"priority\":0,\"mem_size\":1\x7d," ++
      "\x7b\"id\":1,\"arrival_time\":2,\"run_time\":3,\"priority\":0,\"mem_size\":1\x7d]\x7d")).bind
        ofJson? = some ⟨[⟨1, 5, 0, 0, 1⟩, ⟨1, 2, 3, 0, 1⟩]⟩ := by
    decide +kernel
  have hidle : ¬ ∀ p ∈ [(⟨1, 5, 0, 0, 1⟩ : Process), ⟨1, 2, 3, 0, 1⟩], 0 < p.runTime := by decide
  exact ⟨_, rfl, .saved hread, fun hchecked => hidle hchecked.runTime, hidle, by decide, rfl, rfl⟩

end Workload
end Uniprocessor
