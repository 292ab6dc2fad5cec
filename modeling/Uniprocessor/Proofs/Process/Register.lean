import Uniprocessor.Proofs.Process.Table

/-!
# Process tables and their histories

Nothing keeps a caller from using a slot number after its process has gone, or one that the table has
never given out.  What such a table holds can still be told from its history alone.  A `Register` is a
table with the record of all calls and their answers, the last one first, and the record says of every
slot who is in it: a control block is there if it was put in under this number and has not been taken
out since, with the changes that were made to it in between (`Register.Holds`); and the slot is vacant
if a control block was taken out and none has been put in since (`Register.Vacated`).

What the record says does not mention how slots are chosen.  That a slot is not given out while someone
is in it is a statement about records: between any two processes that were put in under one number, one
was taken out under it (`Register.Apart`).  So the process that a slot holds is the last one that was put
in there.

* `ProcessTable.respond`: a call and its answer;
* `Register.Known.respond`: **what one more call does to what is known**;
* `Register.run_filed`: **what a table holds after any calls, by what was called and answered.**
-/

namespace Uniprocessor

/-- A call on a table. -/
inductive TableCall where
  | insert (b : ControlBlock)
  | remove (slot : Slot)
  | get (slot : Slot)
  /-- A control block is looked up and changed in its slot. -/
  | update (slot : Slot) (change : ControlBlock → ControlBlock)

/-- What a call is answered. -/
inductive TableAnswer where
  | slot (slot : Slot)
  | block (b? : Option ControlBlock)

/-- A call and its answer. -/
abbrev TableEntry := TableCall × TableAnswer

/-- What a call makes of a control block that stays in a slot. -/
def TableCall.changed (slot : Slot) (b : ControlBlock) : TableCall → ControlBlock
  | update s change => if s = slot then change b else b
  | _ => b

namespace ProcessTable

/-- The answer to a call, and the table afterwards. -/
def respond (t : ProcessTable) : TableCall → TableAnswer × ProcessTable
  | .insert b => (.slot (t.insert b).1, (t.insert b).2)
  | .remove slot =>
    match t.remove? slot with
    | some (b, t') => (.block (some b), t')
    | none => (.block none, t)
  | .get slot => (.block (t.get? slot), t)
  | .update slot change =>
    match t.get? slot with
    | some b => (.block (some b), t.set slot (change b))
    | none => (.block none, t)

/-- The slot that a call is about. -/
def subject (t : ProcessTable) : TableCall → Slot
  | .insert b => (t.insert b).1
  | .remove slot => slot
  | .get slot => slot
  | .update slot _ => slot

variable {t : ProcessTable} {slot : Slot} {b : ControlBlock}

theorem respond_remove_some (h : t.get? slot = some b) :
    t.respond (.remove slot) = (.block (some b), t.vacate slot) := by
  rw [respond, remove?_eq h]

theorem respond_remove_none (h : t.get? slot = none) :
    t.respond (.remove slot) = (.block none, t) := by
  rw [respond, remove?, h]
  rfl

theorem respond_update_some (h : t.get? slot = some b) (change : ControlBlock → ControlBlock) :
    t.respond (.update slot change) = (.block (some b), t.set slot (change b)) := by
  rw [respond, h]

theorem respond_update_none (h : t.get? slot = none) (change : ControlBlock → ControlBlock) :
    t.respond (.update slot change) = (.block none, t) := by
  rw [respond, h]

/-- **A call about one slot leaves all others as they are.** -/
theorem Sound.get?_respond (h : t.Sound) (call : TableCall) (hslot : slot ≠ t.subject call) :
    (t.respond call).2.get? slot = t.get? slot := by
  cases call with
  | insert b => exact (get?_insert h b slot).trans (if_neg hslot)
  | remove s =>
    cases hs : t.get? s with
    | none => rw [respond_remove_none hs]
    | some b =>
      rw [respond_remove_some hs]
      exact get?_vacate_of_ne hs hslot
  | get s => rfl
  | update s change =>
    cases hs : t.get? s with
    | none => rw [respond_update_none hs]
    | some b =>
      rw [respond_update_some hs]
      exact get?_set_of_ne hs _ hslot

end ProcessTable

/-- A table, and what was called and answered so far, the last call first. -/
structure Register where
  table : ProcessTable
  record : List TableEntry

namespace Register

/-- One call. -/
def step (r : Register) (call : TableCall) : Register :=
  ⟨(r.table.respond call).2, (call, (r.table.respond call).1) :: r.record⟩

/-- Calls on a table without slots. -/
def run (calls : List TableCall) : Register :=
  calls.foldl step ⟨.empty, []⟩

/-! ## Records -/

/-- What the calls of a record made of a control block that stayed in a slot. -/
def changed (slot : Slot) (b : ControlBlock) (record : List TableEntry) : ControlBlock :=
  record.foldr (fun entry b => entry.1.changed slot b) b

/-- By the record, someone was put into a slot and has not been taken out since, and this is what has
become of the control block. -/
def Holds (record : List TableEntry) (slot : Slot) (b : ControlBlock) : Prop :=
  ∃ later first earlier, record = later ++ (.insert first, .slot slot) :: earlier ∧
    (∀ d, (.remove slot, .block (some d)) ∉ later) ∧ b = changed slot first later

/-- By the record, someone was taken out of a slot and nobody has been put in since. -/
def Vacated (record : List TableEntry) (slot : Slot) : Prop :=
  ∃ later last earlier, record = later ++ (.remove slot, .block (some last)) :: earlier ∧
    ∀ d, (.insert d, .slot slot) ∉ later

/-- Of two who were put into one slot, the one was taken out before the other was put in. -/
def Apart (record : List TableEntry) : Prop :=
  ∀ later b' between b earlier slot,
    record = later ++ (.insert b', .slot slot) :: (between ++ (.insert b, .slot slot) :: earlier) →
      ∃ d, (.remove slot, .block (some d)) ∈ between

variable {record : List TableEntry} {entry : TableEntry} {t t' : ProcessTable} {slot : Slot}
  {b : ControlBlock}

theorem holds_cons : Holds (entry :: record) slot b ↔ entry = (.insert b, .slot slot) ∨
    ∃ d, Holds record slot d ∧ (∀ x, entry ≠ (.remove slot, .block (some x))) ∧
      b = entry.1.changed slot d := by
  constructor
  · rintro ⟨later, first, earlier, heq, hstays, rfl⟩
    rcases List.cons_eq_append_iff.mp heq with ⟨rfl, hfirst⟩ | ⟨later, rfl, hrecord⟩
    · exact .inl (List.cons.inj hfirst).1.symm
    · refine .inr ⟨_, ⟨later, first, earlier, hrecord, fun d hd => ?_, rfl⟩, fun x hx => ?_, rfl⟩
      · exact hstays d (List.mem_cons_of_mem _ hd)
      · exact hstays x (hx ▸ List.mem_cons_self)
  · rintro (rfl | ⟨_, ⟨later, first, earlier, rfl, hstays, rfl⟩, hentry, rfl⟩)
    · exact ⟨[], b, record, rfl, fun _ => List.not_mem_nil, rfl⟩
    · refine ⟨entry :: later, first, earlier, rfl, fun d hd => ?_, rfl⟩
      exact (List.mem_cons.mp hd).elim (fun heq => hentry d heq.symm) (hstays d)

theorem vacated_cons : Vacated (entry :: record) slot ↔
    (∃ b, entry = (.remove slot, .block (some b))) ∨
      Vacated record slot ∧ ∀ d, entry ≠ (.insert d, .slot slot) := by
  constructor
  · rintro ⟨later, last, earlier, heq, hstays⟩
    rcases List.cons_eq_append_iff.mp heq with ⟨rfl, hlast⟩ | ⟨later, rfl, hrecord⟩
    · exact .inl ⟨last, (List.cons.inj hlast).1.symm⟩
    · refine .inr ⟨⟨later, last, earlier, hrecord, fun d hd => ?_⟩, fun d hd => ?_⟩
      · exact hstays d (List.mem_cons_of_mem _ hd)
      · exact hstays d (hd ▸ List.mem_cons_self)
  · rintro (⟨last, rfl⟩ | ⟨⟨later, last, earlier, rfl, hstays⟩, hentry⟩)
    · exact ⟨[], last, record, rfl, fun _ => List.not_mem_nil⟩
    · refine ⟨entry :: later, last, earlier, rfl, fun d hd => ?_⟩
      exact (List.mem_cons.mp hd).elim (fun heq => hentry d heq.symm) (hstays d)

/-- Whoever is put in next must find the slot left. -/
theorem Apart.cons (h : Apart record)
    (hentry : ∀ b' slot, entry = (.insert b', .slot slot) → ∀ b, ¬ Holds record slot b) :
    Apart (entry :: record) := by
  intro later b' between b earlier slot heq
  rcases List.cons_eq_append_iff.mp heq with ⟨rfl, hlast⟩ | ⟨later, rfl, hrecord⟩
  · obtain ⟨hinsert, rfl⟩ := List.cons.inj hlast
    -- if nobody has been taken out in between, the first of the two is still there
    by_contra hstays
    rw [not_exists] at hstays
    exact hentry b' slot hinsert.symm _ ⟨between, b, earlier, rfl, hstays, rfl⟩
  · exact h later b' between b earlier slot hrecord

/-! ## What is known -/

/-- What the record says of a table. -/
structure Known (record : List TableEntry) (t : ProcessTable) : Prop where
  sound : t.Sound
  holds : ∀ slot b, t.get? slot = some b ↔ Holds record slot b
  vacated : ∀ slot, slot ∈ t.vacant ↔ Vacated record slot
  apart : Apart record

theorem known_empty : Known [] .empty where
  sound := ProcessTable.sound_empty
  holds := by simp [Holds]
  vacated := by simp [Vacated, ProcessTable.empty]
  apart := by
    intro later b' between b earlier slot heq
    exact absurd heq (by simp)

/-- A call by which nobody comes or goes. -/
theorem Known.keep (h : Known record t) (hsound : t'.Sound) (hvacant : t'.vacant = t.vacant)
    (hget : ∀ slot, t'.get? slot = (t.get? slot).map (entry.1.changed slot))
    (hin : ∀ b slot, entry ≠ (.insert b, .slot slot))
    (hout : ∀ slot b, entry ≠ (.remove slot, .block (some b))) : Known (entry :: record) t' where
  sound := hsound
  holds := by
    intro slot b
    rw [hget, Option.map_eq_some_iff, holds_cons]
    constructor
    · rintro ⟨d, hd, rfl⟩
      exact .inr ⟨d, (h.holds slot d).mp hd, hout slot, rfl⟩
    · rintro (heq | ⟨d, hd, -, rfl⟩)
      · exact absurd heq (hin b slot)
      · exact ⟨d, (h.holds slot d).mpr hd, rfl⟩
  vacated := by
    intro slot
    rw [hvacant, vacated_cons, h.vacated]
    constructor
    · exact fun hs => .inr ⟨hs, fun d => hin d slot⟩
    · rintro (⟨b, heq⟩ | hs)
      · exact absurd heq (hout slot b)
      · exact hs.1
  apart := h.apart.cons fun b slot heq => absurd heq (hin b slot)

/-- A call that changes nothing. -/
theorem Known.same (h : Known record t)
    (hchanged : ∀ slot b, t.get? slot = some b → entry.1.changed slot b = b)
    (hin : ∀ b slot, entry ≠ (.insert b, .slot slot))
    (hout : ∀ slot b, entry ≠ (.remove slot, .block (some b))) : Known (entry :: record) t := by
  refine h.keep h.sound rfl (fun slot => ?_) hin hout
  cases hslot : t.get? slot with
  | none => rfl
  | some b => exact congrArg some (hchanged slot b hslot).symm

/-- **Someone is put in**, into a slot in which nobody is. -/
theorem Known.insert (h : Known record t) (b : ControlBlock) :
    Known ((.insert b, .slot (t.insert b).1) :: record) (t.insert b).2 where
  sound := h.sound.insert b
  holds := by
    intro slot d
    rw [ProcessTable.get?_insert h.sound, holds_cons]
    by_cases hslot : slot = (t.insert b).1
    · rw [if_pos hslot, hslot]
      constructor
      · intro heq
        rw [Option.some.inj heq]
        exact .inl rfl
      · rintro (heq | ⟨x, hx, -⟩)
        · exact congrArg some (TableCall.insert.inj (Prod.mk.inj heq).1)
        · -- nobody is in a slot that is given out
          rw [← h.holds, ProcessTable.get?_new h.sound] at hx
          exact absurd hx (by simp)
    · rw [if_neg hslot, h.holds]
      constructor
      · exact fun hd => .inr ⟨d, hd, by simp, rfl⟩
      · rintro (heq | ⟨x, hx, -, rfl⟩)
        · exact absurd (TableAnswer.slot.inj (Prod.mk.inj heq).2).symm hslot
        · exact hx
  vacated := by
    intro slot
    rw [ProcessTable.mem_vacant_insert h.sound, vacated_cons, h.vacated]
    constructor
    · rintro ⟨hs, hne⟩
      exact .inr ⟨hs, fun d heq => hne (TableAnswer.slot.inj (Prod.mk.inj heq).2).symm⟩
    · rintro (⟨d, heq⟩ | ⟨hs, hne⟩)
      · exact absurd heq (by simp)
      · refine ⟨hs, fun heq => hne b ?_⟩
        rw [heq]
  apart := by
    refine h.apart.cons fun b' slot heq d hd => ?_
    rw [← h.holds, ← TableAnswer.slot.inj (Prod.mk.inj heq).2, ProcessTable.get?_new h.sound] at hd
    exact absurd hd (by simp)

/-- **Someone is taken out.** -/
theorem Known.vacate (h : Known record t) (hslot : t.get? slot = some b) :
    Known ((.remove slot, .block (some b)) :: record) (t.vacate slot) where
  sound := h.sound.vacate hslot
  holds := by
    intro s d
    rw [ProcessTable.get?_vacate hslot, holds_cons]
    by_cases hs : s = slot
    · rw [if_pos hs, hs]
      simp
    · rw [if_neg hs, h.holds]
      constructor
      · exact fun hd => .inr ⟨d, hd, by simp [Ne.symm hs], rfl⟩
      · rintro (heq | ⟨x, hx, -, rfl⟩)
        · exact absurd heq (by simp)
        · exact hx
  vacated := by
    intro s
    show s ∈ slot :: t.vacant ↔ _
    rw [List.mem_cons, vacated_cons, h.vacated]
    simp [eq_comm]
  apart := h.apart.cons fun b' s heq => absurd heq (by simp)

/-- **Someone is changed** where they are. -/
theorem Known.set (h : Known record t) (hslot : t.get? slot = some b)
    (change : ControlBlock → ControlBlock) :
    Known ((.update slot change, .block (some b)) :: record) (t.set slot (change b)) := by
  refine h.keep (h.sound.set hslot _) ?_ (fun s => ?_) (by simp) (by simp)
  · rw [ProcessTable.set_eq hslot]
  · rw [ProcessTable.get?_set hslot]
    by_cases hs : s = slot
    · rw [if_pos hs, hs, hslot, Option.map_some, TableCall.changed, if_pos rfl]
    · have hsame : (TableCall.update slot change).changed s = id :=
        funext fun d => if_neg (Ne.symm hs)
      rw [if_neg hs, hsame, Option.map_id]
      rfl

/-- **What one more call does to what is known.** -/
theorem Known.respond (h : Known record t) (call : TableCall) :
    Known ((call, (t.respond call).1) :: record) (t.respond call).2 := by
  cases call with
  | insert b => exact h.insert b
  | remove slot =>
    cases hslot : t.get? slot with
    | none =>
      rw [ProcessTable.respond_remove_none hslot]
      exact h.same (fun _ _ _ => rfl) (by simp) (by simp)
    | some b =>
      rw [ProcessTable.respond_remove_some hslot]
      exact h.vacate hslot
  | get slot => exact h.same (fun _ _ _ => rfl) (by simp) (by simp)
  | update slot change =>
    cases hslot : t.get? slot with
    | none =>
      rw [ProcessTable.respond_update_none hslot]
      refine h.same (fun s d hs => if_neg fun heq => ?_) (by simp) (by simp)
      rw [heq, hs] at hslot
      exact absurd hslot (by simp)
    | some b =>
      rw [ProcessTable.respond_update_some hslot]
      exact h.set hslot change

/-! ## Runs -/

theorem known_foldl {r : Register} (h : Known r.record r.table) (calls : List TableCall) :
    Known (calls.foldl step r).record (calls.foldl step r).table := by
  induction calls generalizing r with
  | nil => exact h
  | cons call calls ih => exact ih (h.respond call)

/-- What a table holds, and what comes of any further call, by what was called and answered. -/
structure Filed (record : List TableEntry) (t : ProcessTable) : Prop where
  /-- The vacant slots are those that were vacated, each listed once. -/
  nodup : t.vacant.Nodup
  vacant : ∀ slot, slot ∈ t.vacant ↔ Vacated record slot
  /-- A slot holds who was put in and has not been taken out, and nobody else. -/
  get : ∀ slot b, t.get? slot = some b ↔ Holds record slot b
  /-- No slot is given out while somebody is in it. -/
  apart : Apart record
  fresh : ∀ b, t.get? (t.insert b).1 = none
  /-- Everyone who asks for a slot is answered what it holds; and there is nothing to be taken out of a
  slot that holds nobody. -/
  answers : ∀ slot change, (t.respond (.get slot)).1 = .block (t.get? slot) ∧
    (t.respond (.update slot change)).1 = .block (t.get? slot) ∧
    (t.respond (.remove slot)).1 = .block (t.get? slot)
  absent : ∀ slot, t.get? slot = none → t.respond (.remove slot) = (.block none, t)
  /-- A call about one slot leaves all others as they are. -/
  others : ∀ call slot, slot ≠ t.subject call → (t.respond call).2.get? slot = t.get? slot
  /-- The size is what is left of the slots without the vacant ones, of which there are not more; and it
  is the number of those listed. -/
  vacant_le : t.vacant.length ≤ t.slots.size
  size : t.size = t.toList.length
  /-- Those are listed who are in a slot, each once. -/
  listed : ∃ slots : List Slot, slots.Nodup ∧ (∀ slot, slot ∈ slots ↔ ∃ b, t.get? slot = some b) ∧
    slots.map t.get? = t.toList.map some

theorem Known.filed (h : Known record t) : Filed record t where
  nodup := h.sound.nodup
  vacant := h.vacated
  get := h.holds
  apart := h.apart
  fresh := ProcessTable.get?_new h.sound
  answers := by
    intro slot change
    cases hslot : t.get? slot with
    | none =>
      rw [ProcessTable.respond_update_none hslot, ProcessTable.respond_remove_none hslot]
      exact ⟨congrArg _ hslot, rfl, rfl⟩
    | some b =>
      rw [ProcessTable.respond_update_some hslot, ProcessTable.respond_remove_some hslot]
      exact ⟨congrArg _ hslot, rfl, rfl⟩
  absent := fun _ => ProcessTable.respond_remove_none
  others := fun call _ => h.sound.get?_respond call
  vacant_le := h.sound.length_vacant ▸ Nat.le_add_right _ _
  size := by
    rw [ProcessTable.size, ← h.sound.length_vacant, Nat.add_sub_cancel_left]
  listed := ⟨t.taken, t.nodup_taken, fun _ => ProcessTable.mem_taken, t.map_get?_taken⟩

/-- **What a table holds after any calls, by what was called and answered.** -/
theorem run_filed (calls : List TableCall) : Filed (run calls).record (run calls).table :=
  (known_foldl known_empty calls).filed

/-- A process that needs three ticks. -/
def guest (id : Nat) : ControlBlock :=
  .ofProcess ⟨id, 0, 3, 1, 4⟩ ⟨⟨0, 0⟩, 2, 0⟩

/-- Two processes, of which the first is taken out; its slot is used once more, and a slot that was never
given out, before a third process comes, which is stopped later. -/
def recycled : List TableCall :=
  [.insert (guest 1), .insert (guest 2), .remove 0, .remove 0, .remove 7, .insert (guest 3),
    .update 0 (·.stopped 4)]

/-- The third process is in the slot of the first one, no slot is vacant, two processes are counted, and
there still is nothing to be taken out of the slot that was never given out. -/
theorem run_filed_recycled :
    Holds (run recycled).record 0 ((guest 3).stopped 4) ∧
      (∀ slot, ¬ Vacated (run recycled).record slot) ∧ (run recycled).table.size = 2 ∧
      (run recycled).table.respond (.remove 7) = (.block none, (run recycled).table) := by
  have hfiled := run_filed recycled
  refine ⟨(hfiled.get 0 _).mp (by decide), fun slot hvacated => ?_, hfiled.size.trans (by decide),
    hfiled.absent 7 (by decide)⟩
  exact List.not_mem_nil ((hfiled.vacant slot).mpr hvacated)

end Register
end Uniprocessor
