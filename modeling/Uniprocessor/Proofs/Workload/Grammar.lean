import Uniprocessor.Proofs.Text.Grammar
import Uniprocessor.Proofs.Workload.Text

/-!
# Workload texts and their grammar

Which texts are workloads, said without the reader.  A line is silent, or it says a process, or it is
malformed; the text is a workload if no line is malformed, all processes have run time and no two have
the same identifier.  The first malformed line is the one that is blamed, whatever stands in the lines
before and after it: the processes as a whole are judged only when all lines have been read, the first
that has no run time or repeats an identifier being the one at fault.

* `Workload.Silent`, `Says`, `Malformed`: what a line can be;
* `Workload.Records`: the processes that the lines say, in their order;
* `Workload.Judged`: what becomes of a text with given lines;
* `Workload.readProcess_ok_iff`, `readLines_ok_iff`: **a line, and all lines, are read as they say**;
* `Workload.readLines_malformed`: the first malformed line is blamed;
* `Workload.parse_judged`: **a text is read as the grammar has it.**
-/

namespace Uniprocessor
namespace Workload

open Text

/-- A line that says nothing: without the blanks around it, it is empty or starts with `#`. -/
def Silent (line : List Char) : Prop :=
  ∃ content, Trimmed line content ∧ (content = [] ∨ content.head? = some '#')

/-- A line says a process: it has five words, which spell the numbers of the process, and the numbers
fit their words. -/
structure Says (line : List Char) (p : Process) : Prop where
  words : ∃ id arrival runTime priority memory,
    Separated line [id, arrival, runTime, priority, memory] ∧ Spells id p.id ∧
      Spells arrival p.arrival ∧ Spells runTime p.runTime ∧ Spells priority p.priority ∧
      Spells memory p.memory
  fits : p.Fits

/-- A line that ought to say a process and says none. -/
def Malformed (line : List Char) : Prop :=
  ¬ Silent line ∧ ∀ p, ¬ Says line p

/-- The lines say these processes, in this order. -/
inductive Records : List (List Char) → List Process → Prop
  | nil : Records [] []
  | silent {line : List Char} {ls : List (List Char)} {ps : List Process} (h : Silent line)
      (hrest : Records ls ps) : Records (line :: ls) ps
  | record {line : List Char} {ls : List (List Char)} {p : Process} {ps : List Process}
      (h : ¬ Silent line) (hp : Says line p) (hrest : Records ls ps) :
      Records (line :: ls) (p :: ps)

/-- What becomes of a text with these lines. -/
structure Judged (ls : List (List Char)) (outcome : Except WorkloadError Workload) : Prop where
  /-- It is a workload exactly if its lines say processes with run time and different identifiers. -/
  accepted : (∃ w, outcome = .ok w) ↔
    ∃ ps, Records ls ps ∧ (∀ p ∈ ps, 0 < p.runTime) ∧ (ps.map Process.id).Nodup
  /-- The workload has these processes, sorted by arrival. -/
  sorted : ∀ w ps, outcome = .ok w → Records ls ps → StablySorted ps w.processes
  /-- The first malformed line is blamed, and its number named. -/
  malformed : ∀ before line after, ls = before ++ line :: after → (∀ l ∈ before, ¬ Malformed l) →
    Malformed line → ∃ fault reason, outcome = .error fault ∧
      (Failure.workload fault).message =
        "workload error: line " ++ toString (before.length + 1) ++ ": " ++ reason
  /-- If none is, the first process without run time or with the identifier of an earlier one is. -/
  faulty : ∀ before p after, Records ls (before ++ p :: after) → (∀ q ∈ before, 0 < q.runTime) →
    (before.map Process.id).Nodup →
    (p.runTime = 0 → outcome = .error (.zeroRunTime p.id)) ∧
      (0 < p.runTime → p.id ∈ before.map Process.id → outcome = .error (.duplicateId p.id))

variable {line l : List Char} {ls before after : List (List Char)} {p : Process} {ps : List Process}
  {number : Nat}

/-! ## Lines that say nothing -/

theorem isComment_iff {content : List Char} :
    isComment content = true ↔ content = [] ∨ content.head? = some '#' := by
  cases content <;> simp [isComment]

theorem silent_iff : Silent line ↔ isComment (trim line) = true := by
  rw [isComment_iff]
  constructor
  · rintro ⟨content, hcontent, hsilent⟩
    rwa [trimmed_iff.mp hcontent]
  · exact fun h => ⟨trim line, trimmed_trim line, h⟩

/-! ## Lines that say a process -/

theorem readField_ok_iff {column : Column} {bound n : Nat} {word : List Char}
    (hbound : bound ≤ word64) :
    readField number column bound word = .ok n ↔ Spells word n ∧ n < bound := by
  rw [readField]
  split
  · rename_i hnone
    constructor
    · exact fun h => absurd h (by simp)
    · rintro ⟨hspells, hlt⟩
      have hread := readNat?_eq_some_iff.mpr ⟨hspells, Nat.lt_of_lt_of_le hlt hbound⟩
      exact absurd (hnone.symm.trans hread) (by simp)
  · rename_i m hm
    have hm' := readNat?_eq_some_iff.mp hm
    constructor
    · intro h
      split at h
      · rename_i hlt
        obtain rfl := Except.ok.inj h
        exact ⟨hm'.1, hlt⟩
      · exact absurd h (by simp)
    · rintro ⟨hspells, hlt⟩
      have hread := readNat?_eq_some_iff.mpr ⟨hspells, Nat.lt_of_lt_of_le hlt hbound⟩
      obtain rfl := Option.some.inj (hm.symm.trans hread)
      rw [if_pos hlt]

/-- **A line is read as the process that it says.** -/
theorem readProcess_ok_iff : readProcess number (words line) = .ok p ↔ Says line p := by
  constructor
  · intro h
    refine ⟨?_, fits_of_readProcess h⟩
    unfold readProcess at h
    split at h
    · rename_i id arrival runTime priority memory hwords
      obtain ⟨i, hid, h⟩ := ok_of_bind h
      obtain ⟨r, hpriority, h⟩ := ok_of_bind h
      obtain ⟨m, hmemory, h⟩ := ok_of_bind h
      obtain ⟨a, harrival, h⟩ := ok_of_bind h
      obtain ⟨t, hrunTime, h⟩ := ok_of_bind h
      obtain rfl := Except.ok.inj h
      exact ⟨id, arrival, runTime, priority, memory, separated_iff.mpr hwords,
        ((readField_ok_iff word32_le_word64).mp hid).1, ((readField_ok_iff le_rfl).mp harrival).1,
        ((readField_ok_iff le_rfl).mp hrunTime).1,
        ((readField_ok_iff word32_le_word64).mp hpriority).1, ((readField_ok_iff le_rfl).mp hmemory).1⟩
    · exact absurd h (by simp)
  · rintro ⟨⟨id, arrival, runTime, priority, memory, hwords, hid, harrival, hrunTime, hpriority,
      hmemory⟩, hfits⟩
    rw [separated_iff.mp hwords, readProcess,
      (readField_ok_iff word32_le_word64).mpr ⟨hid, hfits.id⟩,
      (readField_ok_iff word32_le_word64).mpr ⟨hpriority, hfits.priority⟩,
      (readField_ok_iff le_rfl).mpr ⟨hmemory, hfits.memory⟩,
      (readField_ok_iff le_rfl).mpr ⟨harrival, hfits.arrival⟩,
      (readField_ok_iff le_rfl).mpr ⟨hrunTime, hfits.runTime⟩]
    rfl

/-! ## Lines that are malformed -/

/-- A fault names the number of a line. -/
def Names (number : Nat) (fault : WorkloadError) : Prop :=
  ∃ reason, fault.message = "line " ++ toString number ++ ": " ++ reason

theorem names_badField (column : Column) (text : String) :
    Names number (.badField number column text) := by
  have hmessage : (WorkloadError.badField number column text).message =
      "line " ++ toString number ++ ": invalid " ++ column.name ++ " '" ++ text ++ "'" := rfl
  have hcolon : ": invalid " = ": " ++ "invalid " := by simp
  refine ⟨"invalid " ++ column.name ++ " '" ++ text ++ "'", ?_⟩
  simp only [hmessage, hcolon, String.append_assoc]

theorem names_outOfRange (column : Column) : Names number (.outOfRange number column) := by
  have hmessage : (WorkloadError.outOfRange number column).message =
      "line " ++ toString number ++ ": " ++ column.name ++ " out of range" := rfl
  refine ⟨column.name ++ " out of range", ?_⟩
  simp only [hmessage, String.append_assoc]

theorem names_fieldCount (found : Nat) : Names number (.fieldCount number found) := by
  have hmessage : (WorkloadError.fieldCount number found).message = "line " ++ toString number ++
      ": expected 5 fields (id arrival runtime priority memsize), found " ++ toString found := rfl
  have hcolon : ": expected 5 fields (id arrival runtime priority memsize), found " =
      ": " ++ "expected 5 fields (id arrival runtime priority memsize), found " := by simp
  refine ⟨"expected 5 fields (id arrival runtime priority memsize), found " ++ toString found, ?_⟩
  simp only [hmessage, hcolon, String.append_assoc]

theorem names_of_readField {column : Column} {bound : Nat} {word : List Char} {fault : WorkloadError}
    (h : readField number column bound word = .error fault) : Names number fault := by
  unfold readField at h
  split at h
  · obtain rfl := Except.error.inj h
    exact names_badField column _
  · split at h
    · exact absurd h (by simp)
    · obtain rfl := Except.error.inj h
      exact names_outOfRange column

/-- A reading in two steps fails if one of them does. -/
theorem error_of_bind {α β ε : Type} {x : Except ε α} {f : α → Except ε β} {e : ε}
    (h : x >>= f = .error e) : x = .error e ∨ ∃ a, f a = .error e := by
  cases x with
  | error e' => exact .inl (congrArg Except.error (Except.error.inj h))
  | ok a => exact .inr ⟨a, h⟩

/-- A line that is read as no process is blamed by its number. -/
theorem names_of_readProcess {ws : List (List Char)} {fault : WorkloadError}
    (h : readProcess number ws = .error fault) : Names number fault := by
  unfold readProcess at h
  split at h
  · -- the first column that is refused ends the reading
    rcases error_of_bind h with h | ⟨id, h⟩
    · exact names_of_readField h
    rcases error_of_bind h with h | ⟨priority, h⟩
    · exact names_of_readField h
    rcases error_of_bind h with h | ⟨memory, h⟩
    · exact names_of_readField h
    rcases error_of_bind h with h | ⟨arrival, h⟩
    · exact names_of_readField h
    rcases error_of_bind h with h | ⟨runTime, h⟩
    · exact names_of_readField h
    · exact absurd h (by simp [pure, Except.pure])
  · obtain rfl := Except.error.inj h
    exact names_fieldCount _

/-! ## All lines -/

theorem readLines_silent (h : Silent line) :
    readLines number (line :: ls) = readLines (number + 1) ls := by
  rw [readLines]
  simp only [silent_iff.mp h, if_true]

theorem readLines_record (h : ¬ Silent line) (hp : Says line p) :
    readLines number (line :: ls) = (readLines (number + 1) ls).map (p :: ·) := by
  have hread : readProcess number (words line) = .ok p := readProcess_ok_iff.mpr hp
  rw [← (trimmed_trim line).words] at hread
  rw [readLines]
  simp only [mt silent_iff.mpr h, hread]
  rfl

/-- A line that says something is read, if the lines are. -/
theorem readLines_cons_ok (h : ¬ Silent line) (hread : readLines number (line :: ls) = .ok ps) :
    ∃ p, Says line p := by
  unfold readLines at hread
  dsimp only at hread
  rw [if_neg (mt silent_iff.mpr h), (trimmed_trim line).words] at hread
  cases hline : readProcess number (words line) with
  | error fault => exact absurd (hline ▸ hread) (by simp)
  | ok p => exact ⟨p, readProcess_ok_iff.mp hline⟩

/-- **The lines are read as the processes that they say.** -/
theorem readLines_ok_iff : readLines number ls = .ok ps ↔ Records ls ps := by
  constructor
  · intro h
    induction ls generalizing number ps with
    | nil =>
      obtain rfl := Except.ok.inj h
      exact .nil
    | cons line ls ih =>
      by_cases hsilent : Silent line
      · rw [readLines_silent hsilent] at h
        exact .silent hsilent (ih h)
      · obtain ⟨p, hp⟩ := readLines_cons_ok hsilent h
        rw [readLines_record hsilent hp] at h
        obtain ⟨qs, hrest, rfl⟩ := ok_of_map h
        exact .record hsilent hp (ih hrest)
  · intro h
    induction h generalizing number with
    | nil => rfl
    | silent h _ ih => rw [readLines_silent h, ih]
    | record h hp _ ih => rw [readLines_record h hp, ih, Except.map]

/-- A malformed line ends the reading. -/
theorem readLines_cons_malformed (h : Malformed line) :
    ∃ fault, readLines number (line :: ls) = .error fault ∧ Names number fault := by
  cases hline : readProcess number (words line) with
  | ok p => exact absurd (readProcess_ok_iff.mp hline) (h.2 p)
  | error fault =>
    refine ⟨fault, ?_, names_of_readProcess hline⟩
    rw [readLines]
    simp only [mt silent_iff.mpr h.1, (trimmed_trim line).words, hline]
    rfl

/-- **The first malformed line is blamed.** -/
theorem readLines_malformed (hbefore : ∀ l ∈ before, ¬ Malformed l) (hline : Malformed line)
    (after : List (List Char)) : ∃ fault,
      readLines number (before ++ line :: after) = .error fault ∧
        Names (number + before.length) fault := by
  induction before generalizing number with
  | nil => exact readLines_cons_malformed hline
  | cons l before ih =>
    obtain ⟨hl, hbefore⟩ := List.forall_mem_cons.mp hbefore
    obtain ⟨fault, hread, hnames⟩ : ∃ fault,
        readLines (number + 1) (before ++ line :: after) = .error fault ∧
          Names (number + 1 + before.length) fault := ih hbefore
    refine ⟨fault, ?_, ?_⟩
    · rw [List.cons_append]
      by_cases hsilent : Silent l
      · rw [readLines_silent hsilent, hread]
      · obtain ⟨p, hp⟩ : ∃ p, Says l p := by
          by_contra hnone
          exact hl ⟨hsilent, not_exists.mp hnone⟩
        rw [readLines_record hsilent hp, hread, Except.map]
    · rwa [List.length_cons, Nat.add_comm before.length, ← Nat.add_assoc]

/-! ## The processes as a whole -/

/-- Processes without faults are passed over. -/
theorem fault?_append {seen : List Nat} {before after : List Process}
    (h : fault? seen before = none) :
    fault? seen (before ++ after) = fault? ((before.map Process.id).reverse ++ seen) after := by
  induction before generalizing seen with
  | nil => rfl
  | cons p before ih =>
    rw [fault?] at h
    rw [List.cons_append, fault?]
    split at h
    · exact absurd h (by simp)
    · rename_i hzero
      split at h
      · exact absurd h (by simp)
      · rename_i hseen
        rw [if_neg hzero, if_neg hseen, ih h, List.map_cons, List.reverse_cons, List.append_assoc,
          List.singleton_append]

/-- A list of processes is refused exactly if it has a fault. -/
theorem exists_ofList_iff :
    (∃ w, ofList ps = .ok w) ↔ (∀ p ∈ ps, 0 < p.runTime) ∧ (ps.map Process.id).Nodup := by
  have hnone : (∃ w, ofList ps = .ok w) ↔ fault? [] ps = none := by
    unfold ofList
    split
    · rename_i hsome
      simp [hsome]
    · rename_i hnone
      simp [hnone]
  rw [hnone, fault?_eq_none]
  simp [Nat.pos_iff_ne_zero]

theorem ofList_of_fault {fault : WorkloadError} (h : fault? [] ps = some fault) :
    ofList ps = .error fault := by
  rw [ofList, h]

/-! ## Texts -/

/-- **A text is read as the grammar has it.**  Every text has lines of one kind only; it is a workload
exactly if none of them is malformed and the processes they say have run time and different
identifiers, and then it is these processes, stably sorted by arrival.  The first malformed line is
named whatever the others hold, and a process is blamed only if there is none. -/
theorem parse_judged (text : String) :
    ∃ ls, (∀ ls', Lined text.toList ls' ↔ ls' = ls) ∧ Judged ls (parse text) := by
  refine ⟨lines text.toList, fun ls' => lined_iff.trans eq_comm, ?_⟩
  have hok {ps : List Process} (h : Records (lines text.toList) ps) : parse text = ofList ps := by
    rw [parse, readLines_ok_iff.mpr h]
  have hrecords {w : Workload} (h : parse text = .ok w) :
      ∃ ps, Records (lines text.toList) ps ∧ ofList ps = .ok w := by
    unfold parse at h
    split at h
    · exact absurd h (by simp)
    · rename_i ps hps
      exact ⟨ps, readLines_ok_iff.mp hps, h⟩
  constructor
  case accepted =>
    constructor
    · rintro ⟨w, hw⟩
      obtain ⟨ps, hps, hlist⟩ := hrecords hw
      exact ⟨ps, hps, exists_ofList_iff.mp ⟨w, hlist⟩⟩
    · rintro ⟨ps, hps, hfine⟩
      rw [hok hps]
      exact exists_ofList_iff.mpr hfine
  case sorted =>
    intro w ps hw hps
    exact stablySorted_ofList ((hok hps).symm.trans hw)
  case malformed =>
    intro before line after hlines hbefore hline
    obtain ⟨fault, hread, reason, hreason⟩ : ∃ fault,
        readLines 1 (before ++ line :: after) = .error fault ∧ Names (1 + before.length) fault :=
      readLines_malformed hbefore hline after
    refine ⟨fault, reason, ?_, ?_⟩
    · rw [parse, hlines, hread]
    · have hmessage : (Failure.workload fault).message = "workload error: " ++ fault.message := rfl
      have hhead : "workload error: line " = "workload error: " ++ "line " := by simp
      rw [hmessage, hreason, Nat.add_comm before.length, hhead]
      simp only [String.append_assoc]
  case faulty =>
    intro before p after hps hpos hdistinct
    have hbefore : fault? [] before = none :=
      fault?_eq_none.mpr ⟨fun q hq => ⟨Nat.pos_iff_ne_zero.mp (hpos q hq), List.not_mem_nil⟩, hdistinct⟩
    have hfault : fault? [] (before ++ p :: after) =
        fault? ((before.map Process.id).reverse ++ []) (p :: after) := fault?_append hbefore
    rw [List.append_nil, fault?] at hfault
    rw [hok hps]
    refine ⟨fun hzero => ofList_of_fault ?_, fun hpositive hseen => ofList_of_fault ?_⟩
    · rw [hfault, if_pos hzero]
    · rw [hfault, if_neg (Nat.pos_iff_ne_zero.mp hpositive), if_pos (List.mem_reverse.mpr hseen)]

end Workload
end Uniprocessor
