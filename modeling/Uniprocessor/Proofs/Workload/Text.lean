import Uniprocessor.Proofs.Attempt
import Uniprocessor.Proofs.Text.Numeral
import Uniprocessor.Proofs.Text.Words
import Uniprocessor.Proofs.Workload.Basic
import Uniprocessor.Workload.Text

/-!
# Workload texts are read back

The line of a process is made of five words, the digits of its numbers.  They are no blanks, so the
line is neither trimmed nor split anywhere but at the tabs, and its first character is no `#`; the
heading is one line that says nothing.  What is read has passed the checks and is in the order of
arrival, so the checks and the sort of `Workload.ofList` leave it as it is.

* `Process.Fits`: the numbers of a process fit their words;
* `Workload.readProcess_fields`: the words of a process are read as the process;
* `Workload.readLines_records`: the lines of processes are read as the processes;
* `Workload.parse_toText_of_ofList`: **the text of a workload is read as the workload**;
* `Workload.fits_of_parse`: the processes that are read fit their words.
-/

namespace Uniprocessor

/-- The numbers of a process fit their words. -/
structure Process.Fits (p : Process) : Prop where
  id : p.id < word32
  arrival : p.arrival < word64
  runTime : p.runTime < word64
  priority : p.priority < word32
  memory : p.memory < word64

namespace Text

variable {c : Char} {n bound : Nat}

/-- Digits are neither blanks nor line ends nor signs. -/
theorem isBlank_of_isDigit (h : c.isDigit = true) : isBlank c = false := by
  have hdigit : 48 ≤ c.toNat ∧ c.toNat ≤ 57 := Char.isDigit_iff_toNat.mp h
  have haside : ∀ range ∈ blankRanges, range.2 < 48 ∨ 57 < range.1 := by decide
  rw [isBlank, List.any_eq_false]
  intro range hrange hin
  have hbetween : range.1 ≤ c.toNat ∧ c.toNat ≤ range.2 := by simpa using hin
  have := haside range hrange
  omega

theorem not_isBlank_digits (h : c ∈ digits n) : isBlank c = false :=
  isBlank_of_isDigit (isDigit_of_mem_digits h)

/-- Digits are read with or without a sign allowed in front of them. -/
theorem readNat?_digits (h : n < bound) : readNat? bound (digits n) = some n := by
  rw [← readDigits?_digits h]
  cases hdigits : digits n with
  | nil => rfl
  | cons c cs =>
    have hc : c.isDigit = true := isDigit_of_mem_digits (by rw [hdigits]; exact List.mem_cons_self)
    rw [readNat?]
    intro rest hplus
    obtain rfl := (List.cons.inj hplus).1
    exact absurd hc (by decide)

end Text

namespace Workload

open Text

variable {p : Process} {ps : List Process} {w : Workload} {line : Nat}

theorem word32_le_word64 : word32 ≤ word64 := by decide

/-! ## A line -/

/-- The words of a process. -/
def fields (p : Process) : List (List Char) :=
  [digits p.id, digits p.arrival, digits p.runTime, digits p.priority, digits p.memory]

/-- The line of a process without its line feed. -/
def record (p : Process) : List Char :=
  digits p.id ++ '\t' :: (digits p.arrival ++ '\t' :: (digits p.runTime ++
    '\t' :: (digits p.priority ++ '\t' :: digits p.memory)))

theorem processLine_eq (p : Process) : processLine p = record p ++ ['\n'] := by
  simp only [processLine, record, List.append_assoc, List.cons_append]

/-- The characters of a line are digits and tabs. -/
theorem mem_record {c : Char} (h : c ∈ record p) : c.isDigit = true ∨ c = '\t' := by
  simp only [record, List.mem_append, List.mem_cons] at h
  have hdigit {n : Nat} (hc : c ∈ digits n) : c.isDigit = true ∨ c = '\t' :=
    .inl (isDigit_of_mem_digits hc)
  obtain hc | rfl | hc | rfl | hc | rfl | hc | rfl | hc := h
  exacts [hdigit hc, .inr rfl, hdigit hc, .inr rfl, hdigit hc, .inr rfl, hdigit hc, .inr rfl, hdigit hc]

/-- A line starts with a digit. -/
theorem head_record {c : Char} (h : c ∈ (record p).head?) : c.isDigit = true := by
  rw [record, List.head?_append_of_ne_nil _ (digits_ne_nil _)] at h
  exact isDigit_of_mem_digits (List.mem_of_head? h)

/-- A line ends with a digit. -/
theorem getLast_record {c : Char} (h : c ∈ (record p).getLast?) : c.isDigit = true := by
  obtain ⟨before, hbefore⟩ : ∃ before, record p = before ++ digits p.memory :=
    ⟨digits p.id ++ '\t' :: (digits p.arrival ++ '\t' :: (digits p.runTime ++
      '\t' :: (digits p.priority ++ ['\t']))), by
      simp only [record, List.append_assoc, List.cons_append, List.nil_append]⟩
  rw [hbefore, List.getLast?_append_of_ne_nil _ (digits_ne_nil _)] at h
  exact isDigit_of_mem_digits (List.mem_of_getLast? h)

theorem words_record (p : Process) : words (record p) = fields p := by
  have hword (n : Nat) : ∀ c ∈ digits n, isBlank c = false := fun c hc => not_isBlank_digits hc
  rw [record, words_append_tab (digits_ne_nil _) (hword _), words_append_tab (digits_ne_nil _) (hword _),
    words_append_tab (digits_ne_nil _) (hword _), words_append_tab (digits_ne_nil _) (hword _),
    words_singleton (digits_ne_nil _) (hword _), fields]

theorem readField_digits {n bound : Nat} {column : Column} (hword : n < word64) (h : n < bound) :
    readField line column bound (digits n) = .ok n := by
  rw [readField, readNat?_digits hword]
  exact if_pos h

/-- **The words of a process are read as the process.** -/
theorem readProcess_fields (h : p.Fits) : readProcess line (fields p) = .ok p := by
  have hid := Nat.lt_of_lt_of_le h.id word32_le_word64
  have hpriority := Nat.lt_of_lt_of_le h.priority word32_le_word64
  rw [fields, readProcess, readField_digits hid h.id, readField_digits hpriority h.priority,
    readField_digits h.memory h.memory, readField_digits h.arrival h.arrival,
    readField_digits h.runTime h.runTime]
  rfl

/-! ## All lines -/

theorem trim_record (p : Process) : trim (record p) = record p :=
  trim_eq_self (fun _ hc => isBlank_of_isDigit (head_record hc))
    fun _ hc => isBlank_of_isDigit (getLast_record hc)

/-- The line of a process is no comment. -/
theorem isComment_record (p : Process) : isComment (record p) = false := by
  cases hrecord : record p with
  | nil =>
    have hnil : digits p.id = [] := List.append_eq_nil_iff.mp hrecord |>.1
    exact absurd hnil (digits_ne_nil _)
  | cons c cs =>
    have hc : c.isDigit = true := head_record (p := p) (by rw [hrecord]; rfl)
    have hne : c ≠ '#' := by
      rintro rfl
      exact absurd hc (by decide)
    simp [isComment, hne]

/-- **The lines of processes are read as the processes.** -/
theorem readLines_records (h : ∀ p ∈ ps, p.Fits) (line : Nat) :
    readLines line (ps.map record) = .ok ps := by
  induction ps generalizing line with
  | nil => rfl
  | cons p ps ih =>
    obtain ⟨hp, hps⟩ := List.forall_mem_cons.mp h
    rw [List.map_cons, readLines]
    simp only [trim_record, isComment_record, Bool.false_eq_true, if_false, words_record,
      readProcess_fields hp, ih hps]
    rfl

/-- No line of a written workload is broken at another place. -/
theorem lines_toText (w : Workload) :
    ∃ comment, isComment (trim comment) = true ∧
      lines w.toText.toList = comment :: w.processes.map record := by
  have hrecords : w.processes.flatMap processLine = (w.processes.map record).flatMap (· ++ ['\n']) := by
    rw [List.flatMap_map]
    exact congrArg w.processes.flatMap (funext processLine_eq)
  have hheading : heading = "#id\tarrival\truntime\tpriority\tmemsize".toList ++ ['\n'] := by decide
  refine ⟨"#id\tarrival\truntime\tpriority\tmemsize".toList, by decide, ?_⟩
  rw [toText, String.toList_ofList, hheading, hrecords, List.append_assoc, List.singleton_append,
    lines_append (by decide) (by decide), lines_flatMap]
  intro l hl
  obtain ⟨p, -, rfl⟩ := List.mem_map.mp hl
  refine ⟨fun hmem => ?_, fun hlast => ?_⟩
  · exact absurd (mem_record hmem) (by decide)
  · exact absurd (getLast_record (p := p) hlast) (by decide)

/-- **The text of a workload is read as the workload.** -/
theorem parse_toText_of_ofList (h : ofList ps = .ok w) (hfits : ∀ p ∈ ps, p.Fits) :
    parse w.toText = .ok w := by
  obtain ⟨hperm, hpos, hdistinct⟩ := ofList_ok h
  obtain ⟨comment, hcomment, hlines⟩ := lines_toText w
  have hread : readLines 1 (lines w.toText.toList) = .ok w.processes := by
    rw [hlines, readLines, if_pos hcomment]
    exact readLines_records (fun p hp => hfits p (hperm.subset hp)) 2
  have hfault : fault? [] w.processes = none :=
    fault?_eq_none.mpr ⟨fun p hp => ⟨hpos p hp, List.not_mem_nil⟩, hdistinct⟩
  rw [parse, hread]
  exact ofList_of_pairwise hfault (pairwise_ofList h)

/-! ## What is read fits -/

theorem lt_of_readField {column : Column} {bound n : Nat} {word : List Char}
    (h : readField line column bound word = .ok n) : n < bound := by
  unfold readField at h
  split at h
  · exact absurd h (by simp)
  · split at h
    · obtain rfl := Except.ok.inj h
      assumption
    · exact absurd h (by simp)

theorem fits_of_readProcess {ws : List (List Char)} (h : readProcess line ws = .ok p) : p.Fits := by
  unfold readProcess at h
  split at h
  · obtain ⟨id, hid, h⟩ := ok_of_bind h
    obtain ⟨priority, hpriority, h⟩ := ok_of_bind h
    obtain ⟨memory, hmemory, h⟩ := ok_of_bind h
    obtain ⟨arrival, harrival, h⟩ := ok_of_bind h
    obtain ⟨runTime, hrunTime, h⟩ := ok_of_bind h
    obtain rfl := Except.ok.inj h
    exact ⟨lt_of_readField hid, lt_of_readField harrival, lt_of_readField hrunTime,
      lt_of_readField hpriority, lt_of_readField hmemory⟩
  · exact absurd h (by simp)

/-- The processes that are read fit their words. -/
theorem fits_of_readLines {ls : List (List Char)} (h : readLines line ls = .ok ps) :
    ∀ p ∈ ps, p.Fits := by
  induction ls generalizing line ps with
  | nil =>
    obtain rfl := Except.ok.inj h
    exact fun p hp => absurd hp List.not_mem_nil
  | cons cs ls ih =>
    unfold readLines at h
    dsimp only at h
    split at h
    · exact ih h
    · split at h
      · exact absurd h (by simp)
      · rename_i p hp
        obtain ⟨qs, hrest, rfl⟩ := ok_of_map h
        exact List.forall_mem_cons.mpr ⟨fits_of_readProcess hp, ih hrest⟩

/-- A workload that was read was made of a list of processes that fit their words. -/
theorem ofList_of_parse {text : String} (h : parse text = .ok w) :
    ∃ ps, ofList ps = .ok w ∧ ∀ p ∈ ps, p.Fits := by
  unfold parse at h
  split at h
  · exact absurd h (by simp)
  · rename_i ps hps
    exact ⟨ps, h, fits_of_readLines hps⟩

end Workload
end Uniprocessor
