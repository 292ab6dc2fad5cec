import Mathlib.Data.List.Induction
import Mathlib.Data.List.TakeWhile
import Uniprocessor.Proofs.Text.Words
import Uniprocessor.Text.Numeral

/-!
# What texts are made of

The grammar of lines, words and numerals, said without a reader: how a text is put together, not how it
is taken apart.  Each relation is then shown to be the graph of a function that takes texts apart, so a
reader can be held against all texts, and not only against those that a writer makes.

* `Lined`: the lines of a text, each ended by a line feed, or by a carriage return and a line feed, but
  for a last one that is not empty;
* `Trimmed`: what is left of a text without the blanks around it;
* `Separated`: the words of a text, with blanks between them;
* `Spells`: the number of a row of digits, which may have one plus sign before it;
* `lined_iff`, `trimmed_iff`, `separated_iff`, `readNat?_eq_some_iff`: **the functions that read these.**
-/

namespace Uniprocessor.Text

/-- A text has these lines. -/
inductive Lined : List Char → List (List Char) → Prop
  | nil : Lined [] []
  /-- What follows the last line feed is a line if it is not empty; it keeps its carriage return. -/
  | last {line : List Char} (hne : line ≠ []) (hline : '\n' ∉ line) : Lined line [line]
  | feed {line rest : List Char} {ls : List (List Char)} (hline : '\n' ∉ line)
      (hlast : line.getLast? ≠ some '\r') (h : Lined rest ls) :
      Lined (line ++ '\n' :: rest) (line :: ls)
  | returnFeed {line rest : List Char} {ls : List (List Char)} (hline : '\n' ∉ line)
      (h : Lined rest ls) : Lined (line ++ '\r' :: '\n' :: rest) (line :: ls)

/-- A text is its content with nothing but blanks before and after it. -/
structure Trimmed (cs content : List Char) : Prop where
  around : ∃ before after, cs = before ++ content ++ after ∧ ∀ c ∈ before ++ after, isBlank c = true
  first : ∀ c ∈ content.head?, isBlank c = false
  last : ∀ c ∈ content.getLast?, isBlank c = false

/-- A text has these words: blanks stand between them, and may stand around them. -/
inductive Separated : List Char → List (List Char) → Prop
  | nil : Separated [] []
  | blank {c : Char} {cs : List Char} {ws : List (List Char)} (hc : isBlank c = true)
      (h : Separated cs ws) : Separated (c :: cs) ws
  | word {w rest : List Char} {ws : List (List Char)} (hne : w ≠ [])
      (hw : ∀ c ∈ w, isBlank c = false) (hnext : ∀ c ∈ rest.head?, isBlank c = true)
      (h : Separated rest ws) : Separated (w ++ rest) (w :: ws)

/-- A row of digits has a value; there is at least one. -/
inductive Denotes : List Char → Nat → Prop
  | digit {c : Char} (hc : c.isDigit = true) : Denotes [c] (c.toNat - '0'.toNat)
  | more {ds : List Char} {n : Nat} {c : Char} (h : Denotes ds n) (hc : c.isDigit = true) :
      Denotes (ds ++ [c]) (10 * n + (c.toNat - '0'.toNat))

/-- A numeral spells a number: one plus sign may stand before its digits. -/
inductive Spells : List Char → Nat → Prop
  | plain {ds : List Char} {n : Nat} (h : Denotes ds n) : Spells ds n
  | plus {ds : List Char} {n : Nat} (h : Denotes ds n) : Spells ('+' :: ds) n

variable {c : Char} {cs rest line w content ds : List Char} {ls ws : List (List Char)}
  {n bound : Nat}

/-! ## Lines -/

/-- A text without a line feed is one line. -/
theorem lines_last (hne : line ≠ []) (hline : '\n' ∉ line) : lines line = [line] := by
  have hread := linesFrom_append hline [] []
  rw [List.append_nil, List.append_nil] at hread
  rw [lines, hread, linesFrom, if_neg (by simpa using hne), List.reverse_reverse]

/-- A carriage return before a line feed belongs to the end of the line. -/
theorem lines_returnFeed (hline : '\n' ∉ line) (rest : List Char) :
    lines (line ++ '\r' :: '\n' :: rest) = line :: lines rest := by
  have hreturn : '\n' ∉ line ++ ['\r'] := by simpa using hline
  have hread := linesFrom_append hreturn [] ('\n' :: rest)
  rw [List.append_assoc, List.singleton_append] at hread
  rw [lines, hread, linesFrom, List.append_nil, List.reverse_append, List.reverse_singleton,
    List.singleton_append, closeLine, List.reverse_reverse, lines]

/-- Every text is made of its lines. -/
theorem lined_lines (cs : List Char) : Lined cs (lines cs) := by
  induction hlength : cs.length using Nat.strongRecOn generalizing cs with
  | ind length ih =>
    by_cases hfeed : '\n' ∈ cs
    · obtain ⟨line, rest, rfl, hline⟩ := List.eq_append_cons_of_mem hfeed
      have hrest : Lined rest (lines rest) :=
        ih rest.length (by rw [← hlength, List.length_append, List.length_cons]; omega) rest rfl
      by_cases hlast : line.getLast? = some '\r'
      · obtain ⟨line, rfl⟩ := List.getLast?_eq_some_iff.mp hlast
        have hbefore : '\n' ∉ line := fun hmem => hline (List.mem_append_left _ hmem)
        rw [List.append_assoc, List.singleton_append, lines_returnFeed hbefore]
        exact .returnFeed hbefore hrest
      · rw [lines_append hline hlast]
        exact .feed hline hlast hrest
    · by_cases hne : cs = []
      · subst hne
        exact .nil
      · rw [lines_last hne hfeed]
        exact .last hne hfeed

/-- **The lines of a text.** -/
theorem lined_iff : Lined cs ls ↔ lines cs = ls := by
  refine ⟨fun h => ?_, fun h => h ▸ lined_lines cs⟩
  induction h with
  | nil => rfl
  | last hne hline => exact lines_last hne hline
  | feed hline hlast _ ih => rw [lines_append hline hlast, ih]
  | returnFeed hline _ ih => rw [lines_returnFeed hline, ih]

/-! ## Blanks around a text -/

theorem head_dropWhile_blanks (cs : List Char) :
    ∀ c ∈ (cs.dropWhile isBlank).head?, isBlank c = false := by
  intro c hc
  have hhead := List.head?_dropWhile_not isBlank cs
  rw [Option.mem_def.mp hc] at hhead
  exact hhead

theorem trimmed_trim (cs : List Char) : Trimmed cs (trim cs) := by
  have hbegun := List.takeWhile_append_dropWhile (p := isBlank) (l := cs)
  have hended := List.takeWhile_append_dropWhile (p := isBlank) (l := (cs.dropWhile isBlank).reverse)
  have hrest : cs.dropWhile isBlank =
      trim cs ++ ((cs.dropWhile isBlank).reverse.takeWhile isBlank).reverse := by
    rw [trim, ← List.reverse_append, hended, List.reverse_reverse]
  refine ⟨⟨_, _, (by rw [List.append_assoc, ← hrest, hbegun]), fun c hc => ?_⟩, fun c hc => ?_,
    fun c hc => ?_⟩
  · rcases List.mem_append.mp hc with hc | hc
    · exact List.mem_takeWhile_imp hc
    · exact List.mem_takeWhile_imp (List.mem_reverse.mp hc)
  · refine head_dropWhile_blanks cs c ?_
    rw [hrest, Option.mem_def, List.head?_append, Option.mem_def.mp hc, Option.some_or]
  · rw [trim, List.getLast?_reverse] at hc
    exact head_dropWhile_blanks _ c hc

/-- Blanks before a text that starts with none. -/
theorem dropWhile_blanks {before : List Char} (h : ∀ c ∈ before, isBlank c = true)
    (hrest : ∀ c ∈ rest.head?, isBlank c = false) : (before ++ rest).dropWhile isBlank = rest := by
  rw [List.dropWhile_append_of_pos h]
  cases rest with
  | nil => rfl
  | cons c rest => exact List.dropWhile_cons_of_neg (by simp [hrest c rfl])

/-- **The content of a text between blanks.** -/
theorem trimmed_iff : Trimmed cs content ↔ trim cs = content := by
  refine ⟨fun h => ?_, fun h => h ▸ trimmed_trim cs⟩
  obtain ⟨⟨before, after, rfl, hblank⟩, hfirst, hlast⟩ := h
  have hbefore : ∀ c ∈ before, isBlank c = true := fun c hc => hblank c (List.mem_append_left _ hc)
  have hafter : ∀ c ∈ after.reverse, isBlank c = true := fun c hc =>
    hblank c (List.mem_append_right _ (List.mem_reverse.mp hc))
  cases content with
  | nil =>
    have hall : (before ++ [] ++ after).dropWhile isBlank = [] := by
      rw [List.append_nil, ← List.append_nil (before ++ after)]
      exact dropWhile_blanks hblank fun c hc => absurd hc (by simp)
    rw [trim, hall]
    rfl
  | cons d content =>
    have hbegun : ∀ c ∈ (d :: content ++ after).head?, isBlank c = false := hfirst
    rw [trim, List.append_assoc, dropWhile_blanks hbefore hbegun, List.reverse_append,
      dropWhile_blanks hafter, List.reverse_reverse]
    rwa [List.head?_reverse]

/-! ## Words -/

/-- Every text is made of its words. -/
theorem separated_words (cs : List Char) : Separated cs (words cs) := by
  induction hlength : cs.length using Nat.strongRecOn generalizing cs with
  | ind length ih =>
    cases cs with
    | nil => exact .nil
    | cons c cs =>
      by_cases hc : isBlank c = true
      · rw [words_cons_blank hc]
        exact .blank hc (ih cs.length (by rw [← hlength, List.length_cons]; omega) cs rfl)
      · -- the first word, and what is left from the first blank on
        let isLetter := fun d => !isBlank d
        have hw : ∀ d ∈ c :: cs.takeWhile isLetter, isBlank d = false := by
          intro d hd
          rcases List.mem_cons.mp hd with rfl | hd
          · simpa using hc
          · simpa [isLetter] using List.mem_takeWhile_imp hd
        have hnext : ∀ d ∈ (cs.dropWhile isLetter).head?, isBlank d = true := by
          intro d hd
          have hhead := List.head?_dropWhile_not isLetter cs
          rw [Option.mem_def.mp hd] at hhead
          simpa [isLetter] using hhead
        have hshort := (List.dropWhile_suffix isLetter (l := cs)).length_le
        have hrest := ih (cs.dropWhile isLetter).length
          (by rw [← hlength, List.length_cons]; omega) (cs.dropWhile isLetter) rfl
        rw [← List.takeWhile_append_dropWhile (p := isLetter) (l := cs), ← List.cons_append,
          words_append (List.cons_ne_nil _ _) hw hnext]
        exact .word (List.cons_ne_nil _ _) hw hnext hrest

/-- **The words of a text.** -/
theorem separated_iff : Separated cs ws ↔ words cs = ws := by
  refine ⟨fun h => ?_, fun h => h ▸ separated_words cs⟩
  induction h with
  | nil => rfl
  | blank hc _ ih => rw [words_cons_blank hc, ih]
  | word hne hw hnext _ ih => rw [words_append hne hw hnext, ih]

/-- Blanks after a text make no words. -/
theorem Separated.append_blanks {after : List Char} (h : Separated cs ws)
    (hafter : ∀ c ∈ after, isBlank c = true) : Separated (cs ++ after) ws := by
  induction h with
  | nil =>
    induction after with
    | nil => exact .nil
    | cons c after ih =>
      obtain ⟨hc, hafter⟩ := List.forall_mem_cons.mp hafter
      exact .blank hc (ih hafter)
  | blank hc _ ih => exact .blank hc ih
  | @word w rest ws hne hw hnext _ ih =>
    rw [List.append_assoc]
    refine .word hne hw (fun c hc => ?_) ih
    cases rest with
    | nil => exact hafter c (List.mem_of_mem_head? hc)
    | cons d rest => exact hnext c hc

/-- Blanks around a text make no words. -/
theorem Trimmed.words (h : Trimmed cs content) : words content = words cs := by
  obtain ⟨⟨before, after, rfl, hblank⟩, -, -⟩ := h
  have hafter : ∀ c ∈ after, isBlank c = true := fun c hc => hblank c (List.mem_append_right _ hc)
  have hlater := (separated_words content).append_blanks hafter
  refine (separated_iff.mp ?_).symm
  rw [List.append_assoc]
  have hbefore : ∀ c ∈ before, isBlank c = true := fun c hc => hblank c (List.mem_append_left _ hc)
  clear hblank
  induction before with
  | nil => exact hlater
  | cons c before ih =>
    obtain ⟨hc, hbefore⟩ := List.forall_mem_cons.mp hbefore
    exact .blank hc (ih hbefore)

/-! ## Numerals -/

theorem digitsValue_append (ds : List Char) (c : Char) :
    digitsValue (ds ++ [c]) = 10 * digitsValue ds + (c.toNat - '0'.toNat) := by
  rw [digitsValue, List.foldl_append]
  rfl

theorem denotes_iff :
    Denotes ds n ↔ (ds.isEmpty = false ∧ ds.all Char.isDigit = true) ∧ digitsValue ds = n := by
  refine ⟨fun h => ?_, ?_⟩
  · induction h with
    | digit hc => simp [hc, digitsValue]
    | more _ hc ih =>
      obtain ⟨⟨-, hdigits⟩, hvalue⟩ := ih
      rw [digitsValue_append, hvalue]
      simp [hc, hdigits]
  · rintro ⟨⟨hne, hdigits⟩, rfl⟩
    induction ds using List.reverseRecOn with
    | nil => exact absurd hne (by simp)
    | append_singleton ds c ih =>
      rw [List.all_append, Bool.and_eq_true] at hdigits
      obtain ⟨hds, hc⟩ := hdigits
      have hc : c.isDigit = true := by simpa using hc
      cases ds with
      | nil => simpa [digitsValue] using Denotes.digit hc
      | cons d ds =>
        rw [digitsValue_append]
        exact .more (ih rfl hds) hc

theorem readDigits?_eq_some_iff : readDigits? bound ds = some n ↔ Denotes ds n ∧ n < bound := by
  rw [readDigits?, denotes_iff]
  by_cases hdigits : ds.isEmpty = false ∧ ds.all Char.isDigit = true
  · rw [if_neg (by simp [hdigits])]
    grind
  · rw [if_pos (by grind)]
    grind

/-- **The number of a numeral below a bound.** -/
theorem readNat?_eq_some_iff : readNat? bound cs = some n ↔ Spells cs n ∧ n < bound := by
  have hsign : ∀ {ds n}, ¬ Denotes ('+' :: ds) n := by
    intro ds n h
    exact absurd (denotes_iff.mp h).1.2 (by simp)
  unfold readNat?
  split
  · rename_i ds
    rw [readDigits?_eq_some_iff]
    refine and_congr_left fun _ => ⟨.plus, fun h => ?_⟩
    cases h with
    | plain h => exact absurd h hsign
    | plus h => exact h
  · rename_i hplain
    rw [readDigits?_eq_some_iff]
    refine and_congr_left fun _ => ⟨.plain, fun h => ?_⟩
    cases h with
    | plain h => exact h
    | plus h => exact absurd rfl (hplain _)

end Uniprocessor.Text
