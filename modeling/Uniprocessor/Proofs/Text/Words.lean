import Mathlib.Data.List.Basic
import Uniprocessor.Text.Blank
import Uniprocessor.Text.Line

/-!
# Lines and words that were put together

A text that is made of lines, each ended by a line feed, has these lines; and a line that is made of
words with tabs between them has these words.  A carriage return at the end of a line would be taken
for a part of the line end, so no line may end in one.

* `Text.lines_flatMap`: **the lines of a text of lines**;
* `Text.trim_eq_self`: a text between two words is not trimmed;
* `Text.words_append_tab`, `Text.words_singleton`: **the words of a text of words.**
-/

namespace Uniprocessor.Text

variable {c : Char} {cs rest w : List Char}

/-! ## Lines -/

/-- What contains no line feed belongs to the current line. -/
theorem linesFrom_append (h : '\n' ∉ cs) (line rest : List Char) :
    linesFrom line (cs ++ rest) = linesFrom (cs.reverse ++ line) rest := by
  induction cs generalizing line with
  | nil => rfl
  | cons c cs ih =>
    obtain ⟨hc, hcs⟩ := not_or.mp (mt List.mem_cons.mpr h)
    have hstep : linesFrom line (c :: (cs ++ rest)) = linesFrom (c :: line) (cs ++ rest) := by
      rw [linesFrom]
      exact fun heq => hc heq.symm
    rw [List.cons_append, hstep, ih hcs, List.reverse_cons, List.append_assoc, List.singleton_append]

theorem closeLine_reverse (h : cs.getLast? ≠ some '\r') : closeLine cs.reverse = cs := by
  rw [← List.head?_reverse] at h
  rw [closeLine]
  · exact List.reverse_reverse cs
  · intro line hline
    exact h (by rw [hline]; rfl)

/-- The first line of a text. -/
theorem lines_append (h : '\n' ∉ cs) (hlast : cs.getLast? ≠ some '\r') (rest : List Char) :
    lines (cs ++ '\n' :: rest) = cs :: lines rest := by
  rw [lines, linesFrom_append h, List.append_nil, linesFrom, closeLine_reverse hlast, lines]

/-- **The lines of a text of lines.** -/
theorem lines_flatMap {ls : List (List Char)}
    (h : ∀ l ∈ ls, '\n' ∉ l ∧ l.getLast? ≠ some '\r') : lines (ls.flatMap (· ++ ['\n'])) = ls := by
  induction ls with
  | nil => rfl
  | cons l ls ih =>
    obtain ⟨⟨hl, hlast⟩, hls⟩ := List.forall_mem_cons.mp h
    rw [List.flatMap_cons, List.append_assoc, List.singleton_append, lines_append hl hlast, ih hls]

/-! ## Words -/

/-- A text that begins and ends with a word is not trimmed. -/
theorem trim_eq_self (hhead : ∀ c ∈ cs.head?, isBlank c = false)
    (hlast : ∀ c ∈ cs.getLast?, isBlank c = false) : trim cs = cs := by
  have hkeep : ∀ {ds : List Char}, (∀ c ∈ ds.head?, isBlank c = false) →
      ds.dropWhile isBlank = ds := by
    intro ds hds
    cases ds with
    | nil => rfl
    | cons d ds => exact List.dropWhile_cons_of_neg (by simp [hds d rfl])
  rw [trim, hkeep hhead, hkeep, List.reverse_reverse]
  rwa [List.head?_reverse]

theorem words_cons_blank (h : isBlank c = true) (cs : List Char) : words (c :: cs) = words cs := by
  cases cs with
  | nil => simp [words, h]
  | cons d cs => simp [words, h]

/-- A word is the first one of a text that it begins, if no other character of a word follows. -/
theorem words_append (hw : w ≠ []) (hword : ∀ c ∈ w, isBlank c = false)
    (hrest : ∀ c ∈ rest.head?, isBlank c = true) : words (w ++ rest) = w :: words rest := by
  induction w with
  | nil => exact absurd rfl hw
  | cons c w ih =>
    obtain ⟨hc, hword⟩ := List.forall_mem_cons.mp hword
    cases w with
    | cons d w =>
      have hd : isBlank d = false := hword d List.mem_cons_self
      have hlater := ih (List.cons_ne_nil d w) hword
      rw [List.cons_append] at hlater
      rw [List.cons_append, List.cons_append, words]
      simp only [hc, hd, Bool.false_eq_true, if_false]
      rw [hlater, extendFirst]
    | nil =>
      cases rest with
      | nil => simp [words, hc]
      | cons d rest =>
        rw [List.singleton_append, words]
        simp only [hc, hrest d rfl, Bool.false_eq_true, if_false, if_true]

/-- **A word before a tab.** -/
theorem words_append_tab (hw : w ≠ []) (hword : ∀ c ∈ w, isBlank c = false) (rest : List Char) :
    words (w ++ '\t' :: rest) = w :: words rest := by
  have htab : isBlank '\t' = true := by decide
  have hnext : words (w ++ '\t' :: rest) = w :: words ('\t' :: rest) := by
    refine words_append hw hword fun c hc => ?_
    obtain rfl := Option.some.inj hc
    exact htab
  rw [hnext, words_cons_blank htab]

/-- The last word. -/
theorem words_singleton (hw : w ≠ []) (hword : ∀ c ∈ w, isBlank c = false) : words w = [w] := by
  have hlast : words (w ++ []) = w :: words [] :=
    words_append hw hword fun c hc => absurd hc (by simp)
  rwa [List.append_nil] at hlast

end Uniprocessor.Text
