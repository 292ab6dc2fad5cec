import Mathlib.Data.List.Range
import Uniprocessor.Proofs.Histories
import Uniprocessor.Proofs.Journal.Course

/-!
# Slices in a log

Under round robin a process that gets the processor has it for a number of contended ticks, or until
it finishes.  What is contended is known tick by tick; a log says how a slice ended by the event that
follows the dispatch.

* `contention`: the contended ticks between two points of time;
* `UsesUp`: the tick with which a slice is used up, of which there is only one;
* `Slice`: how a slice may end;
* `Answered`: a log in which every dispatch is answered by the next event;
* `Answered.slices`: **in a log of slices, a process is stopped where its slice is used up, unless it
  has finished by then.**
-/

namespace Uniprocessor

/-! ## Contended ticks -/

/-- The number of contended ticks after `s` and up to `t`. -/
def contention (contended : Tick → Bool) (s t : Tick) : Nat :=
  (List.range' (s + 1) (t - s)).countP contended

/-- `t` is the tick with which a slice of `quantum` contended ticks that began at `s` is used up. -/
structure UsesUp (contended : Tick → Bool) (quantum : Nat) (s t : Tick) : Prop where
  after : s < t
  last : contended t = true
  count : contention contended s t = quantum

variable {contended : Tick → Bool} {quantum : Nat} {s t t' : Tick}

theorem contention_self (contended : Tick → Bool) (s : Tick) : contention contended s s = 0 := by
  rw [contention, Nat.sub_self]
  rfl

/-- The last tick is counted if it is contended. -/
theorem contention_of_lt (h : s < t) :
    contention contended s t = contention contended s (t - 1) + (contended t).toNat := by
  obtain ⟨k, rfl⟩ := Nat.exists_eq_add_of_lt h
  have hlength : s + k + 1 - s = k + 1 := Nat.add_sub_cancel_left s (k + 1)
  have hbefore : s + k + 1 - 1 - s = k := Nat.add_sub_cancel_left s k
  have hlast : s + 1 + 1 * k = s + k + 1 := by rw [Nat.one_mul, Nat.add_right_comm]
  rw [contention, contention, hlength, hbefore, List.range'_concat, List.countP_append, hlast]
  cases hcontended : contended (s + k + 1) <;> simp [hcontended]

theorem contention_mono (h : t ≤ t') : contention contended s t ≤ contention contended s t' := by
  refine List.Sublist.countP_le ?_
  exact (List.range'_sublist_right.mpr (Nat.sub_le_sub_right h s))

/-- A slice is not used up before its last tick. -/
theorem UsesUp.contention_lt (h : UsesUp contended quantum s t) (ht : t' < t) :
    contention contended s t' < quantum := by
  have hlast : contention contended s t = contention contended s (t - 1) + (contended t).toNat :=
    contention_of_lt h.after
  have hle : contention contended s t' ≤ contention contended s (t - 1) :=
    contention_mono (Nat.le_sub_one_of_lt ht)
  rw [h.last, h.count, Bool.toNat_true] at hlast
  exact Nat.lt_of_le_of_lt hle (hlast ▸ Nat.lt_succ_self _)

/-- A slice is used up once. -/
theorem UsesUp.unique (h : UsesUp contended quantum s t) (h' : UsesUp contended quantum s t') :
    t = t' := by
  rcases Nat.lt_trichotomy t t' with hlt | heq | hlt
  · exact absurd h.count (Nat.ne_of_lt (h'.contention_lt hlt))
  · exact heq
  · exact absurd h'.count (Nat.ne_of_lt (h.contention_lt hlt))

/-! ## How a slice ends -/

/-- A slice that begins with the dispatch `d` ends with the event `e`: it is used up with that tick,
or the process finishes before it is used up, or with the same tick. -/
inductive Slice (contended : Tick → Bool) (quantum : Nat) (d e : ProcessEvent) : Prop
  | stopped (hkind : e.kind = .stopped) (hused : UsesUp contended quantum d.tick e.tick)
  | finished (hkind : e.kind = .finished) (htime : d.tick < e.tick)
      (hfirst : ∀ t, UsesUp contended quantum d.tick t → e.tick ≤ t)

/-- A log in which every dispatch is answered by the next event, which takes the processor from the
same process; `R` holds of a dispatch and its answer.  A dispatch that has not been answered yet is
given. -/
inductive Answered (R : ProcessEvent → ProcessEvent → Prop) :
    List ProcessEvent → Option ProcessEvent → Prop
  | nil : Answered R [] none
  | dispatch {es : List ProcessEvent} (h : Answered R es none) (d : ProcessEvent)
      (hd : d.kind.dispatches = true) : Answered R (es ++ [d]) (some d)
  | release {es : List ProcessEvent} {d : ProcessEvent} (h : Answered R es (some d))
      (e : ProcessEvent) (he : e.kind.dispatches = false) (hprocess : e.process = d.process)
      (hanswer : R d e) : Answered R (es ++ [e]) none

variable {R : ProcessEvent → ProcessEvent → Prop} {es before after : List ProcessEvent}
  {d e f : ProcessEvent} {current : Option ProcessEvent}

theorem Slice.time (h : Slice contended quantum d e) : d.tick < e.tick := by
  cases h with
  | stopped hkind hused => exact hused.after
  | finished hkind htime hfirst => exact htime

/-- Only the last dispatch may not have been answered. -/
theorem Answered.last (h : Answered R es (some d)) :
    ∃ before, es = before ++ [d] ∧ d.kind.dispatches = true := by
  cases h with
  | dispatch h d hd => exact ⟨_, rfl, hd⟩

/-- A dispatch is the last event, or has been answered. -/
theorem Answered.split (h : Answered R es current) (hes : es = before ++ d :: after)
    (hd : d.kind.dispatches = true) : (after = [] ∧ current = some d) ∨
      ∃ e rest, after = e :: rest ∧ e.kind.dispatches = false ∧ e.process = d.process ∧ R d e := by
  induction h generalizing after with
  | nil => exact absurd hes (by simp)
  | dispatch h d' hd' ih =>
    rcases concat_split hes with ⟨rfl, -, rfl⟩ | ⟨rest, rfl, hbefore⟩
    · exact Or.inl ⟨rfl, rfl⟩
    · rcases ih hbefore with ⟨-, hopen⟩ | ⟨e, rest', rfl, hanswer⟩
      · exact absurd hopen (by simp)
      · exact Or.inr ⟨e, rest' ++ [d'], rfl, hanswer⟩
  | release h e he hprocess hanswer ih =>
    rcases concat_split hes with ⟨rfl, -, rfl⟩ | ⟨rest, rfl, hbefore⟩
    · exact absurd (he.symm.trans hd) (by simp)
    · rcases ih hbefore with ⟨rfl, hopen⟩ | ⟨e', rest', rfl, hanswer'⟩
      · obtain rfl := Option.some.inj hopen
        exact Or.inr ⟨e, [], rfl, he, hprocess, hanswer⟩
      · exact Or.inr ⟨e', rest' ++ [e], rfl, hanswer'⟩

/-- In a log without an open dispatch, every dispatch has been answered. -/
theorem Answered.answer (h : Answered R es none) (hes : es = before ++ d :: after)
    (hd : d.kind.dispatches = true) :
    ∃ e rest, after = e :: rest ∧ e.kind.dispatches = false ∧ e.process = d.process ∧ R d e := by
  rcases h.split hes hd with ⟨-, hopen⟩ | hanswer
  · exact absurd hopen (by simp)
  · exact hanswer

/-- A release answers the event before it, which is a dispatch. -/
theorem Answered.asked (h : Answered R es current) (hes : es = before ++ e :: after)
    (he : e.kind.dispatches = false) :
    ∃ rest d, before = rest ++ [d] ∧ d.kind.dispatches = true ∧ R d e := by
  induction h generalizing after with
  | nil => exact absurd hes (by simp)
  | dispatch h d hd ih =>
    rcases concat_split hes with ⟨-, -, rfl⟩ | ⟨rest, -, hbefore⟩
    · exact absurd (he.symm.trans hd) (by simp)
    · exact ih hbefore
  | release h e' he' hprocess hanswer ih =>
    rcases concat_split hes with ⟨-, rfl, rfl⟩ | ⟨rest, -, hbefore⟩
    · obtain ⟨rest, hrest, hd⟩ := h.last
      exact ⟨rest, _, hrest, hd, hanswer⟩
    · exact ih hbefore

/-- After a release, the next one comes later: somebody has had the processor in between. -/
theorem Answered.tick_lt (h : Answered R es current) (hR : ∀ d e, R d e → d.tick < e.tick)
    (hsorted : es.Pairwise fun x y => x.tick ≤ y.tick) (hes : es = before ++ e :: after)
    (he : e.kind.dispatches = false) : ∀ f ∈ after, f.kind.dispatches = false → e.tick < f.tick := by
  intro f hf hrelease
  obtain ⟨between, rest, rfl⟩ := List.append_of_mem hf
  have hsplit : es = (before ++ e :: between) ++ f :: rest := by
    rw [hes, List.append_assoc, List.cons_append]
  obtain ⟨earlier, d, hbefore, hd, hanswer⟩ := h.asked hsplit hrelease
  rcases List.eq_nil_or_concat between with rfl | ⟨init, x, rfl⟩
  · obtain rfl := List.singleton_inj.mp (List.append_inj' hbefore rfl).2
    exact absurd (he.symm.trans hd) (by simp)
  · rw [List.concat_eq_append, ← List.cons_append, ← List.append_assoc] at hbefore
    obtain rfl := List.singleton_inj.mp (List.append_inj' hbefore rfl).2
    rw [hes] at hsorted
    have hle := (List.pairwise_cons.mp (List.pairwise_append.mp hsorted).2.1).1 x (by simp)
    exact Nat.lt_of_le_of_lt hle (hR x f hanswer)

/-- **In a log of slices every dispatch is answered by the next event, later and of the same process.**
If the process has no finish up to the tick with which its slice is used up, then it is stopped at
that tick; and if there is no such tick, then it is given the time to finish. -/
theorem Answered.slices (h : Answered (Slice contended quantum) es none)
    (hsorted : es.Pairwise fun x y => x.tick ≤ y.tick) (hes : es = before ++ d :: after)
    (hd : d.kind.dispatches = true) :
    ∃ e rest, after = e :: rest ∧ e.process = d.process ∧ d.tick < e.tick ∧
      (∀ t, UsesUp contended quantum d.tick t →
        (∀ f ∈ after, f.process = d.process → f.kind = .finished → t < f.tick) →
        e.kind = .stopped ∧ e.tick = t) ∧
      ((∀ t, UsesUp contended quantum d.tick t →
        ∃ f ∈ after, f.process = d.process ∧ f.kind = .finished ∧ f.tick ≤ t) →
        e.kind = .finished) := by
  obtain ⟨e, rest, rfl, he, hprocess, hslice⟩ := h.answer hes hd
  refine ⟨e, rest, rfl, hprocess, hslice.time, fun t hused hunfinished => ?_, fun hfinished => ?_⟩
  · cases hslice with
    | stopped hkind hused' => exact ⟨hkind, hused'.unique hused⟩
    | finished hkind htime hfirst =>
      exact absurd (hunfinished e List.mem_cons_self hprocess hkind) (Nat.not_lt.mpr (hfirst t hused))
  · cases hslice with
    | finished hkind htime hfirst => exact hkind
    | stopped hkind hused =>
      obtain ⟨f, hf, -, hfkind, hle⟩ := hfinished e.tick hused
      rcases List.mem_cons.mp hf with rfl | hf
      · exact hfkind
      · have hsplit : es = (before ++ [d]) ++ e :: rest := by rw [hes]; simp
        have hlt := h.tick_lt (fun d e hde => hde.time) hsorted hsplit he f hf (by rw [hfkind]; rfl)
        exact absurd hle (Nat.not_le.mpr hlt)

end Uniprocessor
