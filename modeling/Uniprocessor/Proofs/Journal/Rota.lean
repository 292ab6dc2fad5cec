import Uniprocessor.Proofs.Journal.Course

/-!
# Whose turn it is

The process log of a run is a rota for the processor: a process is given it, and the next event takes
it from that process again.  So between a dispatch and the next event of the same process there is
no other event, and if ticks never decrease along the log, the turns of processes do not overlap.

* `Rota`: a log, and whose turn it is after it;
* `Rota.isChain`: dispatches and releases alternate;
* `Tenure`: a dispatch and the next event of the same process;
* `Rota.disjoint`: **turns of different processes do not overlap.**
-/

namespace Uniprocessor

/-- A log in which every dispatch is answered by a release of the same process before the next
dispatch; the process that has not been released yet is given. -/
inductive Rota : List ProcessEvent → Option Nat → Prop
  | nil : Rota [] none
  | dispatch {es : List ProcessEvent} (h : Rota es none) (e : ProcessEvent)
      (he : e.kind.dispatches = true) : Rota (es ++ [e]) (some e.process)
  | release {es : List ProcessEvent} (e : ProcessEvent) (h : Rota es (some e.process))
      (he : e.kind.dispatches = false) : Rota (es ++ [e]) none

/-- In `es`, the process that `d` gives the processor has its next event at `e`. -/
def Tenure (es : List ProcessEvent) (d e : ProcessEvent) : Prop :=
  ∃ before between after, es = before ++ d :: (between ++ e :: after) ∧
    d.kind.dispatches = true ∧ e.process = d.process ∧ ∀ x ∈ between, x.process ≠ d.process

namespace Rota

variable {es : List ProcessEvent} {current : Option Nat} {d e d' e' : ProcessEvent}

/-- Whose turn it is can be read off from the last event. -/
theorem last (h : Rota es current) : ∀ x ∈ es.getLast?,
    current = if x.kind.dispatches then some x.process else none := by
  cases h with
  | nil => exact fun x hx => absurd hx (by simp)
  | dispatch h e he =>
    intro x hx
    obtain rfl : e = x := Option.some.inj ((List.getLast?_concat ..).symm.trans hx)
    rw [if_pos he]
  | release e h he =>
    intro x hx
    obtain rfl : e = x := Option.some.inj ((List.getLast?_concat ..).symm.trans hx)
    rw [he, if_neg Bool.false_ne_true]

/-- Dispatches and releases alternate, and a release is about the process dispatched before it. -/
theorem isChain (h : Rota es current) : es.IsChain fun d e =>
    e.kind.dispatches = !d.kind.dispatches ∧ (d.kind.dispatches = true → e.process = d.process) := by
  induction h with
  | nil => exact List.isChain_nil
  | dispatch h e he ih =>
    refine isChain_concat.mpr ⟨ih, fun x hx => ?_⟩
    have hlast := h.last x hx
    cases hd : x.kind.dispatches with
    | true => exact absurd (hd ▸ hlast) (by simp)
    | false => exact ⟨he, fun h => absurd h (by simp)⟩
  | release e h he ih =>
    refine isChain_concat.mpr ⟨ih, fun x hx => ?_⟩
    have hlast := h.last x hx
    cases hd : x.kind.dispatches with
    | true => exact ⟨he, fun _ => Option.some.inj (hlast.trans (if_pos hd))⟩
    | false => exact absurd (hlast.trans (if_neg (by simp [hd]))) (by simp)

/-- A turn ends with the event after the dispatch, which is a release. -/
theorem adjacent (h : Rota es current) (ht : Tenure es d e) :
    ∃ before after, es = before ++ d :: e :: after ∧ d.kind.dispatches = true ∧
      e.kind.dispatches = false ∧ e.process = d.process := by
  obtain ⟨before, between, after, rfl, hd, hprocess, hother⟩ := ht
  have hchain := (List.isChain_append.mp h.isChain).2.1
  cases between with
  | nil =>
    obtain ⟨hrelease, -⟩ := (List.isChain_cons_cons.mp hchain).1
    exact ⟨before, after, rfl, hd, by rw [hrelease, hd]; rfl, hprocess⟩
  | cons x between =>
    obtain ⟨-, hsame⟩ := (List.isChain_cons_cons.mp hchain).1
    exact absurd (hsame hd) (hother x List.mem_cons_self)

/-- If one turn begins before another one in the log, it is over when the other one begins. -/
theorem tick_le_of_append {before rest after : List ProcessEvent}
    (hsorted : (before ++ d :: e :: after).Pairwise fun x y => x.tick ≤ y.tick)
    (he : e.kind.dispatches = false) (hd' : d'.kind.dispatches = true) (hne : d.process ≠ d'.process)
    {as : List ProcessEvent} (hsplit : d :: e :: after = as ++ d' :: rest) : e.tick ≤ d'.tick := by
  match as with
  | [] => exact absurd (congrArg ProcessEvent.process (List.cons.inj hsplit).1) hne
  | [x] =>
    obtain rfl : e = d' := (List.cons.inj (List.cons.inj hsplit).2).1
    exact absurd (he.symm.trans hd') (by simp)
  | x :: y :: as =>
    obtain rfl : after = as ++ d' :: rest := (List.cons.inj (List.cons.inj hsplit).2).2
    have hrest := (List.pairwise_append.mp hsorted).2.1
    have hafter := (List.pairwise_cons.mp (List.pairwise_cons.mp hrest).2).1
    exact hafter d' (List.mem_append_right _ List.mem_cons_self)

/-- **Turns of different processes do not overlap.** -/
theorem disjoint (h : Rota es current) (hsorted : es.Pairwise fun x y => x.tick ≤ y.tick)
    (ht : Tenure es d e) (ht' : Tenure es d' e') (hne : d.process ≠ d'.process) :
    e.tick ≤ d'.tick ∨ e'.tick ≤ d.tick := by
  obtain ⟨before, after, heq, hd, he, -⟩ := h.adjacent ht
  obtain ⟨before', after', heq', hd', he', -⟩ := h.adjacent ht'
  rcases List.append_eq_append_iff.mp (heq.symm.trans heq') with ⟨as, -, hsplit⟩ | ⟨as, -, hsplit⟩
  · exact Or.inl (tick_le_of_append (heq ▸ hsorted) he hd' hne hsplit)
  · exact Or.inr (tick_le_of_append (heq' ▸ hsorted) he' hd (Ne.symm hne) hsplit)

end Rota
end Uniprocessor
