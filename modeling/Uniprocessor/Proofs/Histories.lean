import Mathlib.Data.List.Basic

/-!
# Histories

What has happened is listed in the order in which it happened, so what happens next is added at the end,
and something that happened before is found between what came earlier and what came later.  Where calls
are answered one after the other, each by what the calls before have left behind, the answers are such a
list too.

* `concat_split`: where something is found after one more thing has happened;
* `exchange`: what calls are answered, and what they leave behind;
* `exchange_related`: two who answer every call alike answer all calls alike;
* `foldlM_related`: who can keep up with every call can keep up with all of them.
-/

namespace Uniprocessor

/-- What is in a list to which something has been added is that, or was there before. -/
theorem concat_split {α : Type} {es before after : List α} {e d : α}
    (h : es ++ [e] = before ++ d :: after) : (after = [] ∧ es = before ∧ e = d) ∨
      ∃ rest, after = rest ++ [e] ∧ es = before ++ d :: rest := by
  rcases List.eq_nil_or_concat after with rfl | ⟨rest, x, rfl⟩
  · obtain ⟨hbefore, hlast⟩ := List.append_inj' h rfl
    exact Or.inl ⟨rfl, hbefore, List.singleton_inj.mp hlast⟩
  · rw [List.concat_eq_append, ← List.cons_append, ← List.append_assoc] at h
    obtain ⟨hbefore, hlast⟩ := List.append_inj' h rfl
    obtain rfl := List.singleton_inj.mp hlast
    exact Or.inr ⟨rest, List.concat_eq_append, hbefore⟩

section Exchange

variable {σ τ ι ω : Type} {respond : σ → ι → ω × σ} {respond' : τ → ι → ω × τ} {R : σ → τ → Prop}

/-- What the calls of a list are answered, and the state that they leave behind; `respond` says what
comes of one call. -/
def exchange (respond : σ → ι → ω × σ) (s : σ) : List ι → List ω × σ
  | [] => ([], s)
  | call :: calls =>
    let rest := exchange respond (respond s call).2 calls
    ((respond s call).1 :: rest.1, rest.2)

/-- Two who answer every call alike answer all calls alike. -/
theorem exchange_related
    (hstep : ∀ s t call, R s t → (respond s call).1 = (respond' t call).1 ∧
      R (respond s call).2 (respond' t call).2)
    {s : σ} {t : τ} (h : R s t) (calls : List ι) :
    (exchange respond s calls).1 = (exchange respond' t calls).1 ∧
      R (exchange respond s calls).2 (exchange respond' t calls).2 := by
  induction calls generalizing s t with
  | nil => exact ⟨rfl, h⟩
  | cons call calls ih =>
    obtain ⟨hanswer, hafter⟩ := hstep s t call h
    obtain ⟨hanswers, hlast⟩ := ih hafter
    exact ⟨List.cons_eq_cons.mpr ⟨hanswer, hanswers⟩, hlast⟩

end Exchange

/-- Who can keep up with every call of another one can keep up with all of them. -/
theorem foldlM_related {σ τ ι : Type} {step? : σ → ι → Option σ} {step : τ → ι → τ}
    {R : σ → τ → Prop}
    (hstep : ∀ s t call, R s t → ∃ s', step? s call = some s' ∧ R s' (step t call))
    {s : σ} {t : τ} (h : R s t) (calls : List ι) :
    ∃ s', calls.foldlM step? s = some s' ∧ R s' (calls.foldl step t) := by
  induction calls generalizing s t with
  | nil => exact ⟨s, rfl, h⟩
  | cons call calls ih =>
    obtain ⟨s₁, hs₁, h₁⟩ := hstep s t call h
    obtain ⟨s', hs', h'⟩ := ih h₁
    refine ⟨s', ?_, h'⟩
    rw [List.foldlM_cons, hs₁]
    exact hs'

end Uniprocessor
