import Uniprocessor.Attempt

/-!
# Attempts, one after the other

* `ok_of_map`, `ok_of_bind`: what a computation that may fail has computed on its way to a result;
* `Attempt.andThen_state`: what all parts of an attempt keep, the whole keeps, also if it is refused;
* `Attempt.andThen_eq_done`: an attempt succeeds only if its parts do.
-/

namespace Uniprocessor

section Results

variable {ε α β : Type} {x : Except ε α} {a : α} {b : β}

theorem ok_of_toOption (h : x.toOption = some a) : x = .ok a := by
  cases x with
  | error e => exact absurd h (by simp [Except.toOption])
  | ok b => exact congrArg Except.ok (Option.some.inj h)

theorem exists_of_toOption_map {f : α → β} (h : x.toOption.map f = some b) :
    ∃ a, x = .ok a ∧ f a = b := by
  obtain ⟨a, ha, hb⟩ := Option.map_eq_some_iff.mp h
  exact ⟨a, ok_of_toOption ha, hb⟩

/-- Two steps succeed if both do. -/
theorem ok_of_bind {f : α → Except ε β} (h : x >>= f = .ok b) : ∃ a, x = .ok a ∧ f a = .ok b := by
  cases x with
  | error e => exact absurd h (by simp [bind, Except.bind])
  | ok a => exact ⟨a, rfl, h⟩

theorem ok_of_map {f : α → β} (h : x.map f = .ok b) : ∃ a, x = .ok a ∧ f a = b := by
  cases x with
  | error e => exact absurd h (by simp [Except.map])
  | ok a => exact ⟨a, rfl, Except.ok.inj h⟩

theorem error_of_map {f : α → β} {e : ε} (h : x.map f = .error e) : x = .error e := by
  cases x with
  | error e' => exact congrArg Except.error (Except.error.inj h)
  | ok a => exact absurd h (by simp [Except.map])

end Results

namespace Attempt

variable {σ α β γ : Type}

/-- What an attempt and all that may come after it keep, the two together keep. -/
theorem andThen_state {P : σ → Prop} {x : Attempt σ α} {f : α → σ → Attempt σ β} (hx : P x.state)
    (hf : ∀ a s, P s → P (f a s).state) : P (x.andThen f).state := by
  rcases x with ⟨result, s⟩
  cases result with
  | ok a => exact hf a s hx
  | error e => exact hx

theorem refused_ne_done (e : Failure) (s s' : σ) (a : α) :
    (refused e s : Attempt σ α) ≠ done a s' := fun h => by
  simpa [refused, done] using congrArg result h

/-- An attempt that results in an error was refused. -/
theorem eq_refused {x : Attempt σ α} {e : Failure} (h : x.result = .error e) :
    x = refused e x.state := by
  rcases x with ⟨result, s⟩
  obtain rfl : result = .error e := h
  rfl

/-- Two attempts succeed together exactly if each of them does. -/
theorem andThen_eq_done {x : Attempt σ α} {f : α → σ → Attempt σ β} {b : β} {s : σ}
    (h : x.andThen f = .done b s) : ∃ a s₁, x = .done a s₁ ∧ f a s₁ = .done b s := by
  rcases x with ⟨result, s₁⟩
  cases result with
  | ok a => exact ⟨a, s₁, rfl, h⟩
  | error e => exact absurd h (refused_ne_done e s₁ s b)

theorem andThen_assoc (x : Attempt σ α) (f : α → σ → Attempt σ β) (g : β → σ → Attempt σ γ) :
    (x.andThen f).andThen g = x.andThen fun a s => (f a s).andThen g := by
  rcases x with ⟨result, s⟩
  cases result <;> rfl

end Attempt

end Uniprocessor
