import Uniprocessor.Json.Token
import Uniprocessor.Proofs.Text.Numeral

/-!
# Literals as they are spelled

A literal is proper if it is one that the number grammar derives: there is a digit before the point, a
zero there stands alone, and an exponent has digits.  A proper literal is read from its characters as
it is, and the literals of numbers are proper.

* `Literal.ofChars?_chars`: **a proper literal is read as it is spelled**;
* `Literal.proper_ofNat`, `proper_ofDecimal`: what is written is proper;
* `Literal.nat?_ofNat`: a number below a bound is read back.
-/

namespace Uniprocessor.Literal

variable {l : Literal} {cs ds rest : List Char}

/-- A literal of the number grammar. -/
structure Proper (l : Literal) : Prop where
  whole : l.whole.all Char.isDigit = true
  nonempty : l.whole ≠ []
  noLeadingZero : l.whole.head? = some '0' → l.whole.length = 1
  fraction : l.fraction.all Char.isDigit = true
  exponent : ∀ minus ds, l.exponent = some (minus, ds) → ds ≠ [] ∧ ds.all Char.isDigit = true

/-- A text that does not go on with a digit. -/
def StopsDigits (cs : List Char) : Prop :=
  ∀ c ∈ cs.head?, c.isDigit = false

/-- The digits at the front of a text are those up to where it stops. -/
theorem spanDigits_append (hds : ds.all Char.isDigit = true) (hrest : StopsDigits rest) :
    spanDigits (ds ++ rest) = (ds, rest) := by
  have hmem := List.all_eq_true.mp hds
  have htake : rest.takeWhile Char.isDigit = [] ∧ rest.dropWhile Char.isDigit = rest := by
    cases rest with
    | nil => exact ⟨rfl, rfl⟩
    | cons c rest =>
      have hc : c.isDigit = false := hrest c rfl
      simp [hc]
  rw [spanDigits, List.takeWhile_append_of_pos hmem, List.dropWhile_append_of_pos hmem, htake.1,
    htake.2, List.append_nil]

/-- The characters of an exponent. -/
def exponentChars : Option (Bool × List Char) → List Char
  | none => []
  | some (minus, ds) => 'e' :: (if minus then '-' else '+') :: ds

/-- The characters of a fraction. -/
def fractionChars (ds : List Char) : List Char :=
  if ds.isEmpty then [] else '.' :: ds

theorem chars_eq (l : Literal) :
    l.chars = (if l.negative then ['-'] else []) ++
      (l.whole ++ (fractionChars l.fraction ++ exponentChars l.exponent)) := by
  rw [chars, List.append_assoc, List.append_assoc]
  rfl

theorem stopsDigits_exponent (e : Option (Bool × List Char)) : StopsDigits (exponentChars e) := by
  cases e with
  | none => exact fun _ hc => absurd hc (by simp [exponentChars])
  | some e =>
    intro c hc
    obtain rfl := Option.some.inj hc
    rfl

/-- An exponent is read as it is spelled. -/
theorem exponent?_chars (h : l.Proper) : exponent? (exponentChars l.exponent) = some l.exponent := by
  cases hexponent : l.exponent with
  | none => rfl
  | some e =>
    obtain ⟨minus, ds⟩ := e
    obtain ⟨hne, hds⟩ := h.exponent minus ds hexponent
    have hguard : (ds.isEmpty || !ds.all Char.isDigit) = false := by simp [hne, hds]
    cases minus <;> simp [exponentChars, exponent?, hguard]

/-- What follows the sign is read as it is spelled. -/
theorem unsigned?_chars (h : l.Proper) :
    unsigned? l.negative (l.whole ++ (fractionChars l.fraction ++ exponentChars l.exponent)) =
      some l := by
  have hguard : (l.whole.isEmpty || (l.whole.head? == some '0' && decide (1 < l.whole.length))) =
      false := by
    rw [Bool.or_eq_false_iff, Bool.and_eq_false_iff]
    refine ⟨by simp [h.nonempty], ?_⟩
    by_cases hzero : l.whole.head? = some '0'
    · exact Or.inr (by simp [h.noLeadingZero hzero])
    · exact Or.inl (by simp [hzero])
  have hread := exponent?_chars h
  obtain ⟨negative, whole, fraction, exponent⟩ := l
  cases fraction with
  | nil =>
    -- without a point the exponent follows at once
    have hspan : spanDigits (whole ++ (fractionChars [] ++ exponentChars exponent)) =
        (whole, exponentChars exponent) :=
      spanDigits_append h.whole (stopsDigits_exponent exponent)
    simp only [unsigned?, hspan, hguard]
    cases exponent with
    | none => rfl
    | some e =>
      have hread' : exponent? ('e' :: (if e.1 then '-' else '+') :: e.2) = some (some e) := hread
      simp [exponentChars, hread']
  | cons c cs =>
    have hspan : spanDigits (whole ++ (fractionChars (c :: cs) ++ exponentChars exponent)) =
        (whole, '.' :: ((c :: cs) ++ exponentChars exponent)) := by
      refine spanDigits_append h.whole ?_
      intro d hd
      obtain rfl := Option.some.inj hd
      rfl
    have hspan' : spanDigits ((c :: cs) ++ exponentChars exponent) =
        (c :: cs, exponentChars exponent) :=
      spanDigits_append h.fraction (stopsDigits_exponent exponent)
    have hread' : exponent? (exponentChars exponent) = some exponent := hread
    simp only [unsigned?, hspan, hguard, hspan', hread']
    rfl

/-- **A proper literal is read as it is spelled.** -/
theorem ofChars?_chars (h : l.Proper) : ofChars? l.chars = some l := by
  have hunsigned := unsigned?_chars h
  rw [chars_eq]
  cases hnegative : l.negative with
  | true =>
    rw [hnegative] at hunsigned
    exact hunsigned
  | false =>
    rw [hnegative] at hunsigned
    cases hwhole : l.whole with
    | nil => exact absurd hwhole h.nonempty
    | cons c cs =>
      -- a digit is no sign
      have hdigit : c.isDigit = true := List.all_eq_true.mp h.whole c (by simp [hwhole])
      have hne : c ≠ '-' := by
        rintro rfl
        exact absurd hdigit (by decide)
      rw [hwhole] at hunsigned
      simp only [Bool.false_eq_true, if_false, List.nil_append, List.cons_append]
      rw [ofChars?]
      · exact hunsigned
      · intro rest heq
        exact hne (List.cons.inj heq).1

/-! ## What is written -/

theorem proper_ofNat (n : Nat) : (ofNat n).Proper where
  whole := Text.all_isDigit_digits n
  nonempty := Text.digits_ne_nil n
  noLeadingZero := Text.no_leading_zero n
  fraction := rfl
  exponent _ _ h := absurd h (by simp [ofNat])

/-- **A number below a bound is read back.** -/
theorem nat?_ofNat {n bound : Nat} (h : n < bound) : (ofNat n).nat? bound = some n :=
  Text.readDigits?_digits h

theorem proper_zero (negative : Bool) : Proper ⟨negative, ['0'], ['0'], none⟩ where
  whole := rfl
  nonempty := by simp
  noLeadingZero _ := rfl
  fraction := rfl
  exponent _ _ h := absurd h (by simp)

/-- The digits of a decimal, without trailing zeros, start with a digit that is no zero. -/
theorem significant_eq_cons {n : Nat} (h : 0 < n) :
    ∃ c rest, Text.dropTrailingZeros (Text.digits n) = c :: rest ∧ c ≠ '0' := by
  obtain ⟨c, cs, hcs, hc⟩ := Text.digits_eq_cons h
  obtain ⟨rest, hrest⟩ := Text.dropTrailingZeros_eq_cons cs hc
  exact ⟨c, rest, by rw [hcs, hrest], hc⟩

/-- **The literal of a decimal is proper.** -/
theorem proper_ofDecimal (negative : Bool) {d : Decimal} (h : 0 < d.digits) :
    (ofDecimal negative d).Proper := by
  obtain ⟨c, rest, hds, hc⟩ := significant_eq_cons h
  have hall : (c :: rest).all Char.isDigit = true :=
    hds ▸ Text.all_isDigit_dropTrailingZeros (Text.all_isDigit_digits d.digits)
  have hmem := List.all_eq_true.mp hall
  have hzeros : ∀ n, ∀ x ∈ List.replicate n '0', x.isDigit = true := by
    intro n x hx
    rw [(List.mem_replicate.mp hx).2]
    rfl
  have hhead : ∀ xs : List Char, (c :: xs).head? = some '0' → (c :: xs).length = 1 := fun _ heq =>
    absurd (Option.some.inj heq) hc
  unfold ofDecimal
  rw [hds]
  dsimp only
  split
  · refine ⟨?_, by simp, hhead _, rfl, fun _ _ hx => absurd hx (by simp)⟩
    rw [List.all_append, hall, List.all_eq_true.mpr (hzeros _)]
    rfl
  · split
    · rename_i hpoint
      rw [Bool.and_eq_true, decide_eq_true_eq] at hpoint
      obtain ⟨n, hn⟩ : ∃ n, (((c :: rest).length : Int) + (d.exponent +
          ((Text.digits d.digits).length - (c :: rest).length : Nat))).toNat = n + 1 :=
        ⟨_, (Nat.succ_pred_eq_of_pos (by omega)).symm⟩
      rw [hn]
      refine ⟨?_, by simp, hhead _, ?_, fun _ _ hx => absurd hx (by simp)⟩
      · exact List.all_eq_true.mpr fun x hx => hmem x (List.mem_of_mem_take hx)
      · exact List.all_eq_true.mpr fun x hx => hmem x (List.mem_of_mem_drop hx)
    · split
      · refine ⟨rfl, by simp, fun _ => rfl, ?_, fun _ _ hx => absurd hx (by simp)⟩
        rw [List.all_append, hall, List.all_eq_true.mpr (hzeros _)]
        rfl
      · refine ⟨?_, by simp, hhead _, ?_, ?_⟩
        · exact List.all_eq_true.mpr fun x hx => hmem x (List.mem_of_mem_take hx)
        · exact List.all_eq_true.mpr fun x hx => hmem x (List.mem_of_mem_drop hx)
        · intro minus ds hx
          obtain ⟨-, rfl⟩ := Prod.mk.inj (Option.some.inj hx)
          exact ⟨Text.digits_ne_nil _, Text.all_isDigit_digits _⟩

end Uniprocessor.Literal
