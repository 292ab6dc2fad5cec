import Uniprocessor.Proofs.Ready.Heap

/-!
# The order of a heap

No entry comes before its parent, so the root is first.  Where a single entry is out of place, it is
out of place in one direction only: it may come before its parent, and is sifted up, or after its
children, and is sifted down.  Either way its children are in order with its parent, which is why
they may change places with it.

* `HeapEntry.Precedes`: an entry does not come after another one;
* `PriorityHeap.Ordered`: the order of the array;
* `Raised.ordered_siftUp`, `Lowered.ordered_siftDown`: sifting puts the one entry into its place;
* `Ordered.of_push`, `Ordered.of_pop`: **an ordered heap stays ordered**;
* `Ordered.root_precedes`: **the root of an ordered heap is first.**
-/

namespace Uniprocessor
namespace HeapEntry

variable {α : Type} {x y z : HeapEntry α}

/-- An entry does not come after another one. -/
def Precedes (x y : HeapEntry α) : Prop :=
  y.before x = false

theorem before_iff :
    x.before y = true ↔ x.key < y.key ∨ x.key = y.key ∧ x.sequence < y.sequence := by
  simp [before]

theorem precedes_iff :
    x.Precedes y ↔ x.key < y.key ∨ x.key = y.key ∧ x.sequence ≤ y.sequence := by
  rw [Precedes, ← Bool.not_eq_true, before_iff]
  omega

theorem Precedes.refl (x : HeapEntry α) : x.Precedes x :=
  precedes_iff.mpr (Or.inr ⟨rfl, Nat.le_refl _⟩)

theorem Precedes.trans (h : x.Precedes y) (h' : y.Precedes z) : x.Precedes z := by
  rw [precedes_iff] at h h' ⊢
  omega

theorem Precedes.of_before (h : x.before y = true) : x.Precedes y := by
  rw [before_iff] at h
  rw [precedes_iff]
  omega

theorem Precedes.key_le (h : x.Precedes y) : x.key ≤ y.key := by
  rw [precedes_iff] at h
  omega

/-- Among entries in the order of their numbers, the one that precedes all is the first of the
least. -/
theorem first_of_least {before after : List (HeapEntry α)}
    (hnumbered : (before ++ x :: after).Pairwise fun y z => y.sequence < z.sequence)
    (hfirst : ∀ y ∈ before ++ x :: after, x.Precedes y) :
    (∀ y ∈ before, x.key < y.key) ∧ ∀ y ∈ after, x.key ≤ y.key := by
  refine ⟨fun y hy => ?_, fun y hy =>
    (hfirst y (List.mem_append_right _ (List.mem_cons_of_mem _ hy))).key_le⟩
  -- it has the less number, so its key is not the same
  have hnumber : y.sequence < x.sequence :=
    (List.pairwise_append.mp hnumbered).2.2 y hy x List.mem_cons_self
  have hle := precedes_iff.mp (hfirst y (List.mem_append_left _ hy))
  omega

end HeapEntry

namespace PriorityHeap

variable {α : Type} {a : Array (HeapEntry α)} {i j k : Nat}

/-- Where the parent of an entry is; the root is its own parent. -/
def parent (i : Nat) : Nat :=
  (i - 1) / 2

/-- The entry at `i` does not come after the one at `j`, if there are both. -/
def Leads (a : Array (HeapEntry α)) (i j : Nat) : Prop :=
  ∀ x y, a[i]? = some x → a[j]? = some y → x.Precedes y

theorem Leads.refl (a : Array (HeapEntry α)) (i : Nat) : Leads a i i := by
  intro x y hx hy
  obtain rfl := Option.some.inj (hx.symm.trans hy)
  exact .refl x

theorem Leads.trans (h : Leads a i j) (h' : Leads a j k) (hj : j < a.size) : Leads a i k :=
  fun x z hx hz =>
    (h x a[j] hx (Array.getElem?_eq_getElem hj)).trans (h' a[j] z (Array.getElem?_eq_getElem hj) hz)

/-- Beyond the end of the array there is nothing to lead. -/
theorem leads_of_size_le (h : a.size ≤ j) : Leads a i j := fun _ _ _ hy =>
  absurd (Array.getElem?_eq_some_iff.mp hy).1 (Nat.not_lt.mpr h)

/-- What an array that agrees in two places is like there. -/
theorem Leads.congr {b : Array (HeapEntry α)} (h : Leads a i j) (hi : b[i]? = a[i]?)
    (hj : b[j]? = a[j]?) : Leads b i j :=
  fun x y hx hy => h x y (hi ▸ hx) (hj ▸ hy)

/-- Where an entry was before two entries were swapped. -/
def unswap (i j k : Nat) : Nat :=
  if k = j then i else if k = i then j else k

theorem unswap_of_ne (hi : k ≠ i) (hj : k ≠ j) : unswap i j k = k := by
  rw [unswap, if_neg hj, if_neg hi]

theorem unswap_right (i j : Nat) : unswap i j j = i :=
  if_pos rfl

theorem unswap_left (i j : Nat) : unswap i j i = j := by
  unfold unswap
  split
  · assumption
  · exact if_pos rfl

theorem getElem?_swap (hi : i < a.size) (hj : j < a.size) (k : Nat) :
    (a.swap i j hi hj)[k]? = a[unswap i j k]? := by
  unfold unswap
  rw [Array.getElem?_swap, apply_ite (fun k => a[k]?), apply_ite (fun k => a[k]?),
    Array.getElem?_eq_getElem hi, Array.getElem?_eq_getElem hj]
  simp only [eq_comm]

theorem leads_swap (hi : i < a.size) (hj : j < a.size) (k l : Nat) :
    Leads (a.swap i j hi hj) k l ↔ Leads a (unswap i j k) (unswap i j l) := by
  unfold Leads
  rw [getElem?_swap, getElem?_swap]

/-! ## Ordered arrays -/

/-- No entry comes before its parent. -/
def Ordered (a : Array (HeapEntry α)) : Prop :=
  ∀ j, 0 < j → Leads a (parent j) j

theorem ordered_empty : Ordered (#[] : Array (HeapEntry α)) :=
  fun j _ => leads_of_size_le (Nat.zero_le j)

theorem Ordered.root_leads (h : Ordered a) (i : Nat) : Leads a 0 i := by
  induction i using Nat.strongRecOn with
  | ind i ih =>
    rcases Nat.eq_zero_or_pos i with rfl | hpos
    · exact .refl a 0
    · by_cases hi : i < a.size
      · have hlt : parent i < i := by
          unfold parent
          omega
        exact (ih (parent i) hlt).trans (h i hpos) (Nat.lt_trans hlt hi)
      · exact leads_of_size_le (Nat.le_of_not_lt hi)

/-- **The root of an ordered heap is first.** -/
theorem Ordered.root_precedes {x y : HeapEntry α} (h : Ordered a) (hroot : a[0]? = some x)
    (hy : y ∈ a) : x.Precedes y := by
  obtain ⟨i, hi⟩ := Array.mem_iff_getElem?.mp hy
  exact h.root_leads i x y hroot hi

/-- The children of an entry are in order with its parent. -/
def Bypasses (a : Array (HeapEntry α)) (i : Nat) : Prop :=
  ∀ j, 0 < i → 0 < j → parent j = i → Leads a (parent i) j

/-! ## Sifting up -/

/-- All is in order, but that the entry at `i` may come before its parent. -/
structure Raised (a : Array (HeapEntry α)) (i : Nat) : Prop where
  others : ∀ j, 0 < j → j ≠ i → Leads a (parent j) j
  bypasses : Bypasses a i

/-- An entry that comes before its parent may take its place. -/
theorem Raised.swap (h : Raised a i) (hpos : 0 < i) (hi : i < a.size)
    (hbefore : Leads a i (parent i)) (hp : parent i < a.size) :
    Raised (a.swap (parent i) i hp hi) (parent i) := by
  have hlt : parent i < i := by
    unfold parent
    omega
  -- whatever has the old parent for its parent is in order with the new one
  have hsibling : ∀ j, 0 < j → j ≠ i → parent j = parent i → Leads a i j := fun j hj hne hparent =>
    hbefore.trans (hparent ▸ h.others j hj hne) hp
  refine ⟨fun j hj hne => ?_, fun j hgrand hj hparent => ?_⟩
  · rw [leads_swap]
    by_cases hji : j = i
    · subst hji
      rw [unswap_left, unswap_right]
      exact hbefore
    · rw [unswap_of_ne hne hji]
      by_cases hpi : parent j = i
      · rw [hpi, unswap_right]
        exact h.bypasses j hpos hj hpi
      · by_cases hpp : parent j = parent i
        · rw [hpp, unswap_left]
          exact hsibling j hj hji hpp
        · rw [unswap_of_ne hpp hpi]
          exact h.others j hj hji
  · have hup : Leads a (parent (parent i)) (parent i) := h.others _ hgrand (Nat.ne_of_lt hlt)
    have hlt' : parent (parent i) < parent i := by
      unfold parent at hgrand ⊢
      omega
    rw [leads_swap, unswap_of_ne (Nat.ne_of_lt hlt') (Nat.ne_of_lt (Nat.lt_trans hlt' hlt))]
    by_cases hji : j = i
    · subst hji
      rw [unswap_right]
      exact hup
    · have hjp : j ≠ parent i := by
        rintro rfl
        exact absurd hparent (Nat.ne_of_lt hlt')
      rw [unswap_of_ne hjp hji]
      exact hup.trans (hparent ▸ h.others j hj hji) hp

/-- **Sifting up puts an entry into its place** that may come before its parent. -/
theorem Raised.ordered_siftUp (h : Raised a i) : Ordered (siftUp a i) := by
  induction a, i using siftUp.induct with
  | case1 a i hi hbefore ih =>
    rw [siftUp, dif_pos hi, if_pos hbefore]
    refine ih (h.swap hi.1 hi.2 ?_ _)
    intro x y hx hy
    obtain ⟨-, rfl⟩ := Array.getElem?_eq_some_iff.mp hx
    obtain ⟨-, rfl⟩ := Array.getElem?_eq_some_iff.mp hy
    exact .of_before hbefore
  | case2 a i hi hbefore =>
    rw [siftUp, dif_pos hi, if_neg hbefore]
    intro j hj
    by_cases hji : j = i
    · subst hji
      intro x y hx hy
      obtain ⟨-, rfl⟩ := Array.getElem?_eq_some_iff.mp hx
      obtain ⟨-, rfl⟩ := Array.getElem?_eq_some_iff.mp hy
      exact Bool.eq_false_iff.mpr hbefore
    · exact h.others j hj hji
  | case3 a i hi =>
    rw [siftUp, dif_neg hi]
    intro j hj
    by_cases hji : j = i
    · subst hji
      exact leads_of_size_le (Nat.le_of_not_lt fun hlt => hi ⟨hj, hlt⟩)
    · exact h.others j hj hji

/-! ## Sifting down -/

/-- All is in order, but that the entry at `i` may come after its children. -/
structure Lowered (a : Array (HeapEntry α)) (i : Nat) : Prop where
  others : ∀ j, 0 < j → parent j ≠ i → Leads a (parent j) j
  bypasses : Bypasses a i

theorem earlier_leads (a : Array (HeapEntry α)) (i j : Nat) :
    Leads a (earlier a i j) i ∧ (i < a.size → Leads a (earlier a i j) j) := by
  unfold earlier
  split
  · rename_i x y hx hy
    split
    · rename_i hbefore
      refine ⟨fun x' y' hx' hy' => ?_, fun _ => .refl a j⟩
      obtain rfl := Option.some.inj (hy.symm.trans hx')
      obtain rfl := Option.some.inj (hx.symm.trans hy')
      exact .of_before hbefore
    · rename_i hbefore
      refine ⟨.refl a i, fun _ x' y' hx' hy' => ?_⟩
      obtain rfl := Option.some.inj (hx.symm.trans hx')
      obtain rfl := Option.some.inj (hy.symm.trans hy')
      exact Bool.eq_false_iff.mpr hbefore
  · rename_i hnone
    refine ⟨.refl a i, fun hi x y hx hy => absurd hy (hnone x y hx)⟩

theorem earlier_lt (hi : i < a.size) (j : Nat) : earlier a i j < a.size := by
  rcases earlier_eq a i j with h | ⟨h, hlt⟩ <;> omega

/-- The first of an entry and its children leads all of them. -/
theorem first_leads (hi : i < a.size) :
    Leads a (first a i) i ∧ ∀ j, 0 < j → parent j = i → Leads a (first a i) j := by
  obtain ⟨hself, hleft⟩ := earlier_leads a i (2 * i + 1)
  obtain ⟨hbest, hright⟩ := earlier_leads a (earlier a i (2 * i + 1)) (2 * i + 2)
  have hlt := earlier_lt hi (2 * i + 1)
  refine ⟨hbest.trans hself hlt, fun j hj hparent => ?_⟩
  have hchild : j = 2 * i + 1 ∨ j = 2 * i + 2 := by
    unfold parent at hparent
    omega
  rcases hchild with rfl | rfl
  · exact hbest.trans (hleft hi) hlt
  · exact hright hlt

theorem parent_first (h : first a i ≠ i) : parent (first a i) = i := by
  have hchild : first a i = i ∨ first a i = 2 * i + 1 ∨ first a i = 2 * i + 2 := by
    unfold first
    rcases earlier_eq a (earlier a i (2 * i + 1)) (2 * i + 2) with h' | ⟨h', -⟩
    · rw [h']
      rcases earlier_eq a i (2 * i + 1) with h'' | ⟨h'', -⟩ <;> omega
    · exact Or.inr (Or.inr h')
  unfold parent
  omega

/-- An entry that comes after a child changes places with the first of its children. -/
theorem Lowered.swap (h : Lowered a i) (hi : i < a.size) {f : Nat} (hf : f < a.size)
    (hlt : i < f) (hparent : parent f = i) (hself : Leads a f i)
    (hfirst : ∀ j, 0 < j → parent j = i → Leads a f j) : Lowered (a.swap i f hi hf) f := by
  have hpos : 0 < f := Nat.zero_lt_of_lt hlt
  refine ⟨fun j hj hne => ?_, fun j _ hj hjf => ?_⟩
  · rw [leads_swap]
    by_cases hji : j = i
    · subst hji
      have hne' : parent j ≠ j := by
        unfold parent
        omega
      rw [unswap_left, unswap_of_ne hne' hne]
      exact h.bypasses f hj hpos hparent
    · by_cases hpi : parent j = i
      · rw [hpi, unswap_left]
        by_cases hjf : j = f
        · subst hjf
          rw [unswap_right]
          exact hself
        · rw [unswap_of_ne hji hjf]
          exact hfirst j hj hpi
      · have hjf : j ≠ f := by
          rintro rfl
          exact hpi hparent
        rw [unswap_of_ne hpi hne, unswap_of_ne hji hjf]
        exact h.others j hj hpi
  · have hlt' : f < j := by
      unfold parent at hjf
      omega
    rw [hparent, leads_swap, unswap_left,
      unswap_of_ne (Nat.ne_of_gt (Nat.lt_trans hlt hlt')) (Nat.ne_of_gt hlt')]
    exact hjf ▸ h.others j hj (hjf ▸ Nat.ne_of_gt hlt)

/-- **Sifting down puts an entry into its place** that may come after its children. -/
theorem Lowered.ordered_siftDown (h : Lowered a i) : Ordered (siftDown a i) := by
  induction a, i using siftDown.induct with
  | case1 a i hfirst =>
    rw [siftDown, dif_pos hfirst]
    intro j hj
    by_cases hparent : parent j = i
    · by_cases hi : i < a.size
      · have hleads := (first_leads hi).2 j hj hparent
        rw [hfirst] at hleads
        rwa [hparent]
      · refine leads_of_size_le ?_
        unfold parent at hparent
        omega
    · exact h.others j hj hparent
  | case2 a i hfirst hlt ih =>
    rw [siftDown, dif_neg hfirst]
    have hi : i < a.size := Nat.lt_trans hlt.1 hlt.2
    obtain ⟨hself, hchildren⟩ := first_leads hi
    exact ih (h.swap hi hlt.2 hlt.1 (parent_first hfirst) hself hchildren)

/-! ## Ordered heaps -/

/-- An entry put at the end and sifted up is in its place. -/
theorem Ordered.push (h : Ordered a) (x : HeapEntry α) : Ordered (siftUp (a.push x) a.size) := by
  refine Raised.ordered_siftUp ⟨fun j hj hne => ?_, fun j _ hj hparent => ?_⟩
  · have hsame : ∀ k, k < a.size → (a.push x)[k]? = a[k]? := fun k hk => by
      rw [Array.getElem?_push, if_neg (Nat.ne_of_lt hk)]
    by_cases hlt : j < a.size
    · refine (h j hj).congr (hsame _ ?_) (hsame j hlt)
      unfold parent
      omega
    · refine leads_of_size_le ?_
      rw [Array.size_push]
      omega
  · refine leads_of_size_le ?_
    unfold parent at hparent
    rw [Array.size_push]
    omega

/-- Without its root a heap is ordered. -/
theorem Ordered.dropRoot (h : Ordered a) : Ordered (dropRoot a) := by
  unfold PriorityHeap.dropRoot
  split
  · rename_i last hlast
    refine Lowered.ordered_siftDown ⟨fun j hj hne => ?_, fun j hpos => absurd hpos (Nat.lt_irrefl 0)⟩
    have hsame : ∀ k, 0 < k → k < a.size - 1 → (a.pop.setIfInBounds 0 last)[k]? = a[k]? := by
      intro k hk hlt
      rw [Array.getElem?_setIfInBounds, if_neg (Nat.ne_of_lt hk), Array.getElem?_pop, if_pos hlt]
    by_cases hlt : j < a.size - 1
    · have hparent : 0 < parent j := Nat.pos_of_ne_zero hne
      refine (h j hj).congr (hsame _ hparent ?_) (hsame j hj hlt)
      unfold parent
      omega
    · refine leads_of_size_le ?_
      rw [Array.size_setIfInBounds, Array.size_pop]
      omega
  · exact h

variable {h h' : PriorityHeap α} {key : Nat} {item : α} {x : HeapEntry α}

theorem Ordered.of_push (hordered : Ordered h.entries) (hpush : h.push key item = .ok h') :
    Ordered h'.entries := by
  rw [eq_of_push hpush]
  exact hordered.push _

theorem Ordered.of_pop (hordered : Ordered h.entries) (hpop : h.pop? = some (x, h')) :
    Ordered h'.entries := by
  rw [(eq_of_pop hpop).2]
  exact hordered.dropRoot

end PriorityHeap
end Uniprocessor
