import Mathlib.Data.List.Nodup
import Uniprocessor.Proofs.Ready.Order

/-!
# Heaps beside lists

What a bounded heap does can be said without its array.  It holds a list of entries, in the order in
which they were put in; a new one goes to the end of the list, and the one that comes first by key
and then by number is looked for.  A `Waitlist` is such a list.

Only the calls that speak of array indices cannot be answered from the list alone.  For these the
list is shown the array: the index means the entry that stands there, and it is the same entry of
the list whose key is lowered.  The numbers tell the entries apart, and lowering a key leaves them
alone, so among equal keys the order of insertion stays what it was.

* `Ordered.decrease`: a lowered entry is sifted into its place;
* `Waitlist.Refined.respond`: **one call has one answer**, from the heap and from the list;
* `Comparison.run_stable`: the same after any calls; and what is popped then, until nothing is left,
  comes by key and by order of insertion.
-/

namespace Uniprocessor

/-- A call on a heap. -/
inductive HeapCall (α : Type) where
  | push (key : Nat) (item : α)
  | pop
  | peek
  | decrease (index key : Nat)
  | position (p : α → Bool)

/-- What a call is answered. -/
inductive HeapAnswer (α : Type) where
  | done (result : Except Failure Unit)
  | entry (x? : Option (HeapEntry α))
  | index (i? : Option Nat)

namespace PriorityHeap

variable {α : Type}

/-- The answer to a call, and the heap afterwards; a heap that refuses a call is the same. -/
def respond (h : PriorityHeap α) : HeapCall α → HeapAnswer α × PriorityHeap α
  | .push key item =>
    match h.push key item with
    | .ok h' => (.done (.ok ()), h')
    | .error e => (.done (.error e), h)
  | .pop =>
    match h.pop? with
    | some (x, h') => (.entry (some x), h')
    | none => (.entry none, h)
  | .peek => (.entry h.peek?, h)
  | .decrease i key =>
    match h.decreaseKey i key with
    | .ok h' => (.done (.ok ()), h')
    | .error e => (.done (.error e), h)
  | .position p => (.index (h.position? p), h)

/-- A refused call changes nothing. -/
theorem respond_refused {h : PriorityHeap α} {call : HeapCall α} {e : Failure}
    (he : (h.respond call).1 = .done (.error e)) : (h.respond call).2 = h := by
  cases call with
  | push key item =>
    rw [respond] at he ⊢
    split at he
    · exact absurd he (by simp)
    · rfl
  | pop =>
    rw [respond] at he
    split at he <;> exact absurd he (by simp)
  | peek => rfl
  | decrease i key =>
    rw [respond] at he ⊢
    split at he
    · exact absurd he (by simp)
    · rfl
  | position p => rfl

/-- What comes out of a heap when it is popped at most `n` times. -/
def drainFor : Nat → PriorityHeap α → List (HeapEntry α)
  | 0, _ => []
  | n + 1, h =>
    match h.pop? with
    | some (x, h') => x :: drainFor n h'
    | none => []

/-! ## Lowered keys -/

variable {a : Array (HeapEntry α)} {x : HeapEntry α} {i key : Nat}

theorem lowered_precedes (hkey : key ≤ x.key) : HeapEntry.Precedes { x with key := key } x := by
  rw [HeapEntry.precedes_iff]
  exact (Nat.lt_or_eq_of_le hkey).imp_right fun heq => ⟨heq, Nat.le_refl _⟩

/-- **A lowered entry is sifted into its place.** -/
theorem Ordered.decrease (h : Ordered a) (hi : a[i]? = some x) (hkey : key ≤ x.key) :
    Ordered (siftUp (a.setIfInBounds i { x with key := key }) i) := by
  have hlt : i < a.size := (Array.getElem?_eq_some_iff.mp hi).1
  have hself : (a.setIfInBounds i { x with key := key })[i]? = some { x with key := key } := by
    rw [Array.getElem?_setIfInBounds, if_pos rfl, if_pos hlt]
  have hother : ∀ j, j ≠ i → (a.setIfInBounds i { x with key := key })[j]? = a[j]? := by
    intro j hj
    rw [Array.getElem?_setIfInBounds, if_neg hj.symm]
  have hparent : ∀ j, 0 < j → parent j ≠ j := by
    intro j hj
    unfold parent
    omega
  refine Raised.ordered_siftUp ⟨fun j hj hne => ?_, fun j hpos hj hji => ?_⟩
  · by_cases hpi : parent j = i
    · -- a child of the lowered entry is behind it all the more
      intro y z hy hz
      rw [hpi, hself] at hy
      rw [hother j hne] at hz
      obtain rfl := Option.some.inj hy
      exact (lowered_precedes hkey).trans (h j hj x z (hpi ▸ hi) hz)
    · exact (h j hj).congr (hother _ hpi) (hother j hne)
  · have hne : j ≠ i := fun heq => hparent j hj (hji.trans heq.symm)
    have hup : Leads a (parent i) j := (h i hpos).trans (hji ▸ h j hj) hlt
    exact hup.congr (hother _ (hparent i hpos)) (hother j hne)

end PriorityHeap

/-! ## Lists -/

/-- The entries that were put in and not taken out, in this order; there is room for so many. -/
structure Waitlist (α : Type) where
  entries : List (HeapEntry α)
  capacity : Nat
  /-- The number of the next entry. -/
  next : Nat

namespace Waitlist

variable {α : Type}

/-- The list without entries. -/
def empty (capacity : Nat) : Waitlist α :=
  ⟨[], capacity, 0⟩

/-- The entry that no other one comes before. -/
def least? (w : Waitlist α) : Option (HeapEntry α) :=
  w.entries.find? fun x => w.entries.all fun y => !y.before x

/-- The list without the entry of a number. -/
def without (w : Waitlist α) (sequence : Nat) : Waitlist α :=
  { w with entries := w.entries.filter fun x => x.sequence ≠ sequence }

/-- The list with another key for the entry of a number. -/
def lower (w : Waitlist α) (sequence key : Nat) : Waitlist α :=
  { w with entries := w.entries.map fun x => if x.sequence = sequence then { x with key } else x }

/-- The answer to a call, and the list afterwards.  The entries are shown in the order in which they
stand in an array, for those who speak of its indices. -/
def respond (w : Waitlist α) (shown : List (HeapEntry α)) : HeapCall α → HeapAnswer α × Waitlist α
  | .push key item =>
    if w.entries.length = w.capacity then (.done (.error (.full w.capacity)), w)
    else
      (.done (.ok ()),
        { w with entries := w.entries ++ [⟨key, w.next, item⟩], next := w.next + 1 })
  | .pop =>
    match w.least? with
    | some x => (.entry (some x), w.without x.sequence)
    | none => (.entry none, w)
  | .peek => (.entry w.least?, w)
  | .decrease i key =>
    match shown[i]? with
    | some x =>
      if x.key < key then (.done (.error (.protocol (.largerKey key x.key))), w)
      else (.done (.ok ()), w.lower x.sequence key)
    | none => (.done (.error (.protocol (.noHeapIndex i))), w)
  | .position p => (.index (shown.findIdx? fun x => p x.item), w)

/-- Nor does a refused call change a list. -/
theorem respond_refused {w : Waitlist α} {shown : List (HeapEntry α)} {call : HeapCall α}
    {e : Failure} (he : (w.respond shown call).1 = .done (.error e)) :
    (w.respond shown call).2 = w := by
  cases call with
  | push key item =>
    rw [respond] at he ⊢
    by_cases hfull : w.entries.length = w.capacity
    · rw [if_pos hfull]
    · rw [if_neg hfull] at he
      exact absurd he (by simp)
  | pop =>
    rw [respond] at he
    split at he <;> exact absurd he (by simp)
  | peek => rfl
  | decrease i key =>
    rw [respond] at he ⊢
    cases hi : shown[i]? with
    | none => rfl
    | some x =>
      simp only [hi] at he ⊢
      by_cases hlarger : x.key < key
      · rw [if_pos hlarger]
      · rw [if_neg hlarger] at he
        exact absurd he (by simp)
  | position p => rfl

/-- A heap holds the entries of a list, in order. -/
structure Refined (h : PriorityHeap α) (w : Waitlist α) : Prop where
  ordered : PriorityHeap.Ordered h.entries
  perm : h.entries.toList.Perm w.entries
  capacity : h.capacity = w.capacity
  next : h.next = w.next
  /-- The list is in the order of insertion. -/
  numbered : w.entries.Pairwise fun x y => x.sequence < y.sequence
  older : ∀ x ∈ w.entries, x.sequence < w.next
  length_le : w.entries.length ≤ w.capacity

variable {h : PriorityHeap α} {w : Waitlist α} {x y : HeapEntry α} {i : Nat}

theorem refined_empty (capacity : Nat) :
    Refined (PriorityHeap.empty capacity : PriorityHeap α) (empty capacity) where
  ordered := PriorityHeap.ordered_empty
  perm := List.Perm.refl _
  capacity := rfl
  next := rfl
  numbered := List.Pairwise.nil
  older := fun _ hx => absurd hx List.not_mem_nil
  length_le := Nat.zero_le _

theorem Refined.size_eq (hw : Refined h w) : h.size = w.entries.length := by
  rw [← hw.perm.length_eq, Array.length_toList]
  rfl

theorem Refined.nodup (hw : Refined h w) : (w.entries.map HeapEntry.sequence).Nodup :=
  List.pairwise_map.mpr (hw.numbered.imp Nat.ne_of_lt)

theorem Refined.eq_of_sequence_eq (hw : Refined h w) (hx : x ∈ w.entries) (hy : y ∈ w.entries)
    (hsame : x.sequence = y.sequence) : x = y :=
  List.inj_on_of_nodup_map hw.nodup hx hy hsame

/-- The root of a heap comes before every entry of the list. -/
theorem Refined.root_precedes (hw : Refined h w) (hroot : h.entries[0]? = some x) :
    x ∈ w.entries ∧ ∀ y ∈ w.entries, x.Precedes y := by
  refine ⟨hw.perm.subset (Array.mem_toList_iff.mpr (Array.mem_of_getElem? hroot)), fun y hy => ?_⟩
  exact hw.ordered.root_precedes hroot (Array.mem_toList_iff.mp (hw.perm.symm.subset hy))

/-- **The root of a heap is the least entry of the list.** -/
theorem Refined.least?_eq (hw : Refined h w) : w.least? = h.entries[0]? := by
  cases hroot : h.entries[0]? with
  | none =>
    have hnil : w.entries = [] := by
      rw [← List.length_eq_zero_iff, ← hw.size_eq]
      exact Nat.le_zero.mp (Array.getElem?_eq_none_iff.mp hroot)
    rw [least?, hnil]
    rfl
  | some x =>
    obtain ⟨hx, hfirst⟩ := hw.root_precedes hroot
    cases hfind : w.least? with
    | none =>
      refine absurd ?_ (List.find?_eq_none.mp hfind x hx)
      rw [List.all_eq_true]
      exact fun y hy => by simpa [HeapEntry.Precedes] using hfirst y hy
    | some z =>
      have hz : z ∈ w.entries := List.mem_of_find?_eq_some hfind
      unfold least? at hfind
      have hzx : z.Precedes x := by
        have hall := List.find?_some hfind
        rw [List.all_eq_true] at hall
        simpa [HeapEntry.Precedes] using hall x hx
      -- each comes before the other, so they have one number
      have hxz := hfirst z hz
      rw [HeapEntry.precedes_iff] at hzx hxz
      rw [hw.eq_of_sequence_eq hz hx (by omega)]

/-- The entry at an array index is the only one of its number. -/
theorem set_eq_map {l : List (HeapEntry α)} (hnodup : (l.map HeapEntry.sequence).Nodup)
    (hi : l[i]? = some x) (f : HeapEntry α → HeapEntry α) :
    l.set i (f x) = l.map fun y => if y.sequence = x.sequence then f y else y := by
  obtain ⟨hlt, rfl⟩ := List.getElem?_eq_some_iff.mp hi
  have hinj : ∀ j, (hj : j < l.length) → l[j].sequence = l[i].sequence → j = i := by
    intro j hj hsame
    have hj' : j < (l.map HeapEntry.sequence).length := by rwa [List.length_map]
    have hi' : i < (l.map HeapEntry.sequence).length := by rwa [List.length_map]
    have hnumbers : (l.map HeapEntry.sequence)[j] = (l.map HeapEntry.sequence)[i] := by
      rw [List.getElem_map, List.getElem_map, hsame]
    exact (List.Nodup.getElem_inj_iff hnodup).mp hnumbers
  refine List.ext_getElem (by simp) fun j hj hj' => ?_
  rw [List.length_set] at hj
  rw [List.getElem_set, List.getElem_map]
  by_cases hij : i = j
  · subst hij
    rw [if_pos rfl, if_pos rfl]
  · rw [if_neg hij, if_neg fun hsame => hij (hinj j hj hsame).symm]

/-! ## Calls -/

theorem Refined.push (hw : Refined h w) (key : Nat) (item : α) :
    (h.respond (.push key item)).1 = (w.respond h.entries.toList (.push key item)).1 ∧
      Refined (h.respond (.push key item)).2 (w.respond h.entries.toList (.push key item)).2 := by
  rw [PriorityHeap.respond, respond, PriorityHeap.push]
  by_cases hfull : w.entries.length = w.capacity
  · have hisFull : h.isFull = true :=
      decide_eq_true (Nat.le_of_eq (by rw [hw.size_eq, hw.capacity, hfull]))
    rw [if_pos hisFull, if_pos hfull, hw.capacity]
    exact ⟨rfl, hw⟩
  · have hlength := hw.length_le
    have hisFull : h.isFull = false :=
      decide_eq_false (by rw [hw.size_eq, hw.capacity]; omega)
    rw [hisFull, if_neg Bool.false_ne_true, if_neg hfull]
    have hentries := PriorityHeap.siftUp_perm (h.entries.push ⟨key, h.next, item⟩) h.entries.size
    rw [Array.toList_push, hw.next] at hentries
    refine ⟨rfl, ?_, ?_, hw.capacity, congrArg (· + 1) hw.next, ?_, ?_, ?_⟩
    · exact hw.ordered.push _
    · rw [hw.next]
      exact hentries.trans (hw.perm.append_right _)
    · refine List.pairwise_append.mpr
        ⟨hw.numbered, List.pairwise_singleton _ _, fun y hy z hz => ?_⟩
      obtain rfl := List.mem_singleton.mp hz
      exact hw.older y hy
    · intro y hy
      rcases List.mem_append.mp hy with hy | hy
      · exact Nat.lt_succ_of_lt (hw.older y hy)
      · obtain rfl := List.mem_singleton.mp hy
        exact Nat.lt_succ_self _
    · rw [List.length_append, List.length_singleton]
      exact Nat.lt_of_le_of_ne hlength hfull

theorem Refined.dropRoot (hw : Refined h w) (hroot : h.entries[0]? = some x) :
    Refined { h with entries := PriorityHeap.dropRoot h.entries } (w.without x.sequence) := by
  have hsplit := PriorityHeap.dropRoot_perm hroot
  have hnodup : ((x :: (PriorityHeap.dropRoot h.entries).toList).map HeapEntry.sequence).Nodup :=
    ((hsplit.symm.trans hw.perm).map _).nodup_iff.mpr hw.nodup
  rw [List.map_cons, List.nodup_cons] at hnodup
  -- no other entry has the number of the root
  have hrest : ((x :: (PriorityHeap.dropRoot h.entries).toList).filter
      fun y => y.sequence ≠ x.sequence) = (PriorityHeap.dropRoot h.entries).toList := by
    rw [List.filter_cons_of_neg (by simp), List.filter_eq_self]
    intro y hy
    have hne : y.sequence ≠ x.sequence := fun heq => hnodup.1 (heq ▸ List.mem_map_of_mem hy)
    simpa using hne
  have hsub : (w.without x.sequence).entries.Sublist w.entries := List.filter_sublist
  refine ⟨hw.ordered.dropRoot, ?_, hw.capacity, hw.next, hw.numbered.sublist hsub,
    fun y hy => hw.older y (hsub.subset hy), Nat.le_trans hsub.length_le hw.length_le⟩
  have hperm := (hsplit.symm.trans hw.perm).filter fun y => y.sequence ≠ x.sequence
  rwa [hrest] at hperm

theorem Refined.pop (hw : Refined h w) :
    (h.respond .pop).1 = (w.respond h.entries.toList .pop).1 ∧
      Refined (h.respond .pop).2 (w.respond h.entries.toList .pop).2 := by
  rw [PriorityHeap.respond, respond, PriorityHeap.pop?, hw.least?_eq]
  cases hroot : h.entries[0]? with
  | none => exact ⟨rfl, hw⟩
  | some x => exact ⟨rfl, hw.dropRoot hroot⟩

theorem Refined.lower (hw : Refined h w) (hi : h.entries[i]? = some x) {key : Nat}
    (hkey : key ≤ x.key) :
    Refined { h with entries := PriorityHeap.siftUp (h.entries.setIfInBounds i { x with key }) i }
      (w.lower x.sequence key) := by
  have hnodup : (h.entries.toList.map HeapEntry.sequence).Nodup :=
    (hw.perm.map _).nodup_iff.mpr hw.nodup
  have hset := set_eq_map hnodup (by rwa [Array.getElem?_toList]) fun y => { y with key }
  have hsequence : ∀ y : HeapEntry α,
      (if y.sequence = x.sequence then { y with key } else y).sequence = y.sequence := by
    intro y
    split <;> rfl
  have hentries := PriorityHeap.siftUp_perm (h.entries.setIfInBounds i { x with key }) i
  rw [Array.toList_setIfInBounds, hset] at hentries
  refine ⟨hw.ordered.decrease hi hkey, hentries.trans (hw.perm.map _), hw.capacity, hw.next,
    ?_, ?_, ?_⟩
  · refine List.pairwise_map.mpr (hw.numbered.imp fun {y z} hyz => ?_)
    rwa [hsequence, hsequence]
  · refine List.forall_mem_map.mpr fun y hy => ?_
    rw [hsequence]
    exact hw.older y hy
  · rw [Waitlist.lower, List.length_map]
    exact hw.length_le

theorem Refined.decrease (hw : Refined h w) (i key : Nat) :
    (h.respond (.decrease i key)).1 = (w.respond h.entries.toList (.decrease i key)).1 ∧
      Refined (h.respond (.decrease i key)).2
        (w.respond h.entries.toList (.decrease i key)).2 := by
  rw [PriorityHeap.respond, respond, PriorityHeap.decreaseKey, Array.getElem?_toList]
  cases hi : h.entries[i]? with
  | none => exact ⟨rfl, hw⟩
  | some x =>
    by_cases hlarger : x.key < key
    · simp only [if_pos hlarger]
      exact ⟨trivial, hw⟩
    · simp only [if_neg hlarger]
      exact ⟨trivial, hw.lower hi (Nat.le_of_not_lt hlarger)⟩

/-- **One call has one answer**, from a heap and from the list that it holds, and afterwards the
heap holds what is then in the list. -/
theorem Refined.respond (hw : Refined h w) (call : HeapCall α) :
    (h.respond call).1 = (w.respond h.entries.toList call).1 ∧
      Refined (h.respond call).2 (w.respond h.entries.toList call).2 := by
  cases call with
  | push key item => exact hw.push key item
  | pop => exact hw.pop
  | peek => exact ⟨congrArg HeapAnswer.entry hw.least?_eq.symm, hw⟩
  | decrease i key => exact hw.decrease i key
  | position p =>
    refine ⟨congrArg HeapAnswer.index ?_, hw⟩
    rw [PriorityHeap.position?, PriorityHeap.items, List.findIdx?_map]
    rfl

/-- **What is popped until nothing is left** is all there was, by key and by order of insertion. -/
theorem Refined.drainFor (hw : Refined h w) {n : Nat} (hn : w.entries.length ≤ n) :
    (h.drainFor n).Perm w.entries ∧ (h.drainFor n).Pairwise fun x y => x.before y = true := by
  induction n generalizing h w with
  | zero =>
    rw [List.length_eq_zero_iff.mp (Nat.le_zero.mp hn)]
    exact ⟨List.Perm.refl _, List.Pairwise.nil⟩
  | succ n ih =>
    rw [PriorityHeap.drainFor, PriorityHeap.pop?]
    cases hroot : h.entries[0]? with
    | none =>
      have hsize := hw.size_eq
      rw [PriorityHeap.size, Nat.le_zero.mp (Array.getElem?_eq_none_iff.mp hroot)] at hsize
      rw [List.length_eq_zero_iff.mp hsize.symm]
      exact ⟨List.Perm.refl _, List.Pairwise.nil⟩
    | some x =>
      have hrest := hw.dropRoot hroot
      have hsplit : w.entries.Perm (x :: (w.without x.sequence).entries) :=
        hw.perm.symm.trans ((PriorityHeap.dropRoot_perm hroot).trans (hrest.perm.cons x))
      have hlength := hsplit.length_eq
      rw [List.length_cons] at hlength
      obtain ⟨hperm, hsorted⟩ := ih hrest (by omega)
      refine ⟨(hperm.cons x).trans hsplit.symm, List.pairwise_cons.mpr ⟨fun y hy => ?_, hsorted⟩⟩
      have hy' : y ∈ (w.without x.sequence).entries := hperm.subset hy
      have hne : y.sequence ≠ x.sequence := by simpa using (List.mem_filter.mp hy').2
      have hfirst := (hw.root_precedes hroot).2 y (List.mem_filter.mp hy').1
      rw [HeapEntry.precedes_iff] at hfirst
      rw [HeapEntry.before_iff]
      omega

end Waitlist

/-! ## Any calls -/

/-- A heap, and the list beside it that is asked the same. -/
structure Comparison (α : Type) where
  heap : PriorityHeap α
  list : Waitlist α

namespace Comparison

variable {α : Type}

/-- One call on both. -/
def step (c : Comparison α) (call : HeapCall α) : Comparison α :=
  ⟨(c.heap.respond call).2, (c.list.respond c.heap.entries.toList call).2⟩

/-- Calls on an empty heap of the given capacity, and on an empty list. -/
def run (capacity : Nat) (calls : List (HeapCall α)) : Comparison α :=
  calls.foldl step ⟨.empty capacity, .empty capacity⟩

/-- The heap holds what is in the list. -/
def Agrees (c : Comparison α) : Prop :=
  Waitlist.Refined c.heap c.list

theorem agrees_foldl {c : Comparison α} (hc : c.Agrees) (calls : List (HeapCall α)) :
    (calls.foldl step c).Agrees := by
  induction calls generalizing c with
  | nil => exact hc
  | cons call calls ih => exact ih (hc.respond call).2

/-- **A heap is a bounded stable queue.**  After any calls its array is in order and holds the
entries of the list, every further call is answered alike by both, and a refused one changes
nothing.  When it is popped until nothing is left, all entries come by key, and those of one key in
the order of insertion. -/
theorem run_stable (capacity : Nat) (calls : List (HeapCall α)) :
    let c := run capacity calls
    c.Agrees ∧
      (∀ call, (c.heap.respond call).1 = (c.list.respond c.heap.entries.toList call).1 ∧
        (step c call).Agrees) ∧
      (∀ call e, (c.heap.respond call).1 = .done (.error e) → step c call = c) ∧
      ∀ n, c.list.entries.length ≤ n → (c.heap.drainFor n).Perm c.list.entries ∧
        (c.heap.drainFor n).Pairwise fun x y => x.before y = true := by
  have hempty : (⟨.empty capacity, .empty capacity⟩ : Comparison α).Agrees :=
    Waitlist.refined_empty capacity
  have hc : (run capacity calls).Agrees := agrees_foldl hempty calls
  refine ⟨hc, fun call => hc.respond call, fun call e he => ?_, fun n hn => hc.drainFor hn⟩
  have hlist := (hc.respond call).1.symm.trans he
  rw [step, PriorityHeap.respond_refused he, Waitlist.respond_refused hlist]

/-- Three items for a heap with room for two, and two keys that are made equal. -/
def ties : List (HeapCall Char) :=
  [.push 5 'a', .push 3 'b', .push 1 'c', .decrease 1 3]

/-- Of the two that have room the one comes first that was put in first, though it is its key that
was lowered, and later than the other one was put in; and there is still no room. -/
theorem run_stable_ties :
    step (run 2 ties) (.push 4 'd') = run 2 ties ∧
      ((run 2 ties).heap.drainFor 2).Perm [⟨3, 0, 'a'⟩, ⟨3, 1, 'b'⟩] ∧
      ((run 2 ties).heap.drainFor 2).Pairwise fun x y => x.before y = true := by
  have hentries : (run 2 ties).list.entries = [⟨3, 0, 'a'⟩, ⟨3, 1, 'b'⟩] := by decide +kernel
  have hfull : (run 2 ties).heap.isFull = true := by decide +kernel
  obtain ⟨-, -, hrefused, hdrained⟩ := run_stable 2 ties
  obtain ⟨hperm, hsorted⟩ := hdrained 2 (Nat.le_of_eq (congrArg List.length hentries))
  rw [hentries] at hperm
  refine ⟨hrefused (.push 4 'd') (.full (run 2 ties).heap.capacity) ?_, hperm, hsorted⟩
  rw [PriorityHeap.respond, PriorityHeap.push, if_pos hfull]

end Comparison
end Uniprocessor
