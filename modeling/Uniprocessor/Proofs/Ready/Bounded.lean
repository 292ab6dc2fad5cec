import Uniprocessor.Proofs.Histories
import Uniprocessor.Proofs.Ready.Ring

/-!
# Rings as bounded queues

What a ring does can be said without its slots.  It holds a list of items, in the order in which they
were put in; there is room for so many, a new one goes to the end, and the first one is taken out.
`Ring.queued` is what becomes of such a list.

Two things cannot be seen in the list.  An item that was taken out might stay behind in its slot, since
no call would ever find it there; and a ring that divides by zero or speaks of a slot that it does not
have might still answer as the list does.  The first is said of the slots themselves (`Ring.Swept`).
For the second the calls are made once more with every remainder and every slot number checked:
`Ring.respond?` and `Ring.toList?` have no result where a check fails, and what has to be shown is that
they always have one.

A ring without slots is the reason why this is not obvious: the places of its items are remainders
modulo zero.  It is empty and full at once, so no call ever asks for a place.

* `Ring.Tidy`: no slot but those of the items holds anything;
* `Tidy.respond?_eq`, `Tidy.toList?_eq`: **no check ever fails**;
* `Queues.respond`: one call has one answer, from the ring and from the list;
* `Ring.run_queued`: **the same after any calls, for rings of every capacity.**
-/

namespace Uniprocessor

/-- A call on a ring. -/
inductive RingCall (α : Type) where
  | enqueue (item : α)
  | dequeue

/-- What a call is answered. -/
inductive RingAnswer (α : Type) where
  | done (result : Except Failure Unit)
  | item (x? : Option α)

namespace Ring

variable {α : Type}

/-- The answer to a call, and the ring afterwards; a ring that refuses a call is the same. -/
def respond (r : Ring α) : RingCall α → RingAnswer α × Ring α
  | .enqueue item =>
    match r.enqueue item with
    | .ok r' => (.done (.ok ()), r')
    | .error e => (.done (.error e), r)
  | .dequeue =>
    match r.dequeue? with
    | some (x, r') => (.item (some x), r')
    | none => (.item none, r)

/-- The answer of a list of items to a call, and the list afterwards; there is room for `capacity` of
them. -/
def queued (capacity : Nat) (items : List α) : RingCall α → RingAnswer α × List α
  | .enqueue item =>
    if items.length = capacity then (.done (.error (.full capacity)), items)
    else (.done (.ok ()), items ++ [item])
  | .dequeue =>
    match items with
    | [] => (.item none, [])
    | x :: rest => (.item (some x), rest)

/-! ## With every step checked -/

/-- The slot of an item, unless it is a remainder modulo zero. -/
def place? (r : Ring α) (i : Nat) : Option Nat :=
  if r.capacity = 0 then none else some (r.place i)

/-- The slots after one of them was written, if there is such a slot. -/
def write? (r : Ring α) (j : Nat) (x? : Option α) : Option (Array (Option α)) :=
  if j < r.slots.size then some (r.slots.setIfInBounds j x?) else none

/-- The answer to a call, and the ring afterwards.  What is in the first slot is taken out and handed
on as it is, whether it is an item or not. -/
def respond? (r : Ring α) : RingCall α → Option (RingAnswer α × Ring α)
  | .enqueue item =>
    if r.isFull then some (.done (.error (.full r.capacity)), r)
    else do
      let rear ← r.place? r.length
      let slots ← r.write? rear (some item)
      some (.done (.ok ()), ⟨slots, r.front, r.length + 1⟩)
  | .dequeue =>
    if r.isEmpty then some (.item none, r)
    else do
      let x? ← r.slots[r.front]?
      let slots ← r.write? r.front none
      let front ← r.place? 1
      some (.item x?, ⟨slots, front, r.length - 1⟩)

/-- The items from front to rear. -/
def toList? (r : Ring α) : Option (List α) := do
  let items ← (List.range r.length).mapM fun i => do
    let place ← r.place? i
    r.slots[place]?
  some (items.filterMap id)

/-! ## Slots without items -/

/-- No slot but those of the items holds anything. -/
def Swept (r : Ring α) : Prop :=
  ∀ j x, r.slots[j]? = some (some x) → ∃ i < r.length, r.place i = j

/-- A ring that has no slots, or is sound and holds nothing but its items. -/
inductive Tidy : Ring α → Prop where
  | slotless : Tidy (empty 0)
  | sound {r : Ring α} (hsound : r.Sound) (hswept : r.Swept) : Tidy r

variable {r : Ring α} {i j : Nat} {x : α}

theorem swept_empty (n : Nat) : (empty n : Ring α).Swept := by
  intro j x h
  have hmem := Array.mem_of_getElem? h
  rw [empty, Array.mem_replicate] at hmem
  exact absurd hmem.2 (by simp)

theorem tidy_empty (n : Nat) : (empty n : Ring α).Tidy := by
  cases n with
  | zero => exact .slotless
  | succ n => exact .sound (sound_empty (Nat.succ_pos n)) (swept_empty _)

/-- The slot behind the last item is the only one that is written. -/
theorem Swept.extend (h : r.Swept) : (r.extend x).Swept := by
  intro j y hj
  by_cases hrear : r.place r.length = j
  · exact ⟨r.length, Nat.lt_succ_self _, (place_extend _).trans hrear⟩
  · have hold : r.slots[j]? = some (some y) := by
      rwa [Ring.extend, Array.getElem?_setIfInBounds_ne hrear] at hj
    obtain ⟨i, hi, hplace⟩ := h j y hold
    exact ⟨i, Nat.lt_succ_of_lt hi, (place_extend _).trans hplace⟩

/-- The slot of the first item is emptied, and the others are those of the items that stay. -/
theorem Swept.drop (h : r.Swept) (hsound : r.Sound) : r.drop.Swept := by
  intro j y hj
  by_cases hfront : r.front = j
  · rw [Ring.drop, hfront, Array.getElem?_setIfInBounds_self] at hj
    split at hj <;> exact absurd hj (by simp)
  · rw [Ring.drop, Array.getElem?_setIfInBounds_ne hfront] at hj
    obtain ⟨i, hi, hplace⟩ := h j y hj
    obtain ⟨k, rfl⟩ : ∃ k, i = k + 1 := by
      refine Nat.exists_eq_succ_of_ne_zero fun hzero => hfront ?_
      rw [← place_zero hsound, ← hplace, hzero]
    exact ⟨k, Nat.lt_sub_of_add_lt hi, (place_drop k).trans hplace⟩

theorem Tidy.length_toList (h : r.Tidy) : r.toList.length = r.length := by
  cases h with
  | slotless => rfl
  | sound hsound => exact Ring.length_toList hsound

/-- **A tidy ring holds its items, each in its place, and nothing else.** -/
theorem Tidy.getElem?_slots (h : r.Tidy) :
    r.slots[j]? = some (some x) ↔ ∃ i, r.toList[i]? = some x ∧ r.place i = j := by
  cases h with
  | slotless => simp [empty, toList]
  | sound hsound hswept =>
    constructor
    · intro hj
      obtain ⟨i, hi, rfl⟩ := hswept j x hj
      rw [getElem?_place hsound] at hj
      exact ⟨i, (getElem?_toList hsound hi).trans (Option.some.inj hj), rfl⟩
    · rintro ⟨i, hx, rfl⟩
      have hi : i < r.length := by
        rw [← Ring.length_toList hsound]
        exact (List.getElem?_eq_some_iff.mp hx).1
      rw [getElem?_place hsound, ← getElem?_toList hsound hi, hx]

/-! ## No check fails -/

theorem place?_eq (h : r.Sound) (i : Nat) : r.place? i = some (r.place i) :=
  if_neg (Nat.ne_of_gt (Nat.zero_lt_of_lt h.front))

theorem write?_eq (hj : j < r.capacity) (x? : Option α) :
    r.write? j x? = some (r.slots.setIfInBounds j x?) :=
  if_pos hj

theorem Sound.respond?_eq (h : r.Sound) (call : RingCall α) :
    r.respond? call = some (r.respond call) := by
  cases call with
  | enqueue x =>
    rw [respond?, respond]
    by_cases hfull : r.isFull = true
    · rw [if_pos hfull, enqueue, if_pos hfull]
    · have hroom : r.length < r.capacity :=
        Nat.lt_of_le_of_ne h.length fun heq => hfull (beq_iff_eq.mpr heq)
      rw [if_neg hfull, enqueue_eq hroom, place?_eq h, Option.bind_eq_bind, Option.bind_some,
        write?_eq (place_lt h _)]
      rfl
  | dequeue =>
    rw [respond?, respond]
    by_cases hempty : r.isEmpty = true
    · rw [if_pos hempty, dequeue?, if_pos hempty]
    · have hpos : 0 < r.length := Nat.pos_of_ne_zero fun hzero => hempty (beq_iff_eq.mpr hzero)
      obtain ⟨x, hx, -⟩ := exists_first h hpos
      rw [if_neg hempty, dequeue?_eq hpos hx, hx, write?_eq h.front, place?_eq h]
      rfl

/-- **No call divides by zero, or speaks of a slot that is not there.** -/
theorem Tidy.respond?_eq (h : r.Tidy) (call : RingCall α) :
    r.respond? call = some (r.respond call) := by
  cases h with
  | slotless => cases call <;> rfl
  | sound hsound => exact hsound.respond?_eq call

/-- **Nor is this done where the items are listed.** -/
theorem Tidy.toList?_eq (h : r.Tidy) : r.toList? = some r.toList := by
  cases h with
  | slotless => rfl
  | sound hsound =>
    have hitem : (fun i => do let place ← r.place? i; r.slots[place]?) =
        fun i => some (r.item? i) := by
      funext i
      rw [place?_eq hsound, Option.bind_eq_bind, Option.bind_some, getElem?_place hsound]
    have hitems : (List.range r.length).mapM (fun i => some (r.item? i)) =
        some ((List.range r.length).map r.item?) := List.mapM_pure
    rw [toList?, hitem, hitems, Option.bind_eq_bind, Option.bind_some, List.filterMap_map]
    rfl

/-! ## One call -/

/-- A refused call changes nothing. -/
theorem respond_refused {call : RingCall α} {e : Failure}
    (he : (r.respond call).1 = .done (.error e)) : (r.respond call).2 = r := by
  cases call with
  | enqueue x =>
    rw [respond] at he ⊢
    split at he
    · exact absurd he (by simp)
    · rfl
  | dequeue =>
    rw [respond] at he
    split at he <;> exact absurd he (by simp)

variable {n : Nat} {l : List α}

/-- A ring of a capacity holds the items of a list, in order, and nothing else. -/
structure Queues (r : Ring α) (n : Nat) (l : List α) : Prop where
  tidy : r.Tidy
  capacity : r.capacity = n
  items : r.toList = l

namespace Queues

theorem length (h : r.Queues n l) : r.length = l.length := by
  rw [← h.items, h.tidy.length_toList]

theorem isFull_iff (h : r.Queues n l) : r.isFull = true ↔ l.length = n := by
  rw [isFull, beq_iff_eq, h.length, h.capacity]

theorem isEmpty_iff (h : r.Queues n l) : r.isEmpty = true ↔ l = [] := by
  rw [isEmpty, beq_iff_eq, h.length, List.length_eq_zero_iff]

theorem enqueue (h : r.Queues n l) (x : α) :
    (r.respond (.enqueue x)).1 = (queued n l (.enqueue x)).1 ∧
      (r.respond (.enqueue x)).2.Queues n (queued n l (.enqueue x)).2 := by
  rw [Ring.respond, queued]
  by_cases hfull : l.length = n
  · rw [if_pos hfull, Ring.enqueue, if_pos (h.isFull_iff.mpr hfull), h.capacity]
    exact ⟨rfl, h⟩
  · have hlength := h.length
    have hcapacity := h.capacity
    rw [if_neg hfull]
    cases h.tidy with
    | slotless => exact absurd (hlength.symm.trans hcapacity) hfull
    | sound hsound hswept =>
      have hroom : r.length < r.capacity := by
        have hle := hsound.length
        omega
      rw [enqueue_eq hroom]
      refine ⟨rfl, .sound (hsound.extend hroom x) hswept.extend, ?_, ?_⟩
      · exact capacity_extend.trans hcapacity
      · rw [toList_extend hsound hroom, h.items]

theorem dequeue (h : r.Queues n l) :
    (r.respond .dequeue).1 = (queued n l .dequeue).1 ∧
      (r.respond .dequeue).2.Queues n (queued n l .dequeue).2 := by
  rw [Ring.respond]
  cases l with
  | nil =>
    rw [dequeue?, if_pos (h.isEmpty_iff.mpr rfl)]
    exact ⟨rfl, h⟩
  | cons y rest =>
    have hpos : 0 < r.length := by
      rw [h.length]
      exact Nat.succ_pos _
    cases h.tidy with
    | slotless => exact absurd hpos (Nat.lt_irrefl 0)
    | sound hsound hswept =>
      obtain ⟨x, hx, hlist⟩ := exists_first hsound hpos
      rw [h.items] at hlist
      obtain ⟨rfl, rfl⟩ := List.cons.inj hlist
      rw [dequeue?_eq hpos hx]
      exact ⟨rfl, .sound hsound.drop (hswept.drop hsound), capacity_drop.trans h.capacity, rfl⟩

/-- **One call has one answer**, from a ring and from the list that it holds, and afterwards the ring
holds what is then in the list. -/
theorem respond (h : r.Queues n l) (call : RingCall α) :
    (r.respond call).1 = (queued n l call).1 ∧
      (r.respond call).2.Queues n (queued n l call).2 := by
  cases call with
  | enqueue x => exact h.enqueue x
  | dequeue => exact h.dequeue

end Queues

/-! ## Any calls -/

/-- What is seen of a ring that holds the items of a list, from outside and in its slots. -/
structure Shows (r : Ring α) (n : Nat) (l : List α) : Prop where
  capacity : r.capacity = n
  length : r.length = l.length
  isEmpty : r.isEmpty = true ↔ l = []
  isFull : r.isFull = true ↔ l.length = n
  items : r.toList = l
  /-- Each item is in its place, and all other slots are empty. -/
  slots : ∀ j x, r.slots[j]? = some (some x) ↔ ∃ i, l[i]? = some x ∧ r.place i = j
  /-- Nothing is divided by zero, and no slot is named that is not there, to list the items or in any
  call. -/
  listed : r.toList? = some r.toList
  checked : ∀ call, r.respond? call = some (r.respond call)

theorem Queues.shows (h : r.Queues n l) : r.Shows n l where
  capacity := h.capacity
  length := h.length
  isEmpty := h.isEmpty_iff
  isFull := h.isFull_iff
  items := h.items
  slots := fun _ _ => h.items ▸ h.tidy.getElem?_slots
  listed := h.tidy.toList?_eq
  checked := h.tidy.respond?_eq

/-- **A ring is a bounded queue.**  After any calls on a ring of any capacity, it has answered as the
list does, and shows what is in the list; it holds nothing else, no call fails to have a result, and a
refused one changes nothing. -/
theorem run_queued (capacity : Nat) (calls : List (RingCall α)) :
    let ring := exchange respond (empty capacity : Ring α) calls
    let list := exchange (queued capacity) [] calls
    ring.1 = list.1 ∧ ring.2.Shows capacity list.2 ∧
      ∀ call e, (ring.2.respond call).1 = .done (.error e) → (ring.2.respond call).2 = ring.2 := by
  have hempty : (empty capacity : Ring α).Queues capacity [] :=
    ⟨tidy_empty capacity, capacity_empty capacity, rfl⟩
  obtain ⟨hanswers, hqueues⟩ :=
    exchange_related (fun _ _ call h => Queues.respond h call) hempty calls
  exact ⟨hanswers, hqueues.shows, fun _ _ => respond_refused⟩

/-- Three items for a ring with room for two, of which the first one is taken out in between. -/
def wrapped : List (RingCall Char) :=
  [.enqueue 'a', .enqueue 'b', .dequeue, .enqueue 'c']

/-- The last item is in the slot of the first one, though it comes after the other; and a further one
is refused. -/
theorem run_queued_wrapped :
    let ring := exchange respond (empty 2) wrapped
    ring.2.toList? = some ['b', 'c'] ∧ ring.2.slots[0]? = some (some 'c') ∧
      (ring.2.respond (.enqueue 'd')).1 = .done (.error (.full 2)) ∧
      (ring.2.respond (.enqueue 'd')).2 = ring.2 := by
  obtain ⟨-, hshows, hrefused⟩ := run_queued 2 wrapped
  have hfull : ((exchange respond (empty 2) wrapped).2.respond (.enqueue 'd')).1 =
      .done (.error (.full 2)) := rfl
  refine ⟨?_, (hshows.slots 0 'c').mpr ⟨1, rfl, rfl⟩, hfull, hrefused _ _ hfull⟩
  rw [hshows.listed, hshows.items]
  rfl

end Ring
end Uniprocessor
