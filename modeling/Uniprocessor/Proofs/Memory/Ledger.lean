import Mathlib.Algebra.BigOperators.Group.List.Basic
import Mathlib.Order.Bounds.Basic
import Uniprocessor.Proofs.Histories
import Uniprocessor.Proofs.Memory.Ascent

/-!
# Histories of an arena

What an arena does under any history of requests and releases.  Callers may give back any block that
was issued to them, also one that they have given back before.

A `Ledger` keeps the books from outside: which blocks were issued, for which request, and which of
them have not been given back yet.  A block that is given back leaves the live blocks whatever the
arena says, so that the books do not depend on what they are compared with.

The invariant (`Ledger.Sound`) is that the blocks of the arena are the live ones, and that the node
of a block that was given back is gone.  Slots are reused, so this takes the generations: a node
made later has a later generation, and never the key of a block issued before.

* `Ledger.run`: the books after a history;
* `TableLedger.run?`: the same history on a node table, which has no result where a link dangles;
* `Ledger.Safe`: what holds of the books at any time;
* `Ledger.sound_run`, `Sound.safe`: **the arena is safe after every history.**
-/

namespace Uniprocessor
namespace Buddy

/-- A call: a request for some bytes, or a release of the block issued by the `i`-th granted
request. -/
inductive Call where
  | allocate (size : Nat)
  | free (i : Nat)
  deriving Repr, DecidableEq

/-- A granted request. -/
structure Grant where
  request : Nat
  block : Block
  deriving Repr, DecidableEq

/-- An arena with the books on it. -/
structure Ledger where
  arena : Buddy
  /-- The granted requests, in order. -/
  issued : List Grant
  /-- The blocks that were issued and not given back. -/
  live : List Block

namespace Ledger

/-- The books on an arena of `2^order` bytes before the first call. -/
def ofOrder (order : Nat) : Ledger :=
  ⟨Buddy.ofOrder order, [], []⟩

/-- A request. -/
def allocate (l : Ledger) (size : Nat) : Ledger :=
  match l.arena.allocate? size with
  | some (b, arena) => ⟨arena, l.issued ++ [⟨size, b⟩], b :: l.live⟩
  | none => l

/-- A release. -/
def free (l : Ledger) (b : Block) : Ledger :=
  { l with arena := (l.arena.free b).toOption.getD l.arena, live := l.live.erase b }

/-- One call. -/
def step (l : Ledger) : Call → Ledger
  | .allocate size => l.allocate size
  | .free i =>
    match l.issued[i]? with
    | some g => l.free g.block
    | none => l

/-- The books after a history of calls. -/
def run (order : Nat) (calls : List Call) : Ledger :=
  calls.foldl step (ofOrder order)

end Ledger

/-- A node table with the requests that it has granted. -/
structure TableLedger where
  table : NodeTable
  issued : List Grant

namespace TableLedger

/-- One call, if it meets no dangling link. -/
def step? (l : TableLedger) : Call → Option TableLedger
  | .allocate size =>
    (l.table.allocate? size).map fun (b?, table) =>
      ⟨table, l.issued ++ (b?.map (⟨size, ·⟩)).toList⟩
  | .free i =>
    match l.issued[i]? with
    | some g => (l.table.free g.block).map fun (_, table) => { l with table := table }
    | none => some l

/-- The table after a history of calls, if none meets a dangling link. -/
def run? (order : Nat) (calls : List Call) : Option TableLedger :=
  calls.foldlM step? ⟨NodeTable.ofOrder order, []⟩

end TableLedger

/-! ## Sizes -/

/-- The size of a block is the least power of two that is large enough. -/
theorem isLeast_two_pow_orderFor (size : Nat) :
    IsLeast {s | max size 1 ≤ s ∧ ∃ k, s = 2 ^ k} (2 ^ orderFor size) := by
  unfold orderFor
  split
  · rename_i hsmall
    refine ⟨⟨by simpa using hsmall, 0, rfl⟩, ?_⟩
    intro s hs
    exact (Nat.le_max_right size 1).trans hs.1
  · rename_i hlarge
    have hne : size - 1 ≠ 0 := by omega
    have hupper := Nat.lt_log2_self (n := size - 1)
    have hlower := Nat.log2_self_le hne
    refine ⟨⟨by omega, _, rfl⟩, ?_⟩
    rintro s ⟨hs, k, rfl⟩
    refine Nat.pow_le_pow_right (by decide) ?_
    by_contra hk
    have hle : 2 ^ k ≤ 2 ^ (size - 1).log2 := Nat.pow_le_pow_right (by decide) (by omega)
    omega

/-! ## The invariant -/

namespace Ledger

/-- The blocks of the arena are the live ones.  An issued block is as large as its request makes it,
its key is older than the next one, and its node is gone if it is not live. -/
structure Sound (l : Ledger) (order : Nat) : Prop where
  arena : l.arena.Sound
  order_eq : l.arena.order = order
  blocks : l.arena.blocks.Perm l.live
  issued : ∀ b ∈ l.live, ∃ g ∈ l.issued, g.block = b
  size : ∀ g ∈ l.issued, g.block.order = orderFor g.request
  bounds : ∀ g ∈ l.issued, g.block.size ∣ g.block.start ∧ g.block.start + g.block.size ≤ 2 ^ order
  older : ∀ g ∈ l.issued, g.block.key.generation < l.arena.supply.generation
  gone : ∀ g ∈ l.issued, g.block ∉ l.live → g.block.key ∉ l.arena.root.keys

theorem sound_ofOrder (order : Nat) : (ofOrder order).Sound order :=
  ⟨Buddy.sound_ofOrder order, rfl, List.Perm.refl _, by simp [ofOrder], by simp [ofOrder],
    by simp [ofOrder], by simp [ofOrder], by simp [ofOrder]⟩

variable {l : Ledger} {order : Nat}

/-- A request keeps the books right. -/
theorem Sound.allocate (h : l.Sound order) (size : Nat) : (l.allocate size).Sound order := by
  unfold Ledger.allocate
  split
  · rename_i b arena ha
    have made := h.arena.allocated ha
    have hnew : b ∈ arena.blocks := made.blocks.symm.subset List.mem_cons_self
    have hmem : ∀ g ∈ l.issued ++ [⟨size, b⟩], g ∈ l.issued ∨ g = ⟨size, b⟩ := fun g hg =>
      (List.mem_append.mp hg).imp_right List.mem_singleton.mp
    refine ⟨made.sound, made.order_eq.trans h.order_eq, made.blocks.trans (h.blocks.cons b), ?_,
      ?_, ?_, ?_, ?_⟩
    · intro x hx
      rcases List.mem_cons.mp hx with rfl | hx
      · exact ⟨⟨size, x⟩, List.mem_append_right _ List.mem_cons_self, rfl⟩
      · obtain ⟨g, hg, hgx⟩ := h.issued x hx
        exact ⟨g, List.mem_append_left _ hg, hgx⟩
    · intro g hg
      rcases hmem g hg with hg | rfl
      · exact h.size g hg
      · exact made.block_order
    · intro g hg
      rcases hmem g hg with hg | rfl
      · exact h.bounds g hg
      · have hbounds := made.sound.block_bounds hnew
        rw [Buddy.capacity, made.order_eq, h.order_eq] at hbounds
        exact hbounds
    · intro g hg
      rcases hmem g hg with hg | rfl
      · exact (h.older g hg).trans_le made.generation_le
      · exact made.sound.owns.older _ (made.sound.key_mem_keys hnew)
    · intro g hg hlive
      rcases hmem g hg with hg | rfl
      · intro hkey
        -- the nodes made for the request have generations later than any issued block
        rcases made.fresh _ hkey with hold | hnew
        · exact h.gone g hg (fun hl => hlive (List.mem_cons_of_mem _ hl)) hold
        · exact Nat.not_lt.mpr hnew (h.older g hg)
      · exact absurd List.mem_cons_self hlive
  · exact h

/-- A release keeps the books right, whether the block is live or not. -/
theorem Sound.free (h : l.Sound order) {g : Grant} (hg : g ∈ l.issued) :
    (l.free g.block).Sound order := by
  unfold Ledger.free
  by_cases hlive : g.block ∈ l.live
  · obtain ⟨arena, hfree, freed⟩ := h.arena.free_of_mem (h.blocks.symm.subset hlive)
    rw [hfree]
    refine ⟨freed.sound, freed.order_eq.trans h.order_eq, ?_,
      fun b hb => h.issued b (List.mem_of_mem_erase hb), h.size, h.bounds, ?_, ?_⟩
    · have hperm : (g.block :: arena.blocks).Perm (g.block :: l.live.erase g.block) :=
        freed.blocks.symm.trans (h.blocks.trans (List.perm_cons_erase hlive))
      exact hperm.cons_inv
    · intro x hx
      show x.block.key.generation < arena.supply.generation
      rw [freed.generation_eq]
      exact h.older x hx
    · intro x hx hdead hkey
      by_cases hsame : x.block = g.block
      · exact freed.gone (hsame ▸ hkey)
      · refine h.gone x hx (fun hl => hdead ?_) (freed.keys_subset hkey)
        exact (List.mem_erase_of_ne hsame).mpr hl
  · rw [free_of_notMem_keys (h.gone g hg hlive), List.erase_of_not_mem hlive]
    exact h

theorem Sound.step (h : l.Sound order) (call : Call) : (l.step call).Sound order := by
  cases call with
  | allocate size => exact h.allocate size
  | free i =>
    rw [Ledger.step]
    split
    · rename_i g hg
      exact h.free (List.mem_of_getElem? hg)
    · exact h

theorem Sound.foldl (h : l.Sound order) (calls : List Call) :
    (calls.foldl Ledger.step l).Sound order := by
  induction calls generalizing l with
  | nil => exact h
  | cons call calls ih => exact ih (h.step call)

/-- **The books are right after every history.** -/
theorem sound_run (order : Nat) (calls : List Call) : (run order calls).Sound order :=
  (sound_ofOrder order).foldl calls

end Ledger

/-! ## The node table -/

namespace TableLedger

/-- A node table keeps the same books as an arena: it holds the arena, and has issued the same
blocks. -/
structure Follows (tl : TableLedger) (l : Ledger) : Prop where
  table : tl.table.Represents l.arena
  issued : tl.issued = l.issued

variable {tl : TableLedger} {l : Ledger} {order : Nat}

/-- A call meets no dangling link, and the books stay the same. -/
theorem Follows.step (h : tl.Follows l) (hl : l.Sound order) (call : Call) :
    ∃ tl', tl.step? call = some tl' ∧ tl'.Follows (l.step call) := by
  cases call with
  | allocate size =>
    obtain ⟨t', ht, hrep⟩ := h.table.allocate? hl.arena size
    refine ⟨_, by rw [step?, ht]; rfl, ?_⟩
    rw [Ledger.step, Ledger.allocate, h.issued]
    split
    · rename_i b arena ha
      rw [ha] at hrep ⊢
      exact ⟨hrep, rfl⟩
    · rename_i ha
      rw [ha] at hrep ⊢
      exact ⟨hrep, List.append_nil _⟩
  | free i =>
    rw [step?, Ledger.step, h.issued]
    split
    · rename_i g hg
      obtain ⟨t', ht, hrep⟩ := h.table.free hl.arena g.block
      refine ⟨{ tl with table := t' }, ?_, hrep, h.issued⟩
      rw [ht, ← h.issued]
      rfl
    · exact ⟨tl, rfl, h⟩

theorem Follows.foldlM (h : tl.Follows l) (hl : l.Sound order) (calls : List Call) :
    ∃ tl', calls.foldlM step? tl = some tl' ∧ tl'.Follows (calls.foldl Ledger.step l) := by
  have hstep : ∀ tl l call, Follows tl l ∧ l.Sound order →
      ∃ tl', tl.step? call = some tl' ∧ Follows tl' (l.step call) ∧ (l.step call).Sound order := by
    rintro tl l call ⟨h, hl⟩
    obtain ⟨tl', htl', h'⟩ := h.step hl call
    exact ⟨tl', htl', h', hl.step call⟩
  obtain ⟨tl', hrun, h', -⟩ := foldlM_related hstep ⟨h, hl⟩ calls
  exact ⟨tl', hrun, h'⟩

/-- **No history of calls meets a dangling link.** -/
theorem exists_run (order : Nat) (calls : List Call) :
    ∃ tl, run? order calls = some tl ∧ tl.Follows (Ledger.run order calls) := by
  have hstart : Follows ⟨NodeTable.ofOrder order, []⟩ (Ledger.ofOrder order) :=
    ⟨⟨rfl, rfl, ⟨rfl, rfl, rfl, fun _ h => absurd h List.not_mem_nil⟩, trivial⟩, rfl⟩
  exact hstart.foldlM (Ledger.sound_ofOrder order) calls

end TableLedger

/-! ## Safety -/

namespace Ledger

/-- What callers may rely on at any time. -/
structure Safe (l : Ledger) (order : Nat) : Prop where
  /-- A block is as large as the least power of two that holds what was asked for. -/
  size : ∀ g ∈ l.issued, IsLeast {s | max g.request 1 ≤ s ∧ ∃ k, s = 2 ^ k} g.block.size
  /-- It starts at a multiple of its size. -/
  aligned : ∀ g ∈ l.issued, g.block.size ∣ g.block.start
  /-- It lies inside the arena. -/
  inside : ∀ g ∈ l.issued, g.block.start + g.block.size ≤ 2 ^ order
  /-- No two live blocks overlap. -/
  disjoint : l.live.Pairwise fun x y =>
    x.start + x.size ≤ y.start ∨ y.start + y.size ≤ x.start
  /-- A request leaves every live block where it is, and adds the one that is handed out. -/
  stays : ∀ size b arena, l.arena.allocate? size = some (b, arena) →
    arena.blocks.Perm (b :: l.arena.blocks)
  /-- The arena lists the live blocks, each once. -/
  listed : l.arena.ranges.Perm (l.live.map Block.range)
  /-- It lists them by strictly increasing start. -/
  ascending : l.arena.ranges.Pairwise fun x y => x.start < y.start
  /-- It counts their bytes. -/
  bytes : l.arena.allocatedBytes = (l.live.map Block.size).sum
  /-- No more is in use than there is. -/
  bytes_le : l.arena.allocatedBytes ≤ 2 ^ order
  /-- Exactly the live blocks can be given back; another one is refused as not allocated. -/
  released : ∀ g ∈ l.issued, if g.block ∈ l.live then ∃ arena, l.arena.free g.block = .ok arena
    else l.arena.free g.block = .error (.memory (.notAllocated g.block.start g.block.last))

theorem Sound.safe {l : Ledger} {order : Nat} (h : l.Sound order) : l.Safe order := by
  have hpairwise := h.arena.pairwise_blocks
  refine ⟨?_, fun g hg => (h.bounds g hg).1, fun g hg => (h.bounds g hg).2, ?_,
    fun size b arena ha => (h.arena.allocated ha).blocks, h.blocks.map _, ?_,
    (h.blocks.map _).sum_eq, ?_, ?_⟩
  · intro g hg
    rw [Block.size, h.size g hg]
    exact isLeast_two_pow_orderFor g.request
  · exact (h.blocks.pairwise_iff Or.symm).mp (hpairwise.imp Or.inl)
  · refine List.pairwise_map.mpr (hpairwise.imp fun {x y} hxy => ?_)
    have hpos := x.size_pos
    show x.start < y.start
    omega
  · rw [← h.order_eq]
    exact h.arena.allocatedBytes_le
  · intro g hg
    split
    · rename_i hlive
      obtain ⟨arena, hfree, -⟩ := h.arena.free_of_mem (h.blocks.symm.subset hlive)
      exact ⟨arena, hfree⟩
    · rename_i hdead
      exact free_of_notMem_keys (h.gone g hg hdead)

/-- **An arena whose capacity is a power of two is safe after every history of requests and
releases.**  The same history on the node table meets no dangling link, issues the same blocks, and
answers and lists what the arena does. -/
theorem run_safe (order : Nat) (calls : List Call) :
    Buddy.ofCapacity (2 ^ order) = .ok (ofOrder order).arena ∧
      (run order calls).Safe order ∧
      ∃ tl, TableLedger.run? order calls = some tl ∧
        tl.issued = (run order calls).issued ∧
        tl.table.Represents (run order calls).arena ∧
        tl.table.ranges? = some (run order calls).arena.ranges ∧
        ∀ b, ((tl.table.free b).map Prod.fst =
          some (((run order calls).arena.free b).map fun _ => ())) := by
  have hsound := sound_run order calls
  obtain ⟨tl, hrun, hfollows⟩ := TableLedger.exists_run order calls
  refine ⟨ofCapacity_two_pow order, hsound.safe, tl, hrun, hfollows.issued, hfollows.table,
    hfollows.table.ranges? hsound.arena, ?_⟩
  intro b
  obtain ⟨t', ht, -⟩ := hfollows.table.free hsound.arena b
  rw [ht]
  rfl

end Ledger
end Buddy
end Uniprocessor
