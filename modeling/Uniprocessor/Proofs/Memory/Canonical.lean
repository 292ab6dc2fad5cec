import Mathlib.Data.List.Dedup
import Uniprocessor.Proofs.Memory.Vacancy

/-!
# An arena is what is in use

The nodes of an arena are its blocks and the stretches that these are part of: whoever knows which
ranges are in use knows the tree, whatever has been handed out and given back on the way.  What a
history does leave behind are keys, the slots and generations of the nodes.  They decide which
block is meant by a caller, but not where the next one goes.

## The nodes

A node that is there has a block in it, so it is an ancestor of a block; and an ancestor of a block
is above it in the tree, so it is there.  No two nodes cover the same range, since those below a
node are smaller and the two halves have no address in common (`Tree.mem_spans_bounds`).

## Two histories

The tree is a function of the ranges of its nodes (`Tree.alike_of_spans`), and a place is looked for
in the tree without regard to keys (`Tree.place_alike`).  So two arenas with the same ranges in use
place a request alike.  Nothing need be said of the tree that is left when a block is given back: it
belongs, again, to the ranges that are left.

A `Client` keeps all blocks that it was ever handed out and may name one by its range.  Two clients
with different histories hold different blocks for one range; but each is answered as the other.

* `Canonical`: the nodes are the live blocks and their ancestors;
* `Client.run_canonical`: **this holds after every history, and where the same ranges are in use the
  same calls have the same answers.**
-/

namespace Uniprocessor
namespace Buddy

/-- The `2^order` addresses from `start` on. -/
def span (order start : Nat) : Range :=
  ⟨2 ^ order, start, start + 2 ^ order - 1⟩

/-- The range of a block, and the ranges of the ever larger stretches that it is part of, up to an
arena of `2^order` bytes. -/
def Block.lineage (b : Block) (order : Nat) : List Range :=
  b.range :: (List.range' (b.order + 1) (order - b.order)).map fun n =>
    span n (b.start / 2 ^ n * 2 ^ n)

theorem Block.range_eq (b : Block) : b.range = span b.order b.start := rfl

theorem span_inj {m n s s' : Nat} (h : span m s = span n s') : m = n ∧ s = s' :=
  ⟨(Nat.pow_right_inj (by decide)).mp (congrArg Range.size h), congrArg Range.start h⟩

/-- A block that starts at a multiple of its size is itself the first of the stretches. -/
theorem Block.mem_lineage {b : Block} {order : Nat} (hle : b.order ≤ order)
    (halign : b.size ∣ b.start) {r : Range} :
    r ∈ b.lineage order ↔
      ∃ n, b.order ≤ n ∧ n ≤ order ∧ r = span n (b.start / 2 ^ n * 2 ^ n) := by
  have hself : b.start / 2 ^ b.order * 2 ^ b.order = b.start := Nat.div_mul_cancel halign
  rw [lineage, List.mem_cons, List.mem_map, range_eq]
  constructor
  · rintro (rfl | ⟨n, hn, rfl⟩)
    · exact ⟨b.order, Nat.le_refl _, hle, by rw [hself]⟩
    · rw [List.mem_range'_1] at hn
      exact ⟨n, by omega, by omega, rfl⟩
  · rintro ⟨n, hlow, hhigh, rfl⟩
    by_cases hn : n = b.order
    · subst hn
      exact Or.inl (by rw [hself])
    · exact Or.inr ⟨n, List.mem_range'_1.mpr (by omega), rfl⟩

namespace Tree

/-- The ranges of the nodes of a tree whose first node has the given order and start. -/
def spans : Tree → Nat → Nat → List Range
  | absent, _, _ => []
  | node _ l r, order, start =>
    span order start ::
      (l.spans (order - 1) start ++ r.spans (order - 1) (start + 2 ^ (order - 1)))

@[simp] theorem spans_absent (order start : Nat) : absent.spans order start = [] := rfl

theorem spans_succ (k : Key) (l r : Tree) (n start : Nat) :
    (node k l r).spans (n + 1) start =
      span (n + 1) start :: (l.spans n start ++ r.spans n (start + 2 ^ n)) := rfl

theorem spans_leaf (k : Key) (order start : Nat) :
    (node k absent absent).spans order start = [span order start] := rfl

theorem length_spans (t : Tree) (order start : Nat) :
    (t.spans order start).length = t.keys.length := by
  induction t generalizing order start with
  | absent => rfl
  | node k l r ihl ihr =>
    rw [spans, keys_node, List.length_cons, List.length_cons, List.length_append,
      List.length_append, ihl, ihr]

/-- The nodes of a tree are no larger than its first one, and lie inside it. -/
theorem mem_spans_bounds {t : Tree} {order start : Nat} (hfits : t.Fits order) {r : Range}
    (hr : r ∈ t.spans order start) :
    0 < r.size ∧ r.size ≤ 2 ^ order ∧ start ≤ r.start ∧ r.start + r.size ≤ start + 2 ^ order := by
  induction t generalizing order start with
  | absent => exact absurd hr List.not_mem_nil
  | node k left right ihl ihr =>
    cases order with
    | zero =>
      obtain ⟨rfl, rfl⟩ := hfits
      rw [spans_leaf, List.mem_singleton] at hr
      subst hr
      exact ⟨Nat.two_pow_pos 0, Nat.le_refl _, Nat.le_refl _, Nat.le_refl _⟩
    | succ n =>
      have hpow : 2 ^ (n + 1) = 2 ^ n + 2 ^ n := by rw [Nat.pow_succ]; omega
      rw [spans_succ, List.mem_cons, List.mem_append] at hr
      rcases hr with rfl | hr | hr
      · exact ⟨Nat.two_pow_pos _, Nat.le_refl _, Nat.le_refl _, Nat.le_refl _⟩
      · obtain ⟨hpos, hsize, hlow, hhigh⟩ := ihl hfits.1 hr
        exact ⟨hpos, by omega, hlow, by omega⟩
      · obtain ⟨hpos, hsize, hlow, hhigh⟩ := ihr hfits.2 hr
        exact ⟨hpos, by omega, by omega, by omega⟩

/-- A node is not one of those below a node of its size. -/
theorem span_notMem_spans {t : Tree} {n start first : Nat} (hfits : t.Fits n) :
    span (n + 1) first ∉ t.spans n start := by
  intro hmem
  obtain ⟨-, hsize, -, -⟩ := mem_spans_bounds hfits hmem
  exact absurd hsize (Nat.not_le.mpr (Nat.pow_lt_pow_right (by decide) (Nat.lt_succ_self n)))

/-- The two halves of a node have no node in common. -/
theorem disjoint_spans {l r : Tree} {n start : Nat} (hl : l.Fits n) (hr : r.Fits n) :
    (l.spans n start).Disjoint (r.spans n (start + 2 ^ n)) := by
  refine List.disjoint_left.mpr fun x hxl hxr => ?_
  obtain ⟨hpos, -, -, hhigh⟩ := mem_spans_bounds hl hxl
  obtain ⟨-, -, hlow, -⟩ := mem_spans_bounds hr hxr
  omega

/-- **No two nodes cover the same range.** -/
theorem nodup_spans {t : Tree} {order : Nat} (hfits : t.Fits order) (start : Nat) :
    (t.spans order start).Nodup := by
  induction t generalizing order start with
  | absent => exact List.nodup_nil
  | node k l r ihl ihr =>
    cases order with
    | zero =>
      obtain ⟨rfl, rfl⟩ := hfits
      exact List.nodup_singleton _
    | succ n =>
      rw [spans_succ, List.nodup_cons, List.mem_append, not_or]
      exact ⟨⟨span_notMem_spans hfits.1, span_notMem_spans hfits.2⟩,
        (ihl hfits.1 _).append (ihr hfits.2 _) (disjoint_spans hfits.1 hfits.2)⟩

/-- The nodes of the left half are those that end in it. -/
theorem mem_spans_left {k : Key} {l r : Tree} {n start : Nat} (hfits : (node k l r).Fits (n + 1))
    {q : Range} : q ∈ (node k l r).spans (n + 1) start ∧ q.start + q.size ≤ start + 2 ^ n ↔
      q ∈ l.spans n start := by
  rw [spans_succ, List.mem_cons, List.mem_append]
  constructor
  · rintro ⟨rfl | hq | hq, hend⟩
    · have hlt : 2 ^ n < 2 ^ (n + 1) := Nat.pow_lt_pow_right (by decide) (Nat.lt_succ_self n)
      exact absurd (Nat.le_of_add_le_add_left hend) (Nat.not_le.mpr hlt)
    · exact hq
    · obtain ⟨hpos, -, hlow, -⟩ := mem_spans_bounds hfits.2 hq
      omega
  · intro hq
    exact ⟨Or.inr (Or.inl hq), (mem_spans_bounds hfits.1 hq).2.2.2⟩

/-- The nodes of the right half are those that begin in it. -/
theorem mem_spans_right {k : Key} {l r : Tree} {n start : Nat} (hfits : (node k l r).Fits (n + 1))
    {q : Range} : q ∈ (node k l r).spans (n + 1) start ∧ start + 2 ^ n ≤ q.start ↔
      q ∈ r.spans n (start + 2 ^ n) := by
  rw [spans_succ, List.mem_cons, List.mem_append]
  have hhalf := Nat.two_pow_pos n
  constructor
  · rintro ⟨rfl | hq | hq, hbegin⟩
    · change start + 2 ^ n ≤ start at hbegin
      omega
    · obtain ⟨hpos, -, -, hhigh⟩ := mem_spans_bounds hfits.1 hq
      omega
    · exact hq
  · intro hq
    exact ⟨Or.inr (Or.inr hq), (mem_spans_bounds hfits.2 hq).2.2.1⟩

/-- The stretch of the size of a node that a part of the node belongs to is the node. -/
theorem div_mul_eq_of_bounds {order start address : Nat} (halign : 2 ^ order ∣ start)
    (hlow : start ≤ address) (hhigh : address < start + 2 ^ order) :
    address / 2 ^ order * 2 ^ order = start := by
  obtain ⟨k, rfl⟩ := halign
  have hdiv : address / 2 ^ order = k := by
    refine Nat.div_eq_of_lt_le ?_ ?_
    · rwa [Nat.mul_comm]
    · rwa [Nat.succ_mul, Nat.mul_comm k]
  rw [hdiv, Nat.mul_comm]

/-- Whatever block is in a node, the stretch of the size of the node that it belongs to is the node. -/
theorem stretch_eq_of_mem_blocks {t : Tree} {order start : Nat} (hfits : t.Fits order)
    (halign : 2 ^ order ∣ start) {b : Block} (hb : b ∈ t.blocks order start) :
    b.start / 2 ^ order * 2 ^ order = start := by
  obtain ⟨-, -, hlow, hhigh⟩ := mem_blocks_bounds hfits halign hb
  have hpos := b.size_pos
  exact div_mul_eq_of_bounds halign hlow (by omega)

/-- **The nodes of a tree are the blocks in it and what is above them.** -/
theorem mem_spans {t : Tree} {order start : Nat} (hfits : t.Fits order)
    (halign : 2 ^ order ∣ start) {r : Range} :
    r ∈ t.spans order start ↔ ∃ b ∈ t.blocks order start,
      ∃ n, b.order ≤ n ∧ n ≤ order ∧ r = span n (b.start / 2 ^ n * 2 ^ n) := by
  induction t, order, hfits using fits_induction generalizing start with
  | absent order => simp
  | leaf k order =>
    rw [spans_leaf, List.mem_singleton, blocks_leaf]
    constructor
    · rintro rfl
      exact ⟨⟨k, order, start⟩, List.mem_singleton_self _, order, Nat.le_refl _, Nat.le_refl _,
        by rw [Nat.div_mul_cancel halign]⟩
    · rintro ⟨b, hb, n, hlow, hhigh, rfl⟩
      obtain rfl := List.mem_singleton.mp hb
      obtain rfl := Nat.le_antisymm hhigh hlow
      rw [Nat.div_mul_cancel halign]
  | inner k l r n hfl hfr hleaf ihl ihr =>
    have hfits : Fits (node k l r) (n + 1) := ⟨hfl, hfr⟩
    have hhalf : 2 ^ n ∣ start := Nat.dvd_trans (Nat.pow_dvd_pow 2 (Nat.le_succ n)) halign
    have hmiddle : 2 ^ n ∣ start + 2 ^ n := Nat.dvd_add hhalf (Nat.dvd_refl _)
    have hroot : ∀ b ∈ l.blocks n start ++ r.blocks n (start + 2 ^ n),
        b.order ≤ n ∧ b.start / 2 ^ (n + 1) * 2 ^ (n + 1) = start := fun b hb =>
      ⟨(List.mem_append.mp hb).elim (fun hb => (mem_blocks_bounds hfl hhalf hb).1)
        fun hb => (mem_blocks_bounds hfr hmiddle hb).1,
        stretch_eq_of_mem_blocks hfits halign ((blocks_node hleaf n start).symm ▸ hb)⟩
    obtain ⟨any, hany⟩ := exists_mem_blocks hfits rfl start
    rw [blocks_node hleaf] at hany ⊢
    rw [spans_succ, List.mem_cons, List.mem_append, ihl hhalf, ihr hmiddle]
    constructor
    · rintro (rfl | ⟨b, hb, m, hlow, hhigh, rfl⟩ | ⟨b, hb, m, hlow, hhigh, rfl⟩)
      · -- the node itself is above any block in it
        obtain ⟨hbelow, hstretch⟩ := hroot any hany
        exact ⟨any, hany, n + 1, Nat.le_succ_of_le hbelow, Nat.le_refl _, by rw [hstretch]⟩
      · exact ⟨b, List.mem_append_left _ hb, m, hlow, Nat.le_succ_of_le hhigh, rfl⟩
      · exact ⟨b, List.mem_append_right _ hb, m, hlow, Nat.le_succ_of_le hhigh, rfl⟩
    · rintro ⟨b, hb, m, hlow, hhigh, rfl⟩
      rcases Nat.lt_or_eq_of_le hhigh with hm | rfl
      · rcases List.mem_append.mp hb with hb | hb
        · exact Or.inr (Or.inl ⟨b, hb, m, hlow, Nat.le_of_lt_succ hm, rfl⟩)
        · exact Or.inr (Or.inr ⟨b, hb, m, hlow, Nat.le_of_lt_succ hm, rfl⟩)
      · exact Or.inl (by rw [(hroot b hb).2])

/-! ## Trees of one shape -/

/-- Two trees have their nodes in the same places, whatever the keys. -/
inductive Alike : Tree → Tree → Prop
  | absent : Alike absent absent
  | node {k k' : Key} {l l' r r' : Tree} (left : Alike l l') (right : Alike r r') :
    Alike (node k l r) (node k' l' r')

theorem Alike.isAbsent {t t' : Tree} (h : t.Alike t') : t'.isAbsent = t.isAbsent := by
  cases h <;> rfl

/-- **A tree is known by the ranges of its nodes**, but for the keys. -/
theorem alike_of_spans {t t' : Tree} {order start : Nat} (hfits : t.Fits order)
    (hfits' : t'.Fits order)
    (hsame : ∀ r, r ∈ t.spans order start ↔ r ∈ t'.spans order start) : t.Alike t' := by
  induction t generalizing t' order start with
  | absent =>
    cases t' with
    | absent => exact .absent
    | node k' l' r' => exact absurd ((hsame _).mpr List.mem_cons_self) List.not_mem_nil
  | node k l r ihl ihr =>
    cases t' with
    | absent => exact absurd ((hsame _).mp List.mem_cons_self) List.not_mem_nil
    | node k' l' r' =>
      cases order with
      | zero =>
        obtain ⟨rfl, rfl⟩ := hfits
        obtain ⟨rfl, rfl⟩ := hfits'
        exact .node .absent .absent
      | succ n =>
        have hleft : ∀ q, q ∈ l.spans n start ↔ q ∈ l'.spans n start := by
          intro q
          rw [← mem_spans_left (k := k) hfits, hsame, mem_spans_left hfits']
        have hright : ∀ q, q ∈ r.spans n (start + 2 ^ n) ↔ q ∈ r'.spans n (start + 2 ^ n) := by
          intro q
          rw [← mem_spans_right (k := k) hfits, hsame, mem_spans_right hfits']
        exact .node (ihl hfits.1 hfits'.1 hleft) (ihr hfits.2 hfits'.2 hright)

/-- A free stretch is broken into at the same place, whatever keys the nodes get. -/
theorem range_spine (order start depth : Nat) (s : Supply) :
    (spine order start depth s).block.range = span order start := by
  induction depth generalizing s with
  | zero => rfl
  | succ depth ih => exact ih s.take.2

/-- **The same place is found in trees of one shape**, or none in either. -/
theorem place_alike {t t' : Tree} (h : t.Alike t') (want order start : Nat) (s s' : Supply) :
    (place want t order start s).map (fun p => p.block.range) =
      (place want t' order start s').map fun p => p.block.range := by
  induction h generalizing order start with
  | absent => rfl
  | @node k k' l l' r r' hl hr ihl ihr =>
    cases order with
    | zero => rfl
    | succ n =>
      have hleft := ihl n start
      have hright := ihr n (start + 2 ^ n)
      simp only [place, hl.isAbsent, hr.isAbsent]
      by_cases hsmall : ((l.isAbsent && r.isAbsent) || decide (n < want)) = true
      · rw [if_pos hsmall, if_pos hsmall]
      rw [if_neg hsmall, if_neg hsmall]
      cases hpl : place want l n start s with
      | some p =>
        rw [hpl] at hleft
        obtain ⟨p', hp', hrange⟩ := Option.map_eq_some_iff.mp hleft.symm
        rw [hp']
        exact congrArg some hrange.symm
      | none =>
        rw [hpl] at hleft
        rw [Option.map_eq_none_iff.mp hleft.symm]
        cases hpr : place want r n (start + 2 ^ n) s with
        | some p =>
          rw [hpr] at hright
          obtain ⟨p', hp', hrange⟩ := Option.map_eq_some_iff.mp hright.symm
          rw [hp']
          exact congrArg some hrange.symm
        | none =>
          rw [hpr] at hright
          rw [Option.map_eq_none_iff.mp hright.symm]
          cases l.isAbsent with
          | true => exact congrArg some ((range_spine ..).trans (range_spine ..).symm)
          | false =>
            cases r.isAbsent with
            | true => exact congrArg some ((range_spine ..).trans (range_spine ..).symm)
            | false => rfl

end Tree

/-! ## Arenas with the same ranges in use -/

theorem Block.lineage_congr {b b' : Block} (h : b.range = b'.range) (order : Nat) :
    b.lineage order = b'.lineage order := by
  obtain ⟨horder, hstart⟩ := span_inj h
  rw [lineage, lineage, h, horder, hstart]

namespace Sound

variable {b b' : Buddy} {blk : Block}

/-- **The nodes of an arena are its blocks and their ancestors.** -/
theorem mem_spans (h : b.Sound) {r : Range} :
    r ∈ b.root.spans b.order 0 ↔ ∃ x ∈ b.blocks, r ∈ x.lineage b.order := by
  rw [Tree.mem_spans h.fits (Nat.dvd_zero _)]
  refine exists_congr fun x => and_congr_right fun hx => ?_
  obtain ⟨hle, halign, -, -⟩ := Tree.mem_blocks_bounds h.fits (Nat.dvd_zero _) hx
  exact (Block.mem_lineage hle halign).symm

/-- No range is in use twice. -/
theorem nodup_ranges (h : b.Sound) : b.ranges.Nodup := by
  have hstarts : b.blocks.Pairwise fun x y => x.range ≠ y.range := by
    refine h.pairwise_blocks.imp fun {x y} hxy heq => ?_
    have hstart : x.start = y.start := congrArg Range.start heq
    have hpos := x.size_pos
    omega
  exact List.pairwise_map.mpr hstarts

/-- Arenas with the same ranges in use have trees of one shape. -/
theorem alike (h : b.Sound) (h' : b'.Sound) (horder : b'.order = b.order)
    (hsame : ∀ r, r ∈ b.ranges ↔ r ∈ b'.ranges) : b.root.Alike b'.root := by
  have hspans : ∀ r, r ∈ b.root.spans b.order 0 ↔ r ∈ b'.root.spans b.order 0 := by
    intro r
    rw [h.mem_spans, ← horder, h'.mem_spans]
    constructor
    · rintro ⟨x, hx, hr⟩
      obtain ⟨y, hy, heq⟩ := List.mem_map.mp ((hsame _).mp (List.mem_map_of_mem hx))
      exact ⟨y, hy, Block.lineage_congr heq.symm _ ▸ hr⟩
    · rintro ⟨y, hy, hr⟩
      obtain ⟨x, hx, heq⟩ := List.mem_map.mp ((hsame _).mpr (List.mem_map_of_mem hy))
      exact ⟨x, hx, Block.lineage_congr heq.symm _ ▸ hr⟩
  exact Tree.alike_of_spans h.fits (horder ▸ h'.fits) hspans

/-- **They grant a request at the same place, or both refuse it.** -/
theorem allocate?_alike (h : b.Sound) (h' : b'.Sound) (horder : b'.order = b.order)
    (hsame : ∀ r, r ∈ b.ranges ↔ r ∈ b'.ranges) (size : Nat) :
    (b.allocate? size).map (fun x => x.1.range) = (b'.allocate? size).map fun x => x.1.range := by
  have halike := h.alike h' horder hsame
  unfold allocate?
  simp only []
  rw [horder, halike.isAbsent]
  by_cases hlarge : b.order < orderFor size
  · rw [if_pos hlarge, if_pos hlarge]
  rw [if_neg hlarge, if_neg hlarge, Option.map_map, Option.map_map]
  cases b.root.isAbsent with
  | true => exact congrArg some ((Tree.range_spine ..).trans (Tree.range_spine ..).symm)
  | false => exact Tree.place_alike halike (orderFor size) b.order 0 b.supply b'.supply

/-- What is in use once a block has been handed out. -/
theorem mem_ranges_allocated (h : b.Sound) {size : Nat} (ha : b.allocate? size = some (blk, b'))
    {r : Range} : r ∈ b'.ranges ↔ r = blk.range ∨ r ∈ b.ranges := by
  rw [ranges, ((h.allocated ha).blocks.map _).mem_iff, List.map_cons, List.mem_cons]
  rfl

/-- What is in use once a block has been given back. -/
theorem mem_ranges_freed (h : b.Sound) (hfreed : Freed b blk b') {r : Range} :
    r ∈ b'.ranges ↔ r ∈ b.ranges ∧ r ≠ blk.range := by
  have hperm : b.ranges.Perm (blk.range :: b'.ranges) := hfreed.blocks.map Block.range
  have hnotMem := (List.nodup_cons.mp (hperm.nodup_iff.mp h.nodup_ranges)).1
  rw [hperm.mem_iff, List.mem_cons]
  constructor
  · intro hr
    exact ⟨Or.inr hr, fun heq => hnotMem (heq ▸ hr)⟩
  · rintro ⟨heq | hr, hne⟩
    · exact absurd heq hne
    · exact hr

end Sound

/-! ## The nodes of a table -/

/-- The addresses of a node. -/
def Cell.range (c : Cell) : Range :=
  ⟨c.size, c.start, c.start + c.size - 1⟩

namespace NodeTable

/-- The nodes in the slots, in the order of these. -/
def nodes (t : NodeTable) : List Cell :=
  t.cells.filterMap id

/-- How many slots hold a node. -/
def nodeCount (t : NodeTable) : Nat :=
  t.cells.length - t.released.length

/-- The cells of a tree that a table holds have the ranges of its nodes. -/
theorem map_range_held {t : NodeTable} {tree : Tree} {parent : Option Nat} {order start : Nat}
    (h : tree.Held t parent order start) :
    (tree.slots.filterMap t.cell?).map Cell.range = tree.spans order start := by
  induction tree generalizing parent order start with
  | absent => rfl
  | node k l r ihl ihr =>
    obtain ⟨hcell, hl, hr⟩ := h
    rw [slots_node, List.filterMap_cons, hcell]
    simp only []
    rw [List.filterMap_append, List.map_cons, List.map_append, ihl hl, ihr hr]
    rfl

theorem cells_eq (t : NodeTable) : (List.range t.cells.length).map t.cell? = t.cells := by
  refine List.ext_getElem (by simp) fun i hi _ => ?_
  rw [List.getElem_map, List.getElem_range, cell?, List.getElem?_eq_getElem (by simpa using hi)]
  rfl

/-- **The slots of a table hold the nodes of its arena, and nothing else.** -/
theorem Represents.nodes_perm {t : NodeTable} {b : Buddy} (h : t.Represents b) (hb : b.Sound) :
    (t.nodes.map Cell.range).Perm (b.root.spans b.order 0) := by
  have hslots : (b.root.slots ++ b.supply.released).Perm (List.range t.cells.length) := by
    rw [h.backs.slots]
    exact hb.owns.slots
  have hempty : b.supply.released.filterMap t.cell? = [] :=
    List.filterMap_eq_nil_iff.mpr h.backs.empty
  rw [nodes, ← t.cells_eq, List.filterMap_map, ← map_range_held h.held]
  refine List.Perm.map _ ((hslots.symm.filterMap _).trans (List.Perm.of_eq ?_))
  rw [List.filterMap_append, Function.id_comp, hempty, List.append_nil]

theorem Represents.nodeCount_eq {t : NodeTable} {b : Buddy} (h : t.Represents b) :
    t.nodeCount = b.nodeCount := by
  rw [nodeCount, h.backs.slots, h.backs.released, Buddy.nodeCount]

end NodeTable

/-- The nodes of an arena of `2^order` bytes, and of the table that holds it, are the live blocks
and their ancestors. -/
structure Canonical (live : List Block) (order : Nat) (b : Buddy) (t : NodeTable) : Prop where
  nodes : ∀ r, r ∈ t.nodes.map Cell.range ↔ ∃ x ∈ live, r ∈ x.lineage order
  /-- No two nodes cover the same range. -/
  nodup : (t.nodes.map Cell.range).Nodup
  /-- There are as many nodes as there are different ranges among these. -/
  nodeCount : t.nodeCount = (live.flatMap (·.lineage order)).dedup.length
  nodeCount_arena : b.nodeCount = t.nodeCount
  isEmpty : b.isEmpty = true ↔ live = []
  root : t.root = none ↔ live = []

theorem Usage.Sound.canonical {u : Usage} {t : NodeTable} {order : Nat} (h : u.Sound t order) :
    Canonical u.live order u.arena t := by
  have hperm := h.table.nodes_perm h.arena
  have hnodup : (t.nodes.map Cell.range).Nodup :=
    hperm.nodup_iff.mpr (Tree.nodup_spans h.arena.fits 0)
  have hnodes : ∀ r, r ∈ t.nodes.map Cell.range ↔ ∃ x ∈ u.live, r ∈ x.lineage order := by
    intro r
    rw [hperm.mem_iff, h.arena.mem_spans, h.order_eq]
    exact exists_congr fun x => and_congr_left' h.live.mem_iff
  have hempty : u.arena.root.isAbsent = true ↔ u.live = [] := by
    rw [Tree.isAbsent_iff]
    constructor
    · intro hroot
      refine List.nil_perm.mp (List.Perm.trans ?_ h.live)
      rw [Buddy.blocks, hroot, Tree.blocks_absent]
    · intro hlive
      exact (h.arena.eq_absent (List.perm_nil.mp (hlive ▸ h.live))).1
  refine ⟨hnodes, hnodup, ?_, h.table.nodeCount_eq.symm, hempty, ?_⟩
  · have hsame : (t.nodes.map Cell.range).Perm (u.live.flatMap (·.lineage order)).dedup := by
      refine (List.perm_ext_iff_of_nodup hnodup (List.nodup_dedup _)).mpr fun r => ?_
      rw [hnodes, List.mem_dedup, List.mem_flatMap]
    rw [← hsame.length_eq, hperm.length_eq, Tree.length_spans, ← h.arena.nodeCount_eq,
      h.table.nodeCount_eq]
  · rw [h.table.root, ← hempty, ← NodeTable.isNone_slot?, Option.isNone_iff_eq_none]

/-! ## Clients -/

/-- A call of a client, who names the block to give back by its range. -/
inductive ClientCall where
  | allocate (size : Nat)
  | free (range : Range)
  deriving Repr, DecidableEq

/-- What a client is answered. -/
inductive ClientAnswer where
  | granted (range? : Option Range)
  | released (result : Except Failure Unit)

/-- An arena in use, and all blocks that were ever handed out, the latest one first. -/
structure Client where
  usage : Usage
  received : List Block

namespace Client

/-- One call. -/
def step (c : Client) (demand : Demand) : Client where
  usage := c.usage.step demand
  received :=
    match demand with
    | .allocate size => ((c.usage.arena.allocate? size).map Prod.fst).toList ++ c.received
    | .free _ => c.received

/-- An arena of `2^order` bytes after a history of calls, which may give back anything whatever. -/
def run (order : Nat) (demands : List Demand) : Client :=
  demands.foldl step ⟨⟨ofOrder order, []⟩, []⟩

/-- The block that a client means by a range: the live one, or else the last one of that range that
it was handed. -/
def named? (c : Client) (range : Range) : Option Block :=
  (c.usage.live.find? fun b => b.range == range).or
    (c.received.find? fun b => b.range == range)

/-- The answer to a call, and the client afterwards.  A client that was never handed a block of a
range is answered like one that no longer has it. -/
def respond (c : Client) : ClientCall → ClientAnswer × Client
  | .allocate size =>
    (.granted ((c.usage.arena.allocate? size).map fun x => x.1.range), c.step (.allocate size))
  | .free range =>
    match c.named? range with
    | some b => (.released ((c.usage.arena.free b).map fun _ => ()), c.step (.free b))
    | none => (.released (.error (.memory (.notAllocated range.start range.last))), c)

/-- The answers to calls, one after the other. -/
def answers (c : Client) : List ClientCall → List ClientAnswer
  | [] => []
  | call :: rest => (c.respond call).1 :: (c.respond call).2.answers rest

/-- A block that was handed out is older than the next node, and it is live or its node is gone. -/
structure Kept (c : Client) (b : Block) : Prop where
  older : b.key.generation < c.usage.arena.supply.generation
  gone : b ∈ c.usage.live ∨ b.key ∉ c.usage.arena.root.keys

/-- The arena is in order, and so are all blocks that were handed out. -/
structure Sound (c : Client) (t : NodeTable) (order : Nat) : Prop where
  usage : c.usage.Sound t order
  kept : ∀ b ∈ c.received, c.Kept b

variable {c c' : Client} {t t' : NodeTable} {order : Nat}

theorem Sound.kept_allocate (h : c.Sound t order) (size : Nat) :
    ∀ x ∈ (c.step (.allocate size)).received, (c.step (.allocate size)).Kept x := by
  cases ha : c.usage.arena.allocate? size with
  | none =>
    have hsame : c.step (.allocate size) = c := by
      rw [Client.step, Usage.step, ha]
      rfl
    rw [hsame]
    exact h.kept
  | some out =>
    obtain ⟨b, arena⟩ := out
    have hstep : c.step (.allocate size) = ⟨⟨arena, b :: c.usage.live⟩, b :: c.received⟩ := by
      rw [Client.step, Usage.step, ha]
      rfl
    have made := h.usage.arena.allocated ha
    have hnew : b ∈ arena.blocks := made.blocks.symm.subset List.mem_cons_self
    rw [hstep]
    intro x hx
    rcases List.mem_cons.mp hx with rfl | hx
    · exact ⟨made.sound.owns.older _ (made.sound.key_mem_keys hnew), Or.inl List.mem_cons_self⟩
    · obtain ⟨holder, hgone⟩ := h.kept x hx
      refine ⟨Nat.lt_of_lt_of_le holder made.generation_le,
        hgone.imp (List.mem_cons_of_mem _) fun hgone hkey => ?_⟩
      -- the new nodes are later than any block that was handed out before
      rcases made.fresh _ hkey with hold | hlater
      · exact hgone hold
      · exact absurd holder (Nat.not_lt.mpr hlater)

theorem Sound.kept_free (h : c.Sound t order) (block : Block) :
    ∀ x ∈ c.received, (c.step (.free block)).Kept x := by
  intro x hx
  obtain ⟨holder, hgone⟩ := h.kept x hx
  cases hfree : c.usage.arena.free block with
  | error e =>
    have hlive : (c.usage.step (.free block)).live = c.usage.live :=
      List.filter_eq_self.mpr fun y hy => by simpa using h.usage.key_ne hfree y hy
    have harena : (c.step (.free block)).usage.arena = c.usage.arena := by
      rw [Client.step, Usage.step, hfree]
      rfl
    refine ⟨by rwa [harena], ?_⟩
    rw [harena]
    exact hgone.imp_left fun hmem => hlive ▸ hmem
  | ok arena =>
    obtain ⟨y, hy, hkey, freed⟩ := h.usage.arena.freed hfree
    have harena : (c.step (.free block)).usage.arena = arena := by
      rw [Client.step, Usage.step, hfree]
      rfl
    refine ⟨by rwa [harena, freed.generation_eq], ?_⟩
    rw [harena]
    by_cases hsame : x.key = block.key
    · exact Or.inr (hsame.trans hkey.symm ▸ freed.gone)
    · refine hgone.imp (fun hlive => ?_) fun hgone hmem => hgone (freed.keys_subset hmem)
      exact List.mem_filter.mpr ⟨hlive, by simpa using hsame⟩

theorem Sound.step (h : c.Sound t order) (demand : Demand) :
    ∃ t', t.step? demand = some t' ∧ (c.step demand).Sound t' order := by
  obtain ⟨t', ht, husage⟩ := h.usage.step demand
  cases demand with
  | allocate size => exact ⟨t', ht, husage, h.kept_allocate size⟩
  | free block => exact ⟨t', ht, husage, h.kept_free block⟩

theorem Sound.foldl (h : c.Sound t order) (demands : List Demand) :
    ∃ t', demands.foldlM NodeTable.step? t = some t' ∧
      (demands.foldl Client.step c).Sound t' order :=
  foldlM_related (R := fun t c => Sound c t order) (fun _ _ demand h => h.step demand) h demands

/-- A node table goes through every history, and its client stays sound. -/
theorem sound_run (order : Nat) (demands : List Demand) :
    ∃ t, NodeTable.run? order demands = some t ∧ (run order demands).Sound t order :=
  Sound.foldl ⟨Usage.sound_ofOrder order, by simp⟩ demands

/-! ## Answers -/

/-- The block that is meant by a range in use is live. -/
theorem Sound.named?_of_mem (h : c.Sound t order) {range : Range}
    (hrange : range ∈ c.usage.arena.ranges) :
    ∃ b ∈ c.usage.arena.blocks, b.range = range ∧ c.named? range = some b := by
  obtain ⟨x, hx, hxrange⟩ := List.mem_map.mp hrange
  cases hfind : c.usage.live.find? fun b => b.range == range with
  | none =>
    have hne := List.find?_eq_none.mp hfind x (h.usage.live.subset hx)
    exact absurd (beq_iff_eq.mpr hxrange) hne
  | some b =>
    have hbrange := List.find?_some hfind
    refine ⟨b, h.usage.live.symm.subset (List.mem_of_find?_eq_some hfind),
      by simpa using hbrange, ?_⟩
    rw [named?, hfind, Option.some_or]

/-- The block that is meant by a range that is not in use is none, or its node is gone. -/
theorem Sound.named?_of_notMem (h : c.Sound t order) {range : Range}
    (hrange : range ∉ c.usage.arena.ranges) {b : Block} (hb : c.named? range = some b) :
    b.range = range ∧ b.key ∉ c.usage.arena.root.keys := by
  have hlive : ∀ x ∈ c.usage.live, x.range ≠ range := by
    rintro x hx rfl
    exact hrange (List.mem_map_of_mem (h.usage.live.symm.subset hx))
  have hnone : (c.usage.live.find? fun b => b.range == range) = none :=
    List.find?_eq_none.mpr fun x hx => by simpa using hlive x hx
  rw [named?, hnone, Option.none_or] at hb
  have hbrange : b.range = range := by simpa using List.find?_some hb
  refine ⟨hbrange, (h.kept b (List.mem_of_find?_eq_some hb)).gone.resolve_left fun hmem => ?_⟩
  exact hlive b hmem hbrange

/-- What giving back a range in use is answered, and what is in use then. -/
theorem Sound.respond_free (h : c.Sound t order) {range : Range}
    (hrange : range ∈ c.usage.arena.ranges) :
    (c.respond (.free range)).1 = .released (.ok ()) ∧
      (∃ t', (c.respond (.free range)).2.Sound t' order) ∧
      ∀ q, q ∈ (c.respond (.free range)).2.usage.arena.ranges ↔
        q ∈ c.usage.arena.ranges ∧ q ≠ range := by
  obtain ⟨b, hb, rfl, hnamed⟩ := h.named?_of_mem hrange
  obtain ⟨arena, hfree, freed⟩ := h.usage.arena.free_of_mem hb
  obtain ⟨t', -, hsound⟩ := h.step (.free b)
  have harena : (c.step (.free b)).usage.arena = arena := by
    rw [Client.step, Usage.step, hfree]
    rfl
  rw [respond, hnamed]
  simp only [hfree]
  refine ⟨rfl, ⟨t', hsound⟩, fun q => ?_⟩
  rw [harena]
  exact h.usage.arena.mem_ranges_freed freed

/-- What giving back a range that is not in use is answered: it is refused. -/
theorem Sound.respond_free_refused (h : c.Sound t order) {range : Range}
    (hrange : range ∉ c.usage.arena.ranges) :
    (c.respond (.free range)).1 =
        .released (.error (.memory (.notAllocated range.start range.last))) ∧
      (∃ t', (c.respond (.free range)).2.Sound t' order) ∧
      (c.respond (.free range)).2.usage.arena = c.usage.arena := by
  rw [respond]
  split
  · rename_i b hnamed
    obtain ⟨rfl, hgone⟩ := h.named?_of_notMem hrange hnamed
    have hfree := free_of_notMem_keys hgone
    obtain ⟨t', -, hsound⟩ := h.step (.free b)
    refine ⟨by rw [hfree]; rfl, ⟨t', hsound⟩, ?_⟩
    rw [Client.step, Usage.step, hfree]
    rfl
  · exact ⟨rfl, ⟨t, h⟩, rfl⟩

/-- What is in use once a request has been answered. -/
theorem Sound.mem_ranges_allocate (h : c.Sound t order) (size : Nat) (q : Range) :
    q ∈ (c.respond (.allocate size)).2.usage.arena.ranges ↔
      (c.usage.arena.allocate? size).map (fun x => x.1.range) = some q ∨
        q ∈ c.usage.arena.ranges := by
  show q ∈ (c.usage.step (.allocate size)).arena.ranges ↔ _
  rw [Usage.step]
  cases ha : c.usage.arena.allocate? size with
  | none => simp
  | some out =>
    obtain ⟨b, arena⟩ := out
    rw [Option.map_some, Option.some.injEq, h.usage.arena.mem_ranges_allocated ha, eq_comm]

/-- **Two clients of which the same ranges are in use are answered alike, and stay so.** -/
theorem Sound.respond_alike (h : c.Sound t order) (h' : c'.Sound t' order)
    (hsame : ∀ r, r ∈ c.usage.arena.ranges ↔ r ∈ c'.usage.arena.ranges) (call : ClientCall) :
    (c.respond call).1 = (c'.respond call).1 ∧
      (∃ u, (c.respond call).2.Sound u order) ∧ (∃ u, (c'.respond call).2.Sound u order) ∧
      ∀ r, r ∈ (c.respond call).2.usage.arena.ranges ↔
        r ∈ (c'.respond call).2.usage.arena.ranges := by
  cases call with
  | allocate size =>
    have horder : c'.usage.arena.order = c.usage.arena.order :=
      h'.usage.order_eq.trans h.usage.order_eq.symm
    have hplace := h.usage.arena.allocate?_alike h'.usage.arena horder hsame size
    obtain ⟨u, -, hu⟩ := h.step (.allocate size)
    obtain ⟨u', -, hu'⟩ := h'.step (.allocate size)
    refine ⟨congrArg ClientAnswer.granted hplace, ⟨u, hu⟩, ⟨u', hu'⟩, fun r => ?_⟩
    rw [h.mem_ranges_allocate, h'.mem_ranges_allocate, hplace, hsame]
  | free range =>
    by_cases hrange : range ∈ c.usage.arena.ranges
    · obtain ⟨hanswer, hsound, hranges⟩ := h.respond_free hrange
      obtain ⟨hanswer', hsound', hranges'⟩ := h'.respond_free ((hsame range).mp hrange)
      refine ⟨hanswer.trans hanswer'.symm, hsound, hsound', fun r => ?_⟩
      rw [hranges, hranges', hsame]
    · have hrange' : range ∉ c'.usage.arena.ranges := fun hmem => hrange ((hsame range).mpr hmem)
      obtain ⟨hanswer, hsound, harena⟩ := h.respond_free_refused hrange
      obtain ⟨hanswer', hsound', harena'⟩ := h'.respond_free_refused hrange'
      refine ⟨hanswer.trans hanswer'.symm, hsound, hsound', fun r => ?_⟩
      rw [harena, harena', hsame]

theorem Sound.answers_alike (h : c.Sound t order) (h' : c'.Sound t' order)
    (hsame : ∀ r, r ∈ c.usage.arena.ranges ↔ r ∈ c'.usage.arena.ranges)
    (calls : List ClientCall) : c.answers calls = c'.answers calls := by
  induction calls generalizing c c' t t' with
  | nil => rfl
  | cons call calls ih =>
    obtain ⟨hanswer, ⟨u, hu⟩, ⟨u', hu'⟩, hranges⟩ := h.respond_alike h' hsame call
    rw [answers, answers, hanswer, ih hu hu' hranges]

/-- **After every history the nodes of an arena are the live blocks and their ancestors; and if the
same ranges are live after two histories, the same calls have the same answers after both.** -/
theorem run_canonical (order : Nat) (demands : List Demand) :
    let c := run order demands
    (∃ t, NodeTable.run? order demands = some t ∧ t.Represents c.usage.arena ∧
      Canonical c.usage.live order c.usage.arena t) ∧
    ∀ demands', let c' := run order demands'
      (∀ r, r ∈ c.usage.live.map Block.range ↔ r ∈ c'.usage.live.map Block.range) →
        ∀ calls, c.answers calls = c'.answers calls := by
  obtain ⟨t, hrun, hsound⟩ := sound_run order demands
  refine ⟨⟨t, hrun, hsound.usage.table, hsound.usage.canonical⟩, fun demands' hsame calls => ?_⟩
  obtain ⟨t', -, hsound'⟩ := sound_run order demands'
  refine hsound.answers_alike hsound' (fun r => ?_) calls
  rw [ranges, ranges, (hsound.usage.live.map _).mem_iff, (hsound'.usage.live.map _).mem_iff]
  exact hsame r

/-- Of eight bytes the third and the fourth are in use, and the last two.  The one client has filled
the arena and given back the rest, the other one had to make room first, and they hold different
blocks.  But a byte is granted to both at the left edge, four bytes are refused as long as the third
byte is in use, and the range that begins there can be given back once. -/
theorem run_canonical_refilled :
    let c := run 3 [.allocate 2, .allocate 2, .allocate 2, .allocate 2, .free ⟨⟨2, 2⟩, 1, 0⟩,
      .free ⟨⟨5, 5⟩, 1, 4⟩]
    let c' := run 3 [.allocate 4, .allocate 2, .allocate 2, .free ⟨⟨3, 3⟩, 1, 4⟩,
      .free ⟨⟨1, 1⟩, 2, 0⟩, .allocate 2, .allocate 2, .allocate 2, .free ⟨⟨1, 5⟩, 1, 4⟩,
      .free ⟨⟨5, 7⟩, 1, 0⟩]
    let calls := [.allocate 4, .allocate 1, .free ⟨2, 2, 3⟩, .free ⟨2, 2, 3⟩, .allocate 2]
    (∀ r, r ∈ c.usage.live.map Block.range ↔ r ∈ c'.usage.live.map Block.range) ∧
      c.usage.arena ≠ c'.usage.arena ∧
      c.answers calls = c'.answers calls ∧
      c.answers calls = [.granted none, .granted (some ⟨1, 0, 0⟩), .released (.ok ()),
        .released (.error (.memory (.notAllocated 2 3))), .granted (some ⟨2, 2, 3⟩)] := by
  intro c c' calls
  have hsame : ∀ r, r ∈ c.usage.live.map Block.range ↔ r ∈ c'.usage.live.map Block.range :=
    fun r => List.Perm.mem_iff (by decide)
  exact ⟨hsame, by decide, (run_canonical 3 _).2 _ hsame calls, rfl⟩

end Client
end Buddy
end Uniprocessor
