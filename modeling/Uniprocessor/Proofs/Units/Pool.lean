import Mathlib.Data.List.Nodup
import Mathlib.Data.List.Perm.Basic
import Uniprocessor.Units.Pool

/-!
# Units of a pool by number

A pool is sound if its units have different numbers, all of them smaller than the next one.  Then it
is a finite map from numbers to countdowns, and this is how the proofs look at it: `find?_start`,
`find?_tell`, `find?_drop`, `find?_advance`.  The numbers in use, in order, are `numbers`.

Paused units count nothing.  So if at most one unit is not paused, a tick brings at most one report,
and it is that unit's (`UnitPool.reports_of_unpaused`).
-/

namespace Uniprocessor

namespace Countdown

@[simp] theorem onTick_unit (c : Countdown) (tick : Tick) : (c.onTick tick).2.unit = c.unit := by
  unfold onTick
  split <;> rfl

@[simp] theorem onTick_paused (c : Countdown) (tick : Tick) :
    (c.onTick tick).2.paused = c.paused := by
  unfold onTick
  split <;> rfl

@[simp] theorem onCommand_unit (c : Countdown) (command : UnitCommand) :
    (c.onCommand command).2.unit = c.unit := by
  cases command <;> rfl

/-- A paused unit ignores ticks. -/
theorem onTick_of_paused {c : Countdown} (h : c.paused = true) (tick : Tick) :
    c.onTick tick = (none, c) := by
  rw [onTick, if_neg]
  simp [counts, h]

end Countdown

namespace UnitPool

/-- The numbers of the live units. -/
def numbers (p : UnitPool) : List UnitId :=
  p.units.map Countdown.unit

/-- The units have different numbers, smaller than the next one. -/
structure Sound (p : UnitPool) : Prop where
  nodup : p.numbers.Nodup
  older : ∀ u ∈ p.numbers, u < p.next

theorem sound_empty : empty.Sound :=
  ⟨List.nodup_nil, fun _ h => absurd h List.not_mem_nil⟩

variable {p : UnitPool} {u : UnitId} {c : Countdown}

theorem mem_of_find? (h : p.find? u = some c) : c ∈ p.units ∧ c.unit = u :=
  ⟨List.mem_of_find?_eq_some h, by simpa using List.find?_some h⟩

/-- A unit is known by its number. -/
theorem find?_eq_some_iff (h : p.Sound) : p.find? u = some c ↔ c ∈ p.units ∧ c.unit = u := by
  refine ⟨mem_of_find?, ?_⟩
  rintro ⟨hc, hu⟩
  cases hfind : p.find? u with
  | none => exact absurd (List.find?_eq_none.mp hfind c hc) (by simp [hu])
  | some d =>
    obtain ⟨hd, hdu⟩ := mem_of_find? hfind
    exact congrArg some (List.inj_on_of_nodup_map h.nodup hd hc (hdu.trans hu.symm))

theorem mem_numbers_iff : u ∈ p.numbers ↔ ∃ c, p.find? u = some c := by
  rw [numbers, List.mem_map]
  constructor
  · rintro ⟨c, hc, rfl⟩
    cases hfind : p.find? c.unit with
    | none => exact absurd (List.find?_eq_none.mp hfind c hc) (by simp)
    | some d => exact ⟨d, rfl⟩
  · rintro ⟨c, hc⟩
    exact ⟨c, mem_of_find? hc⟩

theorem find?_eq_none_iff : p.find? u = none ↔ u ∉ p.numbers := by
  rw [mem_numbers_iff, Option.eq_none_iff_forall_ne_some, not_exists]

theorem remaining_eq (h : p.find? u = some c) : p.remaining u = .ok c.remaining := by
  rw [remaining, get, h]
  rfl

/-! ## Starting a unit -/

section Start

variable {remaining : Nat} {tick : Tick}

theorem numbers_start : (p.start remaining tick).2.numbers = p.numbers ++ [p.next] :=
  List.map_append

theorem Sound.start (h : p.Sound) : (p.start remaining tick).2.Sound := by
  have hnew : p.next ∉ p.numbers := fun hmem => absurd (h.older _ hmem) (Nat.lt_irrefl _)
  constructor
  · rw [numbers_start]
    exact List.nodup_append.mpr ⟨h.nodup, List.nodup_singleton _,
      fun u hu v hv => fun heq => hnew (List.mem_singleton.mp hv ▸ heq ▸ hu)⟩
  · intro u hu
    rw [numbers_start, List.mem_append, List.mem_singleton] at hu
    show u < p.next + 1
    rcases hu with hu | rfl
    · exact Nat.lt_succ_of_lt (h.older u hu)
    · exact Nat.lt_succ_self _

theorem find?_start (h : p.Sound) (u : UnitId) :
    (p.start remaining tick).2.find? u =
      if u = p.next then some (.start p.next remaining tick) else p.find? u := by
  show (p.units ++ [Countdown.start p.next remaining tick]).find? _ = _
  rw [List.find?_append]
  by_cases hu : u = p.next
  · have hnone : p.find? u = none := find?_eq_none_iff.mpr fun hmem =>
      absurd (h.older _ hmem) (hu ▸ Nat.lt_irrefl _)
    rw [if_pos hu, show p.units.find? (fun c => c.unit == u) = none from hnone, hu]
    simp [Countdown.start]
  · rw [if_neg hu]
    have hne : (p.next == u) = false := beq_eq_false_iff_ne.mpr (Ne.symm hu)
    simp [Countdown.start, hne, find?]

end Start

/-! ## Commands -/

section Tell

variable {command : UnitCommand}

/-- The pool after a unit has carried out a command. -/
def tell (p : UnitPool) (u : UnitId) (command : UnitCommand) : UnitPool :=
  { p with units := p.units.map fun c => if c.unit == u then (c.onCommand command).2 else c }

theorem command_eq (h : p.find? u = some c) (command : UnitCommand) :
    p.command u command = .ok (p.tell u command) := by
  rw [UnitPool.command, h]
  rfl

@[simp] theorem numbers_tell : (p.tell u command).numbers = p.numbers := by
  show (p.units.map _).map Countdown.unit = _
  rw [List.map_map]
  refine List.map_congr_left ?_
  intro c _
  show (if c.unit == u then (c.onCommand command).2 else c).unit = c.unit
  split <;> simp

theorem Sound.tell (h : p.Sound) : (p.tell u command).Sound := by
  refine ⟨?_, fun v hv => h.older v ?_⟩
  · rw [numbers_tell]
    exact h.nodup
  · rw [numbers_tell] at hv
    exact hv

theorem find?_tell (v : UnitId) :
    (p.tell u command).find? v =
      (p.find? v).map fun c => if v = u then (c.onCommand command).2 else c := by
  show (p.units.map _).find? _ = (p.units.find? _).map _
  rw [List.find?_map]
  have hpred : (fun c : Countdown => c.unit == v) ∘
      (fun c => if c.unit == u then (c.onCommand command).2 else c) = fun c => c.unit == v := by
    funext c
    show ((if c.unit == u then (c.onCommand command).2 else c).unit == v) = (c.unit == v)
    split <;> simp
  rw [hpred]
  cases hfind : p.units.find? fun c => c.unit == v with
  | none => rfl
  | some c =>
    have hv : c.unit = v := by simpa using List.find?_some hfind
    rw [Option.map_some, Option.map_some, hv]
    by_cases huv : v = u <;> simp [huv]

theorem find?_tell_self (h : p.find? u = some c) :
    (p.tell u command).find? u = some (c.onCommand command).2 := by
  rw [find?_tell, h, Option.map_some, if_pos rfl]

theorem find?_tell_of_ne {v : UnitId} (hne : v ≠ u) :
    (p.tell u command).find? v = p.find? v := by
  rw [find?_tell]
  cases p.find? v with
  | none => rfl
  | some c => rw [Option.map_some, if_neg hne]

end Tell

/-! ## Releasing a unit -/

/-- The pool without a unit. -/
def drop (p : UnitPool) (u : UnitId) : UnitPool :=
  { p with units := p.units.filter fun c => c.unit != u }

/-- A unit that cannot be told anything cannot be released either. -/
theorem reap_of_command_error {command : UnitCommand} {e : Failure}
    (h : p.command u command = .error e) : p.reap u = .error e := by
  rw [UnitPool.command] at h
  rw [reap]
  cases hfind : p.find? u with
  | none =>
    rw [hfind] at h
    exact h
  | some c =>
    rw [hfind] at h
    exact absurd h (by simp)

theorem reap_eq (h : p.find? u = some c) : p.reap u = .ok (p.drop u) := by
  rw [reap, h]
  rfl

theorem numbers_drop : (p.drop u).numbers = p.numbers.filter (· != u) := by
  rw [numbers, numbers, List.filter_map]
  rfl

theorem Sound.drop (h : p.Sound) : (p.drop u).Sound := by
  have hsub : (p.drop u).numbers.Sublist p.numbers := by
    rw [numbers_drop]
    exact List.filter_sublist
  exact ⟨h.nodup.sublist hsub, fun v hv => h.older v (hsub.subset hv)⟩

theorem find?_drop (u v : UnitId) :
    (p.drop u).find? v = if v = u then none else p.find? v := by
  show (p.units.filter _).find? _ = _
  rw [List.find?_filter]
  split
  · rename_i huv
    rw [List.find?_eq_none]
    intro c _
    rw [huv]
    simp
  · rename_i huv
    refine congrArg (fun f => p.units.find? f) (funext ?_)
    intro c
    by_cases hc : c.unit = v
    · simp [hc, huv]
    · simp [hc]

/-- The numbers besides that of a released unit stay in use. -/
theorem perm_numbers_drop (h : p.Sound) (hu : u ∈ p.numbers) :
    p.numbers.Perm (u :: (p.drop u).numbers) := by
  have herase := List.perm_cons_erase hu
  rw [h.nodup.erase_eq_filter] at herase
  rw [numbers_drop]
  exact herase

/-! ## Ticks -/

section Advance

variable {tick : Tick}

@[simp] theorem numbers_advance : (p.advance tick).2.numbers = p.numbers := by
  show (p.units.map _).map Countdown.unit = _
  rw [List.map_map]
  exact List.map_congr_left fun c _ => c.onTick_unit tick

theorem Sound.advance (h : p.Sound) : (p.advance tick).2.Sound := by
  refine ⟨?_, fun v hv => h.older v ?_⟩
  · rw [numbers_advance]
    exact h.nodup
  · rw [numbers_advance] at hv
    exact hv

theorem find?_advance (u : UnitId) :
    (p.advance tick).2.find? u = (p.find? u).map fun c => (c.onTick tick).2 := by
  show (p.units.map _).find? _ = (p.units.find? _).map _
  rw [List.find?_map]
  have hpred : (fun c : Countdown => c.unit == u) ∘ (fun c : Countdown => (c.onTick tick).2) =
      fun c : Countdown => c.unit == u :=
    funext fun c => congrArg (· == u) (c.onTick_unit tick)
  rw [hpred]

/-- **A tick brings at most one report if at most one unit is not paused**, namely that unit's. -/
theorem reports_of_unpaused (h : p.Sound) (hu : p.find? u = some c)
    (hpaused : ∀ d ∈ p.units, d.unit ≠ u → d.paused = true) :
    (p.advance tick).1 = (c.onTick tick).1.toList := by
  obtain ⟨hc, hcu⟩ := mem_of_find? hu
  obtain ⟨before, after, hsplit⟩ := List.append_of_mem hc
  have hnodup := h.nodup
  rw [numbers, hsplit, List.map_append, List.map_cons, List.nodup_middle, List.nodup_cons,
    List.mem_append, not_or, hcu] at hnodup
  have hnone : ∀ ds ⊆ p.units, u ∉ ds.map Countdown.unit →
      ds.filterMap (fun d => (d.onTick tick).1) = [] := by
    intro ds hsub hnot
    refine List.filterMap_eq_nil_iff.mpr ?_
    intro d hd
    have hne : d.unit ≠ u := fun heq => hnot (heq ▸ List.mem_map_of_mem hd)
    rw [Countdown.onTick_of_paused (hpaused d (hsub hd) hne)]
  have hbefore := hnone before (by rw [hsplit]; exact List.subset_append_left _ _) hnodup.1.1
  have hafter := hnone after (by rw [hsplit]; exact fun d hd => by simp [hd]) hnodup.1.2
  show p.units.filterMap _ = _
  rw [hsplit, List.filterMap_append, hbefore, List.nil_append, List.filterMap_cons, hafter]
  cases (c.onTick tick).1 <;> rfl

/-- Paused units report nothing. -/
theorem reports_of_paused (h : ∀ d ∈ p.units, d.paused = true) : (p.advance tick).1 = [] := by
  refine List.filterMap_eq_nil_iff.mpr ?_
  intro d hd
  rw [Countdown.onTick_of_paused (h d hd)]

end Advance

end UnitPool
end Uniprocessor
