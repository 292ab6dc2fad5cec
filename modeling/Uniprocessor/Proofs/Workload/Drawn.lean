import Mathlib.Algebra.Order.BigOperators.Group.List
import Mathlib.Data.List.Chain
import Uniprocessor.Proofs.Random.Pcg
import Uniprocessor.Proofs.Workload.Text
import Uniprocessor.Workload.Random

/-!
# Random workloads

The processes of a random workload are drawn one after the other, with four draws for each, and every
draw takes as many words as it needs.  What is known of the workload is known of all processes that can
be drawn so, whatever the generator: they are numbered in order, each arrives at most ten ticks after
the one before, and its numbers are in their ranges.  Since they stand in the order of arrival and have
run time and different identifiers, the checks find nothing and the sort moves nothing.

* `Workload.Drawing`: processes that are drawn one after the other;
* `Workload.drawing_drawProcesses`: **the processes of a generator are drawn so**, if its increment is
  odd;
* `Drawing.map_id`, `Drawing.gaps`, `Drawing.ranges`, `Drawing.fits`: what they are like;
* `Workload.generate_drawn`: **a random workload is what its seed draws.**
-/

namespace Uniprocessor
namespace Workload

/-- Processes with identifiers from `id` up, drawn after one that arrives at `previous`; none asks for
more than `limit` bytes. -/
inductive Drawing (limit : Nat) : Nat → Tick → Pcg → List Process → Prop
  | nil {id : Nat} {previous : Tick} {g : Pcg} : Drawing limit id previous g []
  | cons {id : Nat} {previous : Tick} {g₀ g₁ g₂ g₃ g₄ : Pcg} {gap time priority bytes : Nat}
      {ps : List Process} (hgap : Pcg.Drawn 64 Pcg.word64 11 g₀ (gap, g₁))
      (htime : Pcg.Drawn 64 Pcg.word64 29 g₁ (time, g₂))
      (hpriority : Pcg.Drawn 32 Pcg.word32 11 g₂ (priority, g₃))
      (hbytes : Pcg.Drawn 64 Pcg.word64 limit g₃ (bytes, g₄))
      (hrest : Drawing limit (id + 1) (previous + gap) g₄ ps) :
      Drawing limit id previous g₀ (⟨id, previous + gap, time + 1, priority, bytes + 1⟩ :: ps)

variable {limit id count seed arena : Nat} {previous : Tick} {g : Pcg} {ps : List Process}

/-- **A process is drawn with four draws**, which leave the increment odd. -/
theorem exists_drawProcess (hodd : Odd g.increment) (limit id : Nat) (previous : Tick) :
    ∃ gap g₁ time g₂ priority g₃ bytes g₄, Pcg.Drawn 64 Pcg.word64 11 g (gap, g₁) ∧
      Pcg.Drawn 64 Pcg.word64 29 g₁ (time, g₂) ∧ Pcg.Drawn 32 Pcg.word32 11 g₂ (priority, g₃) ∧
      Pcg.Drawn 64 Pcg.word64 limit g₃ (bytes, g₄) ∧ Odd g₄.increment ∧
      drawProcess limit id previous g = (⟨id, previous + gap, time + 1, priority, bytes + 1⟩, g₄) := by
  -- each draw hands the odd increment on, without which the next one need not end
  have hgap := Pcg.below64_drawn hodd 11
  rcases hdrawn₁ : g.below64 11 with ⟨gap, g₁⟩
  rw [hdrawn₁] at hgap
  have hodd₁ : Odd g₁.increment := hgap.odd (fun _ => rfl) hodd
  have htime := Pcg.below64_drawn hodd₁ 29
  rcases hdrawn₂ : g₁.below64 29 with ⟨time, g₂⟩
  rw [hdrawn₂] at htime
  have hodd₂ : Odd g₂.increment := htime.odd (fun _ => rfl) hodd₁
  have hpriority := Pcg.below32_drawn hodd₂ 11
  rcases hdrawn₃ : g₂.below32 11 with ⟨priority, g₃⟩
  rw [hdrawn₃] at hpriority
  have hodd₃ : Odd g₃.increment := hpriority.odd (fun _ => rfl) hodd₂
  have hbytes := Pcg.below64_drawn hodd₃ limit
  rcases hdrawn₄ : g₃.below64 limit with ⟨bytes, g₄⟩
  rw [hdrawn₄] at hbytes
  have hodd₄ : Odd g₄.increment := hbytes.odd (fun _ => rfl) hodd₃
  refine ⟨gap, g₁, time, g₂, priority, g₃, bytes, g₄, hgap, htime, hpriority, hbytes, hodd₄, ?_⟩
  simp only [drawProcess, hdrawn₁, hdrawn₂, hdrawn₃, hdrawn₄]

/-- **The processes of a generator are drawn one after the other.** -/
theorem drawing_drawProcesses (hodd : Odd g.increment) (limit count id : Nat) (previous : Tick) :
    Drawing limit id previous g (drawProcesses limit count id previous g) := by
  induction count generalizing id previous g with
  | zero => exact .nil
  | succ count ih =>
    obtain ⟨gap, g₁, time, g₂, priority, g₃, bytes, g₄, hgap, htime, hpriority, hbytes, hodd₄, hdraw⟩ :=
      exists_drawProcess hodd limit id previous
    rw [drawProcesses, hdraw]
    exact .cons hgap htime hpriority hbytes (ih hodd₄ (id + 1) _)

theorem length_drawProcesses (limit count id : Nat) (previous : Tick) (g : Pcg) :
    (drawProcesses limit count id previous g).length = count := by
  induction count generalizing id previous g with
  | zero => rfl
  | succ count ih => rw [drawProcesses, List.length_cons, ih]

namespace Drawing

/-- They are numbered in order. -/
theorem map_id (h : Drawing limit id previous g ps) :
    ps.map Process.id = List.range' id ps.length := by
  induction h with
  | nil => rfl
  | cons _ _ _ _ _ ih => rw [List.map_cons, ih, List.length_cons, List.range'_succ]

/-- Each arrives at most ten ticks after the one before. -/
theorem gaps (h : Drawing limit id previous g ps) :
    (previous :: ps.map Process.arrival).IsChain fun s t => s ≤ t ∧ t ≤ s + 10 := by
  induction h with
  | nil => exact List.isChain_singleton _
  | cons hgap _ _ _ _ ih =>
    have hlt := hgap.lt (by decide)
    dsimp only at hlt
    refine List.isChain_cons_cons.mpr ⟨⟨Nat.le_add_right _ _, ?_⟩, ih⟩
    exact Nat.add_le_add_left (Nat.le_of_lt_succ hlt) _

/-- Their numbers are in their ranges. -/
theorem ranges (hlimit : 0 < limit) (h : Drawing limit id previous g ps) :
    ∀ p ∈ ps, 1 ≤ p.runTime ∧ p.runTime ≤ 29 ∧ p.priority ≤ 10 ∧ 1 ≤ p.memory ∧
      p.memory ≤ limit := by
  induction h with
  | nil => exact fun p hp => absurd hp List.not_mem_nil
  | cons _ htime hpriority hbytes _ ih =>
    have htime := htime.lt (by decide)
    have hpriority := hpriority.lt (by decide)
    have hbytes := hbytes.lt hlimit
    dsimp only at htime hpriority hbytes
    refine List.forall_mem_cons.mpr ⟨?_, ih⟩
    dsimp only
    omega

/-- They stand in the order of arrival. -/
theorem ascending (h : Drawing limit id previous g ps) :
    ps.Pairwise fun p q => p.arrival ≤ q.arrival := by
  have hle : (ps.map Process.arrival).IsChain fun s t => s ≤ t :=
    (List.isChain_of_isChain_cons h.gaps).imp fun _ _ hgap => hgap.1
  exact List.pairwise_map.mp (List.isChain_iff_pairwise.mp hle)

/-- They all arrive within ten ticks for each. -/
theorem arrival_le (h : Drawing limit id previous g ps) :
    ∀ p ∈ ps, p.arrival ≤ previous + 10 * ps.length := by
  induction h with
  | nil => exact fun p hp => absurd hp List.not_mem_nil
  | cons hgap _ _ _ _ ih =>
    have hlt := hgap.lt (by decide)
    dsimp only [Tick] at hlt ih ⊢
    rw [List.length_cons, List.forall_mem_cons]
    dsimp only
    exact ⟨by omega, fun p hp => Nat.le_trans (ih p hp) (by omega)⟩

/-- They fit their words, if the last identifier, the last arrival and the limit do. -/
theorem fits (hpos : 0 < limit) (hlimit : limit < word64) (hid : id + ps.length ≤ word32)
    (harrival : previous + 10 * ps.length < word64) (h : Drawing limit id previous g ps) :
    ∀ p ∈ ps, p.Fits := by
  intro p hp
  obtain ⟨-, hrunTime, hpriority, -, hmemory⟩ := h.ranges hpos p hp
  have hmem := List.mem_map_of_mem (f := Process.id) hp
  rw [h.map_id, List.mem_range'_1] at hmem
  exact ⟨Nat.lt_of_lt_of_le hmem.2 hid, Nat.lt_of_le_of_lt (h.arrival_le p hp) harrival,
    Nat.lt_of_le_of_lt hrunTime (by decide), Nat.lt_of_le_of_lt hpriority (by decide),
    Nat.lt_of_le_of_lt hmemory hlimit⟩

/-- There is nothing to find fault with. -/
theorem fault?_eq_none (hlimit : 0 < limit) (h : Drawing limit id previous g ps) :
    fault? [] ps = none := by
  refine Workload.fault?_eq_none.mpr ⟨fun p hp => ⟨?_, List.not_mem_nil⟩, ?_⟩
  · exact Nat.pos_iff_ne_zero.mp (h.ranges hlimit p hp).1
  · rw [h.map_id]
    exact List.nodup_range'

end Drawing

/-- Processes that ask for no more than a share each ask for no more than their shares together. -/
theorem sum_memory_le {share : Nat} (h : ∀ p ∈ ps, p.memory ≤ share) :
    (ps.map Process.memory).sum ≤ ps.length * share := by
  have hsum := List.sum_le_card_nsmul (ps.map Process.memory) share fun m hm => by
    obtain ⟨p, hp, rfl⟩ := List.mem_map.mp hm
    exact h p hp
  rwa [List.length_map] at hsum

/-- An arena with a byte for each process has a share for each. -/
theorem mul_share_le (h : count ≤ arena) : count * share count arena ≤ arena := by
  rw [share]
  rcases Nat.eq_zero_or_pos count with rfl | hpos
  · simp
  · rw [Nat.max_eq_left hpos, Nat.max_eq_left (Nat.div_pos h hpos)]
    exact Nat.mul_div_le arena count

/-- **A random workload is what its seed draws.**  For every seed and every arena there is one of up to
`2 ^ 32 - 1` processes, numbered from one up in the order in which they were drawn; the steps of the
arrivals and the numbers of the processes are in their ranges, and if there is a byte for each, then the
arena has room for all of them. -/
theorem generate_drawn (hcount : count < word32) (seed arena : Nat) :
    ∃ w, generate count seed arena = .ok w ∧
      Drawing (max (arena / max count 1) 1) 1 0 (.ofSeed seed) w.processes ∧
      w.processes.map Process.id = List.range' 1 count ∧
      (0 :: w.processes.map Process.arrival).IsChain (fun s t => s ≤ t ∧ t ≤ s + 10) ∧
      (∀ p ∈ w.processes, 1 ≤ p.runTime ∧ p.runTime ≤ 29 ∧ p.priority ≤ 10 ∧ 1 ≤ p.memory ∧
        p.memory ≤ max (arena / max count 1) 1) ∧
      (count ≤ arena → (w.processes.map Process.memory).sum ≤ arena) := by
  have hlimit : 0 < share count arena := Nat.lt_of_lt_of_le Nat.zero_lt_one (Nat.le_max_right _ 1)
  have hdrawing := drawing_drawProcesses (Pcg.odd_increment_ofSeed seed) (share count arena) count 1 0
  have hlength := length_drawProcesses (share count arena) count 1 0 (.ofSeed seed)
  have hid := hdrawing.map_id
  have hranges := hdrawing.ranges hlimit
  rw [hlength] at hid
  refine ⟨⟨drawProcesses (share count arena) count 1 0 (.ofSeed seed)⟩, ?_, hdrawing, hid,
    hdrawing.gaps, hranges, fun hroom => ?_⟩
  · rw [generate, if_neg (Nat.not_le_of_lt hcount)]
    exact ofList_of_pairwise (hdrawing.fault?_eq_none hlimit) hdrawing.ascending
  · have hsum := sum_memory_le fun p hp => (hranges p hp).2.2.2.2
    rw [hlength] at hsum
    exact Nat.le_trans hsum (mul_share_le hroom)

/-- Three processes that fill their arena to a fraction. -/
theorem generate_drawn_three : 3 < word32 ∧ ∃ w, generate 3 7 1024 = .ok w ∧
    w.processes.map Process.id = [1, 2, 3] ∧ (w.processes.map Process.memory).sum ≤ 1024 := by
  have hthree : 3 < word32 := by decide
  obtain ⟨w, hw, -, hid, -, -, hsum⟩ := generate_drawn hthree 7 1024
  exact ⟨hthree, w, hw, hid, hsum (by decide)⟩

end Workload
end Uniprocessor
