import Uniprocessor.Proofs.Journal.Slices
import Uniprocessor.Proofs.Journal.Timetable

/-!
# Services one after the other

A processor that nobody loses serves one process after the other, each of them to its end.  Under highest
priority first it chooses, whenever it is free, among those who have been admitted and not been served
yet: the one with the least priority value, and the first one of those.

* `Services.outline`: what a log tells of such services;
* `Services.freeSince`: when the processor is free again;
* `Services.Chosen`: who is served next, and when;
* `Services.Prioritized`: everybody has been chosen who was served.
-/

namespace Uniprocessor
namespace Services

/-- What a log tells of services: each of them is a process and the tick at which it starts, and the
process finishes when it has had its run time. -/
def outline (served : List (Process × Tick)) : List (ProcessEventKind × Nat × Tick) :=
  served.flatMap fun x => [(.started, x.1.id, x.2), (.finished, x.1.id, x.2 + x.1.runTime)]

/-- When the processor is free again after these services. -/
def freeSince (served : List (Process × Tick)) : Tick :=
  (served.getLast?.map fun x => x.2 + x.1.runTime).getD 0

/-- After the services `before`, the process `p` starts at a tick.  The processor is free by then, and it
has not been free for a tick at whose end anybody was left to be served; and of those who have been
admitted and not been served, in the order of their admission, `p` is the first that no other one's
priority value is less than.  `admitted` is who has been admitted by the end of a tick. -/
structure Chosen (admitted : Tick → List Process) (before : List (Process × Tick)) (p : Process)
    (tick : Tick) : Prop where
  free : freeSince before ≤ tick
  waited : ∀ t, freeSince before ≤ t → t < tick → (before.map Prod.fst).Perm (admitted t)
  choice : ∃ earlier later, (earlier ++ p :: later).Sublist (admitted tick) ∧
    (before.map Prod.fst ++ (earlier ++ p :: later)).Perm (admitted tick) ∧
    (∀ q ∈ earlier, p.priority < q.priority) ∧ ∀ q ∈ later, p.priority ≤ q.priority

/-- Everybody who is served has been chosen. -/
def Prioritized (admitted : Tick → List Process) (served : List (Process × Tick)) : Prop :=
  ∀ before p tick after, served = before ++ (p, tick) :: after → Chosen admitted before p tick

variable {admitted : Tick → List Process} {served : List (Process × Tick)} {p : Process} {tick : Tick}

theorem outline_concat (served : List (Process × Tick)) (p : Process) (tick : Tick) :
    outline (served ++ [(p, tick)]) = outline served ++
      [(.started, p.id, tick), (.finished, p.id, tick + p.runTime)] := by
  rw [outline, List.flatMap_append, List.flatMap_singleton, outline]

theorem freeSince_concat (served : List (Process × Tick)) (p : Process) (tick : Tick) :
    freeSince (served ++ [(p, tick)]) = tick + p.runTime := by
  rw [freeSince, List.getLast?_concat]
  rfl

theorem prioritized_nil (admitted : Tick → List Process) : Prioritized admitted [] :=
  fun _ _ _ _ h => absurd h.symm (by simp)

/-- One more service. -/
theorem Prioritized.concat (h : Prioritized admitted served) (hp : Chosen admitted served p tick) :
    Prioritized admitted (served ++ [(p, tick)]) := by
  intro before q t after hsplit
  rcases concat_split hsplit with ⟨-, rfl, hlast⟩ | ⟨rest, -, hserved⟩
  · obtain ⟨rfl, rfl⟩ := Prod.mk.inj hlast
    exact hp
  · exact h before q t rest hserved

/-- **No service begins before the ones before it are over.** -/
theorem Prioritized.pairwise (h : Prioritized admitted served) :
    served.Pairwise fun x y => x.2 + x.1.runTime ≤ y.2 := by
  induction served using List.reverseRecOn with
  | nil => exact List.Pairwise.nil
  | append_singleton served x ih =>
    have hserved : Prioritized admitted served := fun before q t after hsplit =>
      h before q t (after ++ [x]) (by rw [hsplit, List.append_assoc, List.cons_append])
    have hx := (h served x.1 x.2 [] rfl).free
    refine List.pairwise_append.mpr ⟨ih hserved, List.pairwise_singleton _ _, fun y hy z hz => ?_⟩
    obtain rfl := List.mem_singleton.mp hz
    refine Nat.le_trans ?_ hx
    -- the last one of those before is over, and so are the others
    rcases List.eq_nil_or_concat served with rfl | ⟨init, last, rfl⟩
    · exact absurd hy List.not_mem_nil
    · rw [List.concat_eq_append] at hy ih hserved ⊢
      rw [freeSince_concat]
      rcases List.mem_append.mp hy with hy | hy
      · have hle := (List.pairwise_append.mp (ih hserved)).2.2 y hy last (List.mem_singleton_self last)
        exact Nat.le_trans hle (Nat.le_add_right _ _)
      · exact (List.mem_singleton.mp hy) ▸ le_rfl

/-- Nobody is stopped or resumed by services. -/
theorem kind_of_mem_outline {x : ProcessEventKind × Nat × Tick} (h : x ∈ outline served) :
    x.1 = .started ∨ x.1 = .finished := by
  obtain ⟨y, -, hx⟩ := List.mem_flatMap.mp h
  rcases List.mem_cons.mp hx with rfl | hx
  · exact Or.inl rfl
  · exact Or.inr (congrArg Prod.fst (List.mem_singleton.mp hx))

end Services
end Uniprocessor
