import Mathlib.Data.List.Nodup
import Uniprocessor.Workload.Basic

/-!
# Workloads that were checked

* `Workload.fault?_eq_none`: what a list without faults is like;
* `Workload.ofList_ok`: a workload made of a list has its processes, and they have run time and
  different identifiers;
* `Workload.pairwise_ofList`: and they are in the order of arrival;
* `Workload.stablySorted_ofList`: those that arrive together in the order of the list;
* `Workload.ofList_filter`: some of them are a workload again.
-/

namespace Uniprocessor
namespace Workload

/-- A list of processes has no fault exactly if all have run time and the identifiers are different
from each other and from those seen before. -/
theorem fault?_eq_none {seen : List Nat} {ps : List Process} : fault? seen ps = none ↔
    (∀ p ∈ ps, p.runTime ≠ 0 ∧ p.id ∉ seen) ∧ (ps.map Process.id).Nodup := by
  induction ps generalizing seen with
  | nil => simp [fault?]
  | cons p ps ih =>
    rw [fault?, List.map_cons, List.nodup_cons, List.forall_mem_cons]
    by_cases hzero : p.runTime = 0
    · simp [hzero]
    rw [if_neg hzero]
    by_cases hseen : p.id ∈ seen
    · simp [hseen]
    rw [if_neg hseen, ih]
    constructor
    · rintro ⟨hrest, hnodup⟩
      refine ⟨⟨⟨hzero, hseen⟩, fun q hq => ⟨(hrest q hq).1, ?_⟩⟩, ?_, hnodup⟩
      · intro hmem
        exact (hrest q hq).2 (List.mem_cons_of_mem _ hmem)
      · intro hmem
        obtain ⟨q, hq, hid⟩ := List.mem_map.mp hmem
        exact (hrest q hq).2 (hid ▸ List.mem_cons_self)
    · rintro ⟨⟨-, hrest⟩, hnotMem, hnodup⟩
      refine ⟨fun q hq => ⟨(hrest q hq).1, ?_⟩, hnodup⟩
      intro hmem
      rcases List.mem_cons.mp hmem with hid | hmem
      · exact hnotMem (hid ▸ List.mem_map_of_mem hq)
      · exact (hrest q hq).2 hmem

/-- **A workload that was made of a list has no faults.** -/
theorem ofList_ok {ps : List Process} {w : Workload} (h : ofList ps = .ok w) :
    w.processes.Perm ps ∧ (∀ p ∈ w.processes, p.runTime ≠ 0) ∧
      (w.processes.map Process.id).Nodup := by
  unfold ofList at h
  split at h
  · exact absurd h (by simp)
  · rename_i hnone
    obtain ⟨htime, hnodup⟩ := fault?_eq_none.mp hnone
    obtain rfl := Except.ok.inj h
    have hperm := List.mergeSort_perm ps fun p q => p.arrival ≤ q.arrival
    refine ⟨hperm, fun p hp => (htime p (hperm.subset hp)).1, ?_⟩
    exact (hperm.map Process.id).nodup_iff.mpr hnodup

theorem arrival_trans (p q r : Process) (hpq : decide (p.arrival ≤ q.arrival) = true)
    (hqr : decide (q.arrival ≤ r.arrival) = true) : decide (p.arrival ≤ r.arrival) = true :=
  decide_eq_true (Nat.le_trans (of_decide_eq_true hpq) (of_decide_eq_true hqr))

theorem arrival_total (p q : Process) :
    (decide (p.arrival ≤ q.arrival) || decide (q.arrival ≤ p.arrival)) = true := by
  simpa using Nat.le_total p.arrival q.arrival

/-- A workload that was made of a list is in the order of arrival. -/
theorem pairwise_ofList {ps : List Process} {w : Workload} (h : ofList ps = .ok w) :
    w.processes.Pairwise fun p q => p.arrival ≤ q.arrival := by
  unfold ofList at h
  split at h
  · exact absurd h (by simp)
  · obtain rfl := Except.ok.inj h
    exact (List.pairwise_mergeSort arrival_trans arrival_total ps).imp fun hle => of_decide_eq_true hle

/-- Processes sorted by arrival, where those that arrive together keep their order. -/
structure StablySorted (ps qs : List Process) : Prop where
  perm : qs.Perm ps
  ascending : qs.Pairwise fun p q => p.arrival ≤ q.arrival
  together : ∀ tick, (qs.filter fun p => p.arrival = tick) = ps.filter fun p => p.arrival = tick

/-- A workload that was made of a list is the list, stably sorted by arrival. -/
theorem stablySorted_ofList {ps : List Process} {w : Workload} (h : ofList ps = .ok w) :
    StablySorted ps w.processes := by
  obtain ⟨hperm, -, -⟩ := ofList_ok h
  refine ⟨hperm, pairwise_ofList h, fun tick => ?_⟩
  -- what arrives together stands in the sorted list as it stands in the list, and there is no more
  have htogether : (ps.filter fun p => p.arrival = tick).Pairwise
      fun p q => decide (p.arrival ≤ q.arrival) = true := by
    refine List.pairwise_of_forall_mem_list fun p hp q hq => decide_eq_true (Nat.le_of_eq ?_)
    have harrival : ∀ {r}, r ∈ ps.filter (fun p => p.arrival = tick) → r.arrival = tick :=
      fun hr => of_decide_eq_true (List.mem_filter.mp hr).2
    rw [harrival hp, harrival hq]
  have hkept : (ps.filter fun p => p.arrival = tick).Sublist w.processes := by
    unfold ofList at h
    split at h
    · exact absurd h (by simp)
    · obtain rfl := Except.ok.inj h
      exact List.sublist_mergeSort arrival_trans arrival_total htogether List.filter_sublist
  have hfiltered := hkept.filter fun p => p.arrival = tick
  simp only [List.filter_filter, Bool.and_self] at hfiltered
  exact (hfiltered.eq_of_length (hperm.filter _).length_eq.symm).symm

/-- A list without faults that is in the order of arrival is taken as it stands. -/
theorem ofList_of_pairwise {ps : List Process} (hfault : fault? [] ps = none)
    (hsorted : ps.Pairwise fun p q => p.arrival ≤ q.arrival) : ofList ps = .ok ⟨ps⟩ := by
  have hsort : (ps.mergeSort fun p q => p.arrival ≤ q.arrival) = ps :=
    List.mergeSort_of_pairwise (hsorted.imp fun h => decide_eq_true h)
  rw [ofList, hfault]
  exact congrArg (fun qs => Except.ok (Workload.mk qs)) hsort

/-- Some of the processes of a workload are a workload. -/
theorem ofList_filter {ps : List Process} {w : Workload} (h : ofList ps = .ok w)
    (keep : Process → Bool) : ofList (w.processes.filter keep) = .ok ⟨w.processes.filter keep⟩ := by
  obtain ⟨-, hpos, hdistinct⟩ := ofList_ok h
  have hsome : (w.processes.filter keep).Sublist w.processes := List.filter_sublist
  refine ofList_of_pairwise (fault?_eq_none.mpr ⟨fun p hp => ?_, ?_⟩) ((pairwise_ofList h).sublist hsome)
  · exact ⟨hpos p (hsome.subset hp), List.not_mem_nil⟩
  · exact hdistinct.sublist (hsome.map Process.id)

end Workload
end Uniprocessor
