import Uniprocessor.Arrivals.Generator

/-!
# Transcripts

The generator takes its processes in the order of the workload and never looks past the first one
that is left.  So a process that is due waits for those in front of it, and what is sent at which
tick can be read off the workload: a process belongs to the batch of the latest arrival up to its
own, or of the tick of the start if that is later.  There is a batch for every tick, also if it is
empty, until all processes have been sent.

* `releaseTick`, `transcript`: the batch of a process, and all batches up to a tick;
* `transcript_of_due`, `transcript_of_not_due`: **the first message**, and the transcript of what is
  left after it;
* `exhausted_mem_transcript`: the generator says that it is done when all has been sent.
-/

namespace Uniprocessor

/-- The tick at which a process is sent: it is due then, and so is every process in front of it. -/
def releaseTick (since : Tick) (ps : List Process) (i : Nat) : Tick :=
  ((ps.take (i + 1)).map Process.arrival).foldl max since

/-- The tick at which all processes have been sent. -/
def lastTick (since : Tick) (ps : List Process) : Tick :=
  (ps.map Process.arrival).foldl max since

/-- The processes that are sent at a tick, in their order. -/
def releasedAt (since : Tick) (ps : List Process) (tick : Tick) : List Process :=
  ((List.range ps.length).filter fun i => releaseTick since ps i = tick).filterMap fun i => ps[i]?

/-- The batch of a tick: the processes that are sent, and what closes it. -/
def batchAt (since : Tick) (ps : List Process) (tick : Tick) : List ArrivalMessage :=
  (releasedAt since ps tick).map .arrival ++
    [if tick = lastTick since ps then .exhausted else .batchComplete tick]

/-- The batches of the ticks up to `now`, or to the one at which all processes have been sent. -/
def transcript (since : Tick) (ps : List Process) (now : Tick) : List ArrivalMessage :=
  (List.range' since (min now (lastTick since ps) + 1 - since)).flatMap (batchAt since ps)

variable {since tick now : Tick} {ps : List Process} {p : Process}

theorem lastTick_cons : lastTick since (p :: ps) = lastTick (max since p.arrival) ps := rfl

theorem le_lastTick (since : Tick) (ps : List Process) : since ≤ lastTick since ps := by
  induction ps generalizing since with
  | nil => exact Nat.le_refl _
  | cons p ps ih => exact Nat.le_trans (Nat.le_max_left since p.arrival) (ih _)

/-- In front of the first process there is none, and the others come no sooner than it does. -/
theorem releasedAt_cons : releasedAt since (p :: ps) tick =
    (if max since p.arrival = tick then [p] else []) ++
      releasedAt (max since p.arrival) ps tick := by
  have htail : (((List.range ps.length).filter
      ((fun i => decide (releaseTick since (p :: ps) i = tick)) ∘ Nat.succ)).map
      Nat.succ).filterMap (fun i => (p :: ps)[i]?) =
        releasedAt (max since p.arrival) ps tick := by
    rw [List.filterMap_map]
    rfl
  have hzero : releaseTick since (p :: ps) 0 = max since p.arrival := rfl
  rw [releasedAt, List.length_cons, List.range_succ_eq_map, List.filter_cons, List.filter_map,
    hzero]
  by_cases hhead : max since p.arrival = tick
  · rw [if_pos (decide_eq_true hhead), if_pos hhead, ← htail]
    rfl
  · rw [if_neg (by simpa using hhead), if_neg hhead, htail]
    rfl

/-- Nothing is sent before the generator starts. -/
theorem releasedAt_of_lt (h : tick < since) : releasedAt since ps tick = [] := by
  induction ps generalizing since with
  | nil => rfl
  | cons p ps ih =>
    have hlt : tick < max since p.arrival := Nat.lt_of_lt_of_le h (Nat.le_max_left ..)
    rw [releasedAt_cons, ih hlt, if_neg (Nat.ne_of_gt hlt)]
    rfl

/-! ## How a transcript begins -/

/-- The first batch, and those of the later ticks. -/
theorem transcript_eq (hnow : since ≤ now) :
    transcript since ps now = batchAt since ps since ++
      (List.range' (since + 1) (min now (lastTick since ps) - since)).flatMap
        (batchAt since ps) := by
  have hle : since ≤ min now (lastTick since ps) := Nat.le_min.mpr ⟨hnow, le_lastTick since ps⟩
  rw [transcript, Nat.succ_sub hle, List.range'_succ, List.flatMap_cons]

theorem transcript_of_lt (h : now < since) : transcript since ps now = [] := by
  have hlt : min now (lastTick since ps) + 1 ≤ since := Nat.lt_of_le_of_lt (Nat.min_le_left ..) h
  rw [transcript, Nat.sub_eq_zero_of_le hlt]
  rfl

/-- With nothing to send, the generator says so. -/
theorem transcript_nil (hnow : since ≤ now) : transcript since [] now = [.exhausted] := by
  have hlast : lastTick since [] = since := rfl
  rw [transcript_eq hnow, hlast, Nat.min_eq_right hnow, Nat.sub_self, List.range'_zero,
    batchAt, hlast, if_pos rfl]
  rfl

/-- A process that is due is sent. -/
theorem transcript_of_due (hdue : p.arrival ≤ since) (hnow : since ≤ now) :
    transcript since (p :: ps) now = .arrival p :: transcript since ps now := by
  have hmax : max since p.arrival = since := Nat.max_eq_left hdue
  have hbatch : ∀ tick, batchAt since (p :: ps) tick =
      (if since = tick then [.arrival p] else []) ++ batchAt since ps tick := by
    intro tick
    rw [batchAt, releasedAt_cons, lastTick_cons, hmax, List.map_append, List.append_assoc, batchAt]
    split <;> rfl
  have hrest : ∀ n, (List.range' (since + 1) n).flatMap (batchAt since (p :: ps)) =
      (List.range' (since + 1) n).flatMap (batchAt since ps) := by
    intro n
    rw [List.flatMap_def, List.flatMap_def]
    refine congrArg List.flatten (List.map_congr_left fun tick htick => ?_)
    rw [hbatch, if_neg (Nat.ne_of_lt (List.mem_range'_1.mp htick).1)]
    rfl
  rw [transcript_eq hnow, transcript_eq hnow, hrest, hbatch, if_pos rfl,
    lastTick_cons, hmax]
  rfl

theorem max_of_not_due (hdue : since < p.arrival) :
    max since p.arrival = max (since + 1) p.arrival :=
  (Nat.max_eq_right (Nat.le_of_lt hdue)).trans (Nat.max_eq_right hdue).symm

theorem lastTick_of_not_due (hdue : since < p.arrival) :
    lastTick since (p :: ps) = lastTick (since + 1) (p :: ps) := by
  rw [lastTick_cons, lastTick_cons, max_of_not_due hdue]

/-- A process that is not due has to wait, and with it all processes behind it. -/
theorem transcript_of_not_due (hdue : since < p.arrival) (hnow : since ≤ now) :
    transcript since (p :: ps) now =
      .batchComplete since :: transcript (since + 1) (p :: ps) now := by
  have hlast : lastTick since (p :: ps) = lastTick (since + 1) (p :: ps) :=
    lastTick_of_not_due hdue
  have hreleased : releasedAt since (p :: ps) = releasedAt (since + 1) (p :: ps) := by
    funext tick
    rw [releasedAt_cons, releasedAt_cons, max_of_not_due hdue]
  have hbatch : batchAt since (p :: ps) = batchAt (since + 1) (p :: ps) := by
    funext tick
    rw [batchAt, hreleased, hlast, batchAt]
  have hlt := le_lastTick (since + 1) (p :: ps)
  rw [transcript_eq hnow, batchAt, hreleased, releasedAt_of_lt (Nat.lt_succ_self since),
    hlast, if_neg (Nat.ne_of_lt hlt), hbatch, transcript,
    Nat.add_sub_add_right]
  rfl

/-- The generator says that it is done when all processes have been sent. -/
theorem exhausted_mem_transcript :
    .exhausted ∈ transcript since ps now ↔ lastTick since ps ≤ now := by
  have hfirst := le_lastTick since ps
  rcases Nat.lt_or_ge now since with hlt | hnow
  · rw [transcript_of_lt hlt]
    exact iff_of_false List.not_mem_nil (Nat.not_le.mpr (Nat.lt_of_lt_of_le hlt hfirst))
  have hbatch : ∀ tick, .exhausted ∈ batchAt since ps tick ↔ tick = lastTick since ps := by
    intro tick
    simp [batchAt]
  have hend : since + (min now (lastTick since ps) + 1 - since) = min now (lastTick since ps) + 1 :=
    Nat.add_sub_of_le (Nat.le_succ_of_le (Nat.le_min.mpr ⟨hnow, hfirst⟩))
  simp only [transcript, List.mem_flatMap, List.mem_range'_1, hbatch, hend, Nat.lt_succ_iff]
  constructor
  · rintro ⟨tick, ⟨-, hlast⟩, rfl⟩
    exact Nat.le_trans hlast (Nat.min_le_left ..)
  · intro hlast
    exact ⟨lastTick since ps, ⟨hfirst, Nat.le_min.mpr ⟨hlast, Nat.le_refl _⟩⟩, rfl⟩

end Uniprocessor
