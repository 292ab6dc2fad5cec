import Uniprocessor.Proofs.Workload.Drawn
import Uniprocessor.Proofs.Workload.Text

/-!
# Random workloads are read back

The numbers of a random process are bounded by the count and by the share of the arena, so they fit
their words if the arena does.  A random workload is then one that a list, and so a text, can make.

* `Workload.ofList_of_generate`: what a random workload is made of;
* `Workload.Made`: how a workload comes to be;
* `Workload.parse_toText`: **the text of a workload is read as the workload, however it was made.**
-/

namespace Uniprocessor

namespace Workload

open Text

variable {p : Process} {ps : List Process} {w : Workload}

/-- A random workload was made of processes that fit their words. -/
theorem ofList_of_generate {count seed arena : Nat} (harena : arena < word64)
    (h : generate count seed arena = .ok w) : ∃ ps, ofList ps = .ok w ∧ ∀ p ∈ ps, p.Fits := by
  unfold generate at h
  split at h
  · exact absurd h (by simp)
  · rename_i hcount
    have hpos : 0 < share count arena := Nat.lt_of_lt_of_le Nat.zero_lt_one (Nat.le_max_right _ 1)
    have hshare : share count arena < word64 := by
      have hle : arena / max count 1 ≤ arena := Nat.div_le_self arena (max count 1)
      exact max_lt (Nat.lt_of_le_of_lt hle harena) (by decide)
    have hdrawing := drawing_drawProcesses (Pcg.odd_increment_ofSeed seed) (share count arena) count 1 0
    refine ⟨_, h, hdrawing.fits hpos hshare ?_ ?_⟩
    · rw [length_drawProcesses]
      omega
    · rw [length_drawProcesses]
      dsimp only [Tick, word32, word64] at hcount ⊢
      omega

/-! ## The round trip -/

/-- How a workload comes to be: of a list of processes that fit their words, of a text, or of a seed. -/
inductive Made (w : Workload) : Prop
  | ofList {ps : List Process} (hfits : ∀ p ∈ ps, p.Fits) (h : ofList ps = .ok w)
  | parse {text : String} (h : Workload.parse text = .ok w)
  | generate {count seed arena : Nat} (harena : arena < word64)
      (h : Workload.generate count seed arena = .ok w)

/-- **The text of a workload is read as the workload.**  The processes come back in the same order,
with the same numbers, however many arrive together and up to the largest number of each word. -/
theorem parse_toText (h : w.Made) : parse w.toText = .ok w := by
  cases h with
  | ofList hfits h => exact parse_toText_of_ofList h hfits
  | parse h =>
    obtain ⟨ps, hps, hfits⟩ := ofList_of_parse h
    exact parse_toText_of_ofList hps hfits
  | generate harena h =>
    obtain ⟨ps, hps, hfits⟩ := ofList_of_generate harena h
    exact parse_toText_of_ofList hps hfits

/-- Processes that arrive together, with the largest numbers that there are; a text with a sign, blanks
and a carriage return; and the random workload of a seed. -/
theorem parse_toText_ties :
    (∃ w : Workload, w = ⟨[⟨word32 - 1, 7, word64 - 1, word32 - 1, word64 - 1⟩, ⟨0, 7, 1, 0, 0⟩,
        ⟨1, word64 - 1, 1, 0, 0⟩]⟩ ∧ ofList w.processes = .ok w ∧ parse w.toText = .ok w) ∧
    (∃ w : Workload, w = ⟨[⟨3, 2, 4, 1, 60⟩, ⟨1, 2, 5, 3, 100⟩]⟩ ∧
      parse "  +3 2 4 1 60\r\n\n#\n1\t2 05 3 100" = .ok w ∧ parse w.toText = .ok w) ∧
    (∃ w : Workload, w = ⟨[⟨1, 0, 7, 1, 31⟩, ⟨2, 3, 18, 3, 61⟩, ⟨3, 11, 15, 9, 30⟩]⟩ ∧
      generate 3 7 1024 = .ok w ∧ parse w.toText = .ok w) := by
  have hw : ofList [⟨word32 - 1, 7, word64 - 1, word32 - 1, word64 - 1⟩, ⟨0, 7, 1, 0, 0⟩,
        ⟨1, word64 - 1, 1, 0, 0⟩] = .ok _ :=
    ofList_of_pairwise (by decide) (by decide)
  have hlines : readLines 1 (lines "  +3 2 4 1 60\r\n\n#\n1\t2 05 3 100".toList) =
      .ok [⟨3, 2, 4, 1, 60⟩, ⟨1, 2, 5, 3, 100⟩] :=
    ok_of_toOption (by decide +kernel)
  have hv : parse "  +3 2 4 1 60\r\n\n#\n1\t2 05 3 100" =
      .ok ⟨[⟨3, 2, 4, 1, 60⟩, ⟨1, 2, 5, 3, 100⟩]⟩ := by
    rw [parse, hlines]
    exact ofList_of_pairwise (by decide) (by decide)
  have hdrawn : drawProcesses (share 3 1024) 3 1 0 (.ofSeed 7) =
      [⟨1, 0, 7, 1, 31⟩, ⟨2, 3, 18, 3, 61⟩, ⟨3, 11, 15, 9, 30⟩] := by decide +kernel
  have hu : generate 3 7 1024 =
      .ok ⟨[⟨1, 0, 7, 1, 31⟩, ⟨2, 3, 18, 3, 61⟩, ⟨3, 11, 15, 9, 30⟩]⟩ := by
    rw [generate, if_neg (by decide), hdrawn]
    exact ofList_of_pairwise (by decide) (by decide)
  refine ⟨⟨_, rfl, hw, parse_toText (.ofList ?_ hw)⟩, ⟨_, rfl, hv, parse_toText (.parse hv)⟩,
    ⟨_, rfl, hu, parse_toText (.generate (by decide) hu)⟩⟩
  simp only [List.forall_mem_cons]
  refine ⟨?_, ?_, ?_, fun p hp => absurd hp List.not_mem_nil⟩ <;> constructor <;> decide

end Workload
end Uniprocessor
