import Gem5Core.Lib.MajorityVote
import Gem5Core.ValuePred.Confidence

/-! What a table entry has learned from the strides trained into it: the majority vote of the
library, as long as the counter does not saturate. -/
namespace Gem5Core.ValuePred.Majority
open Base.IntMath MarkovLVP Training Lib List

def trainedInto (p : Params) (mIdx : Nat) : Knowledge → List Call → List Word
  | _, [] => []
  | k, call :: calls =>
    ((trains p k call).toList.filter (·.1 = mIdx)).map Prod.snd ++
      trainedInto p mIdx (Training.step p k call) calls

private theorem foldl_step_getD (p : Params) {mIdx : Nat} (calls : List Call) (k : Knowledge)
    (hlt : mIdx < k.markovTable.length) :
    (calls.foldl (Training.step p) k).markovTable.getD mIdx {} =
      (trainedInto p mIdx k calls).foldl (MarkovEntry.train p.maxConf)
        (k.markovTable.getD mIdx {}) := by
  induction calls generalizing k with
  | nil => rfl
  | cons call calls ih =>
    rw [foldl_cons, ih _ (by simpa using hlt), trainedInto, foldl_append]
    congr 1
    rw [step_markovTable]
    cases trains p k call with
    | none => rfl
    | some target =>
      obtain ⟨i, stride⟩ := target
      by_cases hi : i = mIdx
      · subst hi
        rw [getD_eq_getElem _ _ (by simpa using hlt)]
        simp
      · simp [hi, List.getElem?_set_ne hi]

def tally (mEntry : MarkovEntry) : Option (Word × Nat) :=
  if mEntry.valid then some (mEntry.predictedStride, mEntry.confidence.toNat) else none

theorem tally_valid {mEntry : MarkovEntry} (h : mEntry.valid = true) :
    tally mEntry = some (mEntry.predictedStride, mEntry.confidence.toNat) := if_pos h

theorem tally_train {maxConf : Unsigned} (hmax : maxConf.toNat ≤ 255) (mEntry : MarkovEntry)
    (hroom : mEntry.valid = true → mEntry.confidence.toNat < maxConf.toNat) (stride : Word) :
    tally (mEntry.train maxConf stride) = MajorityVote.cast (tally mEntry) stride := by
  unfold MarkovEntry.train
  cases hv : mEntry.valid with
  | false => simp [tally, hv, MajorityVote.cast]
  | true =>
    have hlt := hroom hv
    rw [if_neg (by simp), tally_valid hv, MajorityVote.cast_some]
    by_cases hs : stride = mEntry.predictedStride
    · rw [if_pos hs, if_pos hs, if_pos hlt, tally_valid rfl,
        Confidence.increment_toNat _ (by omega)]
    · rw [if_neg hs, if_neg hs]
      -- the counter is exhausted exactly when the decremented one is zero
      by_cases hz : mEntry.confidence.toNat - 1 = 0
      · have hone : (if 0 < mEntry.confidence.toNat then mEntry.confidence - 1
            else mEntry.confidence) = 0 := by
          split
          · rename_i hpos
            apply BitVec.eq_of_toNat_eq
            rw [Confidence.decrement_toNat _ hpos, hz]
            rfl
          · rename_i hpos
            apply BitVec.eq_of_toNat_eq
            rw [Nat.eq_zero_of_not_pos hpos]
            rfl
        simp only [hone, if_pos]
        rw [if_pos hz]
        rfl
      · have hpos : 0 < mEntry.confidence.toNat := by omega
        have hne : mEntry.confidence - 1 ≠ 0 := by
          intro h
          apply hz
          rw [← Confidence.decrement_toNat _ hpos, h]
          rfl
        simp only [if_pos hpos, if_neg hne]
        rw [if_neg hz, tally_valid rfl, Confidence.decrement_toNat _ hpos]

private theorem tally_foldl {maxConf : Unsigned} (hmax : maxConf.toNat ≤ 255) (mEntry : MarkovEntry)
    (hinvalid : mEntry.valid = false) (strides : List Word)
    (hlen : strides.length ≤ maxConf.toNat) :
    tally (strides.foldl (MarkovEntry.train maxConf) mEntry) =
      strides.foldl MajorityVote.cast none := by
  induction strides using List.reverseRecOn with
  | nil => simp [tally, hinvalid]
  | append_singleton strides stride ih =>
    rw [length_append, length_singleton] at hlen
    have hpoll := ih (by omega)
    rw [foldl_append, foldl_append, foldl_cons, foldl_cons, foldl_nil,
      foldl_nil, tally_train hmax _ ?_ stride, hpoll]
    intro hv
    rw [tally_valid hv] at hpoll
    have hle := MajorityVote.count_le_length strides hpoll.symm
    omega

/-- A stride that makes up more than half of what was trained into an entry
since it was invalid is the one the entry predicts, in every run that does not
saturate the counter. -/
theorem majority_learned (p : Params) (hmax : p.maxConf.toNat ≤ 255) (before calls : List Call)
    (mIdx : Nat) (hlt : mIdx < p.tableSize.toNat)
    (hinvalid : ((run p before).markovTable.getD mIdx {}).valid = false)
    (hlen : (trainedInto p mIdx (of (run p before)) calls).length ≤ p.maxConf.toNat)
    (stride : Word)
    (hmajority : (trainedInto p mIdx (of (run p before)) calls).length <
      2 * (trainedInto p mIdx (of (run p before)) calls).count stride) :
    ((run p (before ++ calls)).markovTable.getD mIdx {}).valid = true ∧
      ((run p (before ++ calls)).markovTable.getD mIdx {}).predictedStride = stride := by
  have hrun : of (run p (before ++ calls)) =
      calls.foldl (Training.step p) (of (run p before)) := by
    rw [of_run, of_run, List.foldl_append]
  have hentry := foldl_step_getD p calls (of (run p before))
    (by rw [of_markovTable, run_length]; exact hlt)
  rw [← hrun, of_markovTable, of_markovTable] at hentry
  obtain ⟨n, hn⟩ := MajorityVote.majority_wins hmajority
  rw [← tally_foldl hmax _ hinvalid _ hlen, ← hentry] at hn
  unfold tally at hn
  split at hn
  · rename_i hv
    exact ⟨hv, congrArg Prod.fst (Option.some.inj hn)⟩
  · cases hn

/-- Ones before and after a two, in a table of one entry. -/
theorem majority_learned_two_of_three :
    ((run { Params.defaults with tableSize := 1, tableSize_pow := by decide }
      ([0, 0, 1, 3, 4].map fun v => Call.update 64 v false 0)).markovTable.getD 0
        {}).predictedStride = 1 :=
  (majority_learned { Params.defaults with tableSize := 1, tableSize_pow := by decide }
    (by decide) [] ([0, 0, 1, 3, 4].map fun v => Call.update 64 v false 0) 0 (by decide)
    (by decide) (by decide +kernel) 1 (by decide +kernel)).2

end Gem5Core.ValuePred.Majority
