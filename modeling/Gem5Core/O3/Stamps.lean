import Gem5Core.O3.FrontEnd
import Gem5Core.Pred.Stages
import Mathlib.Data.List.ReduceOption

/-! What the calls on the branch prediction unit do to its queue, and the stamps of the records in
the queue and in fetch targets. -/
namespace Gem5Core.O3.Stamps
open Gem5Core.Pred Pred.Branch Pred.Stages Ftq Bac List BPredUnit
open Lib.Deque (Trace enters)

variable {PC σ η β : Type} {n : Nat}

section
variable (p : BPredUnit.Params PC σ η β) (tid : ThreadID)

def branchOf (hist : PredictorHistory PC η n) : Addr × StaticInst PC := (hist.pc, hist.inst)

def branches (unit : BPU PC σ η β n) : List (Addr × StaticInst PC) :=
  (unit.predHist tid).map branchOf

def Squashes (unit unit' : BPU PC σ η β n) : Prop :=
  ∃ sns : List InstSeqNum, unit'.trace tid = unit.trace tid ++ sns.map .squash ∧
    branches tid unit' = (branches tid unit).drop sns.length

def Commits (unit unit' : BPU PC σ η β n) : Prop :=
  ∃ sns : List InstSeqNum, unit'.trace tid = unit.trace tid ++ sns.map .commit ∧
    branches tid unit' = (branches tid unit).take ((branches tid unit).length - sns.length)

theorem squashLoop_squashes (sn : InstSeqNum) (fuel : Nat) (unit : BPU PC σ η β n) :
    Squashes tid unit (squashLoop p tid sn fuel unit) := by
  induction fuel generalizing unit with
  | zero => exact ⟨[], by simp [squashLoop], rfl⟩
  | succ fuel ih =>
    unfold squashLoop
    split
    · exact ⟨[], by simp, rfl⟩
    · rename_i hist hhead
      have hspec := squashHistory_spec p tid unit hist
      split
      · obtain ⟨sns, htrace, hbranches⟩ := ih (squashYoungest p tid unit hist)
        refine ⟨hist.seqNum :: sns, htrace.trans ?_, hbranches.trans ?_⟩
        · simp [squashYoungest, BPU.record, BPU.setQueue, hspec.trace]
        · simp [branches, squashYoungest, BPU.record, BPU.setQueue, hspec.predHist]
      · exact ⟨[], by simp, rfl⟩

private theorem updateBTB_queue (w : Work PC σ η β n) :
    (updateBTB p tid w).predHist = w.1.predHist ∧
      (updateBTB p tid w).trace = w.1.trace := by
  unfold updateBTB
  dsimp only
  split
  · exact ⟨rfl, rfl⟩
  · split <;> exact ⟨rfl, rfl⟩

variable [PCState PC]

private theorem commitBranch_queue (w : Work PC σ η β n) :
    (commitBranch p tid w).1.predHist = w.1.predHist ∧
      (commitBranch p tid w).1.trace = w.1.trace := by
  unfold commitBranch
  dsimp only
  generalize hw₁ : commitDirection p tid
    ({ w.1 with stats := commitStats tid w.1.stats w.2 }, w.2) = w₁
  obtain ⟨iPred, indirectHistory, h₂, -⟩ :=
    onIPred_eq w₁ fun iPred indirectHistory => iPred.commit p.iPred tid indirectHistory
  obtain ⟨ras, rasHistory, h₃, -⟩ :=
    onRas_eq ({ w₁.1 with iPred }, { w₁.2 with indirectHistory }) fun ras rasHistory =>
      ras.commit w.2.mispredict w.2.type rasHistory
  rw [h₂, h₃]
  subst hw₁
  split
  · exact updateBTB_queue p tid _
  · exact ⟨rfl, rfl⟩

theorem updateLoop_commits (done_sn : InstSeqNum) (fuel : Nat) (unit : BPU PC σ η β n) :
    Commits tid unit (updateLoop p tid done_sn fuel unit) := by
  induction fuel generalizing unit with
  | zero => exact ⟨[], by simp [updateLoop], by simp [updateLoop]⟩
  | succ fuel ih =>
    unfold updateLoop
    split
    · exact ⟨[], by simp, by simp⟩
    · rename_i hist hlast
      obtain ⟨hpredHist, htrace'⟩ := commitBranch_queue p tid (unit, hist)
      split
      · obtain ⟨sns, htrace, hbranches⟩ := ih (commitOldest p tid unit hist)
        have hqueue : branches tid (commitOldest p tid unit hist) =
            (branches tid unit).dropLast := by
          simp [branches, commitOldest, deleteHistory, BPU.check, BPU.record,
            BPU.setQueue, hpredHist]
        refine ⟨hist.seqNum :: sns, htrace.trans ?_, hbranches.trans ?_⟩
        · simp [commitOldest, deleteHistory, BPU.check, BPU.record,
            BPU.setQueue, htrace']
        · rw [hqueue, dropLast_eq_take, take_take, length_take, length_cons]
          congr 1
          omega
      · exact ⟨[], by simp, by simp⟩

theorem squashCorrect_squashes [NeZero n] (corr_target : PC) (taken : Bool) (sn : InstSeqNum)
    (from_commit : Bool) (rand : Nat) (unit : BPU PC σ η β n) :
    Squashes tid unit
      (squashCorrect p tid corr_target taken sn from_commit rand unit) := by
  have hsquash : Squashes tid unit (BPredUnit.squash p tid sn unit) :=
    squashLoop_squashes p tid sn _ unit
  unfold squashCorrect
  dsimp only
  generalize BPredUnit.squash p tid sn unit = unit' at hsquash ⊢
  split
  · exact hsquash
  · -- the youngest survivor is corrected in place and stays the same branch
    rename_i hist rest hqueue
    obtain ⟨sns, htrace, hbranches⟩ := hsquash
    have hspec := correctFront_spec p tid corr_target taken unit' hist sn from_commit rand
    refine ⟨sns, ?_, ?_⟩
    · simpa [BPU.setQueue, hspec.trace] using htrace
    · rw [← hbranches]
      simp [branches, branchOf, BPU.setQueue, hqueue, hspec.pc, hspec.inst]

end

theorem follow_squashes (sns : List InstSeqNum) (order : List (Option Nat))
    (trace : List (Lib.Deque.Event Nat)) (h : Trace trace order.reduceOption) :
    let after := (sns.map Lib.Deque.Event.squash).foldl BAC.follow (order, trace)
    Trace after.2 after.1.reduceOption ∧ enters after.2 = enters trace ∧
      after.1 = order.drop sns.length := by
  induction sns generalizing order trace with
  | nil => exact ⟨h, rfl, rfl⟩
  | cons sn sns ih =>
    have hnext : Trace (trace ++ (order.head?.join.map .squash).toList)
        order.tail.reduceOption := by
      cases order with
      | nil => simpa using h
      | cons stamp order =>
        apply Trace.squash_toList
        rwa [← singleton_append, reduceOption_append, reduceOption_singleton] at h
    obtain ⟨htrace, henters, horder⟩ := ih _ _ hnext
    refine ⟨htrace, henters.trans ?_, horder.trans (drop_tail ..)⟩
    cases order.head?.join <;> simp

theorem follow_commits (sns : List InstSeqNum) (front : List Nat) (order : List (Option Nat))
    (trace : List (Lib.Deque.Event Nat)) (h : Trace trace (front ++ order.reduceOption)) :
    let after := (sns.map Lib.Deque.Event.commit).foldl BAC.follow (order, trace)
    Trace after.2 (front ++ after.1.reduceOption) ∧ enters after.2 = enters trace ∧
      after.1 = order.take (order.length - sns.length) := by
  induction sns generalizing order trace with
  | nil => exact ⟨h, rfl, (take_length ..).symm⟩
  | cons sn sns ih =>
    have hnext : Trace (trace ++ (order.getLast?.join.map .commit).toList)
        (front ++ order.dropLast.reduceOption) := by
      obtain rfl | ⟨younger, stamp, rfl⟩ := eq_nil_or_concat' order
      · simpa using h
      · rw [List.getLast?_concat, dropLast_concat]
        apply Trace.commit_toList
        rwa [reduceOption_append, reduceOption_singleton, ← append_assoc] at h
    obtain ⟨htrace, henters, horder⟩ := ih _ _ hnext
    refine ⟨htrace, henters.trans ?_, horder.trans ?_⟩
    · cases order.getLast?.join <;> simp
    · rw [dropLast_eq_take, take_take, length_take, length_cons]
      congr 1
      omega

def targetStamps : List (FetchTarget PC (Prediction PC η n)) → List Nat
  | [] => []
  | ft :: rest => targetStamps rest ++ (ft.bpuHistory.map (·.stamp)).toList

theorem targetStamps_concat (fts : List (FetchTarget PC (Prediction PC η n)))
    (ft : FetchTarget PC (Prediction PC η n)) :
    targetStamps (fts ++ [ft]) = (ft.bpuHistory.map (·.stamp)).toList ++ targetStamps fts := by
  induction fts with
  | nil => simp [targetStamps]
  | cons head fts ih => rw [cons_append, targetStamps, ih, targetStamps, append_assoc]

theorem popHead_targetStamps (q : FTQ PC (Prediction PC η n)) :
    targetStamps q.popHead.2.ftq = targetStamps q.ftq := by
  unfold FTQ.popHead
  split
  · rfl
  · rename_i ft rest hfts
    split
    · rfl
    · rename_i hft
      have hrest : targetStamps rest = targetStamps q.ftq := by
        rw [hfts, targetStamps, Option.not_isSome_iff_eq_none.mp hft]
        simp
      split <;> exact hrest

theorem readHead_eq_some {ρ : Type} {q : FTQ PC ρ} {ft : FetchTarget PC ρ}
    (h : q.readHead = some ft) : ∃ rest, q.ftq = ft :: rest := by
  unfold FTQ.readHead at h
  split at h
  · cases h
  · exact List.head?_eq_some_iff.mp h

theorem popHead_subset {ρ : Type} (q : FTQ PC ρ) : q.popHead.2.ftq ⊆ q.ftq := by
  unfold FTQ.popHead
  split
  · exact List.Subset.refl _
  · rename_i ft rest hfts
    split
    · exact List.Subset.refl _
    · have hrest : rest ⊆ q.ftq := by
        rw [hfts]
        exact subset_cons_self ft rest
      split <;> exact hrest

section
variable (p : Bac.Params PC σ η β) (tid : ThreadID)
variable (fts : List (FetchTarget PC (Prediction PC η n)))
variable (w : BPU PC σ η β n × List (Lib.Deque.Event Nat))

theorem squashTarget_spec (ft : FetchTarget PC (Prediction PC η n)) :
    (squashTarget p tid w ft).1.1.predHist = w.1.predHist ∧
      (squashTarget p tid w ft).1.2 =
        w.2 ++ ((ft.bpuHistory.map (·.stamp)).map .squash).toList ∧
      (squashTarget p tid w ft).2 = ft.withHistory none := by
  unfold squashTarget
  cases hft : ft.bpuHistory with
  | none =>
    refine ⟨rfl, (append_nil _).symm, ?_⟩
    exact congrArg ft.withHistory hft
  | some pred => exact ⟨(squashHistory_spec p.bpu tid w.1 pred.hist).predHist, rfl, rfl⟩

theorem forAllBackward_frame :
    let after := forAllBackward (squashTarget p tid) w fts
    after.1.1.predHist = w.1.predHist ∧ after.2 = fts.map (·.withHistory none) := by
  induction fts with
  | nil => exact ⟨rfl, rfl⟩
  | cons ft fts ih =>
    obtain ⟨hpredHist, -, hft⟩ :=
      squashTarget_spec p tid (forAllBackward (squashTarget p tid) w fts).1 ft
    refine ⟨hpredHist.trans ih.1, ?_⟩
    rw [map_cons, ← hft, ← ih.2]
    rfl

theorem forAllBackward_trace (rest : List Nat) (h : Trace w.2 (targetStamps fts ++ rest)) :
    let after := forAllBackward (squashTarget p tid) w fts
    Trace after.1.2 rest ∧ enters after.1.2 = enters w.2 := by
  induction fts generalizing rest with
  | nil => exact ⟨h, rfl⟩
  | cons ft fts ih =>
    rw [targetStamps, append_assoc] at h
    obtain ⟨htrace, henters⟩ := ih _ h
    unfold forAllBackward
    dsimp only
    generalize forAllBackward (squashTarget p tid) w fts = after at htrace henters ⊢
    obtain ⟨-, htrace', -⟩ := squashTarget_spec p tid after.1 ft
    rw [htrace']
    refine ⟨htrace.squash_toList, ?_⟩
    rw [← henters]
    cases ft.bpuHistory <;> simp

theorem targetStamps_released : targetStamps (fts.map (·.withHistory none)) = [] := by
  induction fts with
  | nil => rfl
  | cons ft fts ih =>
    rw [map_cons, targetStamps, ih]
    rfl

theorem checkAndUpdateBPUSignals_cases [PCState PC] [NeZero n] (signals : Signals PC)
    (s : BAC PC σ η β n) :
    ∃ s', (s' = s ∨ ∃ call, Commits tid s.bpu (call s.bpu) ∧ s' = s.onUnit tid call) ∧
      ((checkAndUpdateBPUSignals p tid signals s).2 = s' ∨
        ∃ new_pc, (checkAndUpdateBPUSignals p tid signals s).2 =
            squash new_pc (squashBpuHistories p tid s') ∨
          ∃ call, (∀ unit, Squashes tid unit (call unit)) ∧
            (checkAndUpdateBPUSignals p tid signals s).2 =
              (squash new_pc (squashBpuHistories p tid s')).onUnit tid call) := by
  unfold checkAndUpdateBPUSignals
  dsimp only
  split
  · refine ⟨s, .inl rfl, .inr ⟨signals.fromCommit.pc, .inr ?_⟩⟩
    split
    · exact ⟨_, squashCorrect_squashes p.bpu tid _ _ _ _ _, rfl⟩
    · exact ⟨_, squashLoop_squashes p.bpu tid _ _, rfl⟩
  · generalize hcommit : (if signals.fromCommit.doneSeqNum ≠ 0 then
      s.onUnit tid (BPredUnit.update p.bpu tid signals.fromCommit.doneSeqNum) else s) = s'
    refine ⟨s', ?_, ?_⟩
    · rw [← hcommit]
      split
      · exact .inr ⟨_, updateLoop_commits p.bpu tid _ _ _, rfl⟩
      · exact .inl rfl
    · split
      · refine .inr ⟨signals.fromDecode.nextPC, .inr ?_⟩
        split
        · exact ⟨_, squashCorrect_squashes p.bpu tid _ _ _ _ _, rfl⟩
        · exact ⟨_, squashLoop_squashes p.bpu tid _ _, rfl⟩
      · split
        · exact .inr ⟨_, .inl rfl⟩
        · exact .inl rfl

end

end Gem5Core.O3.Stamps
