import Gem5Core.O3.FrontEnd
import Gem5Core.Pred.IndirectExact
import Gem5Core.Pred.Stages

/-! Branches that the front end did not see coming get a placeholder instead of a prediction. When
such a branch turns out to be taken, the correction takes the youngest entry from the path of the
indirect predictor as if it were the branch's own. -/
namespace Gem5Core.O3.SurpriseBranch
open Gem5Core.Pred Pred.Branch Pred.Indirect Pred.BPredUnit
open SimpleIndirectPredictor (isIndirectNoReturn)

variable {PC σ η β : Type} {n : Nat} [PCState PC]

theorem update_pathHist (p : Indirect.Params) (iPred : SimpleIndirectPredictor PC) (tid : ThreadID)
    (sn : InstSeqNum) (taken : Bool) (target : PC) (br_type : BranchType) (rand : Nat) :
    ((iPred.update p tid sn true taken target br_type none rand).1.threadInfo tid).pathHist =
      if isIndirectNoReturn br_type then
        (iPred.threadInfo tid).pathHist.dropLast ++ [⟨-1, PCState.instAddr target, sn⟩]
      else (iPred.threadInfo tid).pathHist := by
  have hinfo := IndirectExact.updateRecord_info p (iPred.genIndirectInfo tid).1 tid sn true taken
    target br_type (iPred.genIndirectInfo tid).2 rand
  have hself := congrFun hinfo tid
  rw [Function.update_self] at hself
  change (((iPred.genIndirectInfo tid).1.updateRecord p tid sn true taken target br_type
    (iPred.genIndirectInfo tid).2 rand).1.threadInfo tid).pathHist = _
  rw [hself]
  unfold IndirectExact.updatedInfo SimpleIndirectPredictor.updateDirectionInfo
  cases isIndirectNoReturn br_type <;> rfl

section

variable [NeZero n] (p : BPredUnit.Params PC σ η β) (tid : ThreadID) (corr_target : PC)
  (actually_taken : Bool) (squashed_sn : InstSeqNum) (from_commit : Bool) (rand : Nat)

private theorem squashCorrect_iPred {unit : BPU PC σ η β n} {hist : PredictorHistory PC η n}
    {rest : List (PredictorHistory PC η n)} {iPred : SimpleIndirectPredictor PC}
    (hfront : (squash p tid squashed_sn unit).predHist tid = hist :: rest)
    (hiPred : (squash p tid squashed_sn unit).iPred = some iPred) :
    (squashCorrect p tid corr_target actually_taken squashed_sn from_commit rand unit).iPred =
      some (iPred.update p.iPred tid squashed_sn true actually_taken corr_target hist.type
        hist.indirectHistory rand).1 := by
  have hspec := Stages.correctFront_spec p tid corr_target actually_taken
    (squash p tid squashed_sn unit) hist squashed_sn from_commit rand
  unfold squashCorrect
  simp only [hfront]
  exact (hspec.iPred.returns hiPred).1

/-- The youngest survivor has no record of the indirect predictor. Its correction leaves
the path as it is up to one appended entry exactly when it is not an indirect branch or
the path is empty; the path would otherwise have to end in the very entry that replaces
its last one. -/
theorem surprise_isolated {unit : BPU PC σ η β n} {hist : PredictorHistory PC η n}
    {rest : List (PredictorHistory PC η n)} {iPred : SimpleIndirectPredictor PC}
    (hfront : (squash p tid squashed_sn unit).predHist tid = hist :: rest)
    (hiPred : (squash p tid squashed_sn unit).iPred = some iPred)
    (hsurprise : hist.indirectHistory = none) :
    (∃ iPred' appended,
      (squashCorrect p tid corr_target actually_taken squashed_sn from_commit rand unit).iPred =
        some iPred' ∧
      (iPred'.threadInfo tid).pathHist = (iPred.threadInfo tid).pathHist ++ appended ∧
      appended.length ≤ 1 ∧
      ∀ entry ∈ appended,
        entry.targetAddr = PCState.instAddr corr_target ∧ entry.seqNum = squashed_sn) ↔
    (isIndirectNoReturn hist.type = true →
      ∀ last ∈ (iPred.threadInfo tid).pathHist.getLast?,
        last = ⟨-1, PCState.instAddr corr_target, squashed_sn⟩) := by
  have hcorrected := squashCorrect_iPred p tid corr_target actually_taken squashed_sn from_commit
    rand hfront hiPred
  rw [hsurprise] at hcorrected
  have hpath := update_pathHist p.iPred iPred tid squashed_sn actually_taken corr_target hist.type
    rand
  cases hindirect : isIndirectNoReturn hist.type with
  | false =>
    rw [hindirect] at hpath
    exact iff_of_true
      ⟨_, [], hcorrected, hpath.trans (List.append_nil _).symm, Nat.zero_le 1, nofun⟩ nofun
  | true =>
    rw [hindirect, if_pos rfl] at hpath
    rcases List.eq_nil_or_concat (iPred.threadInfo tid).pathHist with hempty | ⟨older, last, hlast⟩
    · rw [hempty] at hpath ⊢
      refine iff_of_true ⟨_, [⟨-1, PCState.instAddr corr_target, squashed_sn⟩], hcorrected, hpath,
        Nat.le_refl 1, ?_⟩ (fun _ => nofun)
      intro entry hentry
      rw [List.mem_singleton.mp hentry]
      exact ⟨rfl, rfl⟩
    · rw [List.concat_eq_append] at hlast
      rw [hlast, List.dropLast_concat] at hpath
      simp only [hlast, List.getLast?_concat, Option.mem_some_iff, forall_eq', forall_const]
      constructor
      · rintro ⟨iPred', appended, hsame, hkept, -, -⟩
        rw [Option.some.inj (hsame.symm.trans hcorrected), hpath, List.append_assoc,
          List.append_cancel_left_eq, List.singleton_append, List.cons.injEq] at hkept
        exact hkept.1.symm
      · intro heq
        rw [heq]
        exact ⟨_, [], hcorrected, hpath.trans (List.append_nil _).symm, Nat.zero_le 1, nofun⟩

end

section

open Bac FrontEnd

def indirectJump : StaticInst Addr :=
  { fourByteInst false false false with isDirectCtrl := false, isIndirectCtrl := true }

def conditional : StaticInst Addr := fourByteInst false false true

def knownJump : Bac.Params Addr Unit Unit Unit := fixedTargets true [(0x100, indirectJump, 0x200)]

def surprised {n : Nat} [NeZero n] (inst : StaticInst Addr) : BAC Addr Unit Unit Unit n :=
  FrontEnd.run knownJump 0 (FrontEnd.start knownJump () () true true 0x100)
    [.tick quiet, .fetch ⟨1, indirectJump, 0x100, false⟩, .tick quiet, .fetch ⟨2, inst, 0x200, false⟩]

def corrected {n : Nat} [NeZero n] (inst : StaticInst Addr) : BAC Addr Unit Unit Unit n :=
  FrontEnd.step knownJump 0 (surprised inst)
    (.tick { quiet with fromCommit := ⟨true, 0x300, 2, some inst, true⟩ })

def pathOf {n : Nat} (s : BAC Addr Unit Unit Unit n) : Option (List HistoryEntry) :=
  s.bpu.iPred.map fun iPred => (iPred.threadInfo 0).pathHist

/-- A direct conditional branch as the surprise: the entry of the jump stays. -/
theorem surprise_isolated_conditional :
    ∃ iPred iPred' appended,
      (squash knownJump.bpu 0 2 (surprised (n := 8) conditional).bpu).iPred = some iPred ∧
      (squashCorrect knownJump.bpu 0 0x300 true 2 true 0
        (surprised (n := 8) conditional).bpu).iPred = some iPred' ∧
      (iPred'.threadInfo 0).pathHist = (iPred.threadInfo 0).pathHist ++ appended ∧
      appended.length ≤ 1 := by
  have hsome :
      (squash knownJump.bpu 0 2 (surprised (n := 8) conditional).bpu).iPred.isSome = true := by
    decide +kernel
  have hrecord :
      ((squash knownJump.bpu 0 2 (surprised (n := 8) conditional).bpu).predHist 0).head?.map
      (fun hist => (hist.indirectHistory, isIndirectNoReturn hist.type)) = some (none, false) := by
    decide +kernel
  obtain ⟨iPred, hiPred⟩ := Option.isSome_iff_exists.mp hsome
  obtain ⟨hist, hhead, hfields⟩ := Option.map_eq_some_iff.mp hrecord
  obtain ⟨hnone, hdirect⟩ := Prod.mk.inj hfields
  obtain ⟨rest, hfront⟩ := List.head?_eq_some_iff.mp hhead
  obtain ⟨iPred', appended, hcorrected, hpath, hone, -⟩ :=
    (surprise_isolated knownJump.bpu 0 0x300 true 2 true 0 hfront hiPred hnone).mpr
      fun h => absurd (h.symm.trans hdirect) (by decide)
  exact ⟨iPred, iPred', appended, hiPred, hcorrected, hpath, hone⟩

/-- An indirect jump as the surprise: both branches survive, and the entry of the
first is gone. -/
theorem surprise_not_isolated :
    ((surprised (n := 8) indirectJump).bpu.predHist 0).map (fun hist =>
      (hist.seqNum, hist.indirectHistory.isSome)) = [(2, false), (1, true)] ∧
    pathOf (surprised (n := 8) indirectJump) = some [⟨0x100, 0x200, 1⟩] ∧
    ((corrected (n := 8) indirectJump).bpu.predHist 0).map (·.seqNum) = [2, 1] ∧
    pathOf (corrected (n := 8) indirectJump) = some [⟨-1, 0x300, 2⟩] := by
  decide +kernel

end

end Gem5Core.O3.SurpriseBranch
