import Gem5Core.Pred.BPredUnit

/-! What each stage of `predict`, `commitBranch`, `squashHistory` and the corrective `squash` leaves
alone, and from it one specification for each of the four functions. -/
namespace Gem5Core.Pred.Stages
open Branch BPredUnit Lib.Ledger
open Ras (ReturnAddrStack RASHistory)
open Indirect (SimpleIndirectPredictor IndirectHistory)

variable {PC σ η β : Type} {n : Nat}

def counted (stats : Stats) : Table BranchType × Table BranchType × Table BranchType :=
  (stats.lookups, stats.committed, stats.squashes)

/-- What no stage of `predict` changes. -/
def frame (w : Work PC σ η β n) :=
  (w.1.predHist, w.1.trace, counted w.1.stats, w.1.asserted, w.1.dirReleases, w.2.seqNum, w.2.pc,
    w.2.inst)

def rasOf (w : Work PC σ η β n) := (w.1.ras, w.2.rasHistory)

def iPredOf (w : Work PC σ η β n) := (w.1.iPred, w.2.indirectHistory)

section
variable (w : Work PC σ η β n)

theorem onRas_eq (f : ReturnAddrStack PC n → Option (RASHistory PC n) →
      ReturnAddrStack PC n × Option (RASHistory PC n)) :
    ∃ ras rasHistory, onRas w f = ({ w.1 with ras }, { w.2 with rasHistory }) ∧
      Called (Returns f) w.1.ras w.2.rasHistory ras rasHistory := by
  unfold onRas
  cases hras : w.1.ras with
  | none => exact ⟨none, w.2.rasHistory, by simp [← hras], .absent _⟩
  | some ras => exact ⟨_, _, rfl, .present rfl⟩

theorem onIPred_eq (f : SimpleIndirectPredictor PC → Option IndirectHistory →
      SimpleIndirectPredictor PC × Option IndirectHistory) :
    ∃ iPred indirectHistory, onIPred w f = ({ w.1 with iPred }, { w.2 with indirectHistory }) ∧
      Called (Returns f) w.1.iPred w.2.indirectHistory iPred indirectHistory := by
  unfold onIPred
  cases hiPred : w.1.iPred with
  | none => exact ⟨none, w.2.indirectHistory, by simp [← hiPred], .absent _⟩
  | some iPred => exact ⟨_, _, rfl, .present rfl⟩

end

variable [PCState PC]

section
variable (p : Params PC σ η β) (tid : ThreadID) (pc : PC) (w : Work PC σ η β n)

private theorem direction_frame :
    frame (direction p tid pc w) = frame w ∧ rasOf (direction p tid pc w) = rasOf w ∧
      iPredOf (direction p tid pc w) = iPredOf w := by
  unfold direction
  dsimp only
  split
  · exact ⟨rfl, rfl, rfl⟩
  · refine ⟨?_, rfl, rfl⟩
    split <;> rfl

theorem targetFromBTB_frame :
    frame (targetFromBTB p tid pc w) = frame w ∧ rasOf (targetFromBTB p tid pc w) = rasOf w ∧
      iPredOf (targetFromBTB p tid pc w) = iPredOf w := by
  unfold targetFromBTB
  dsimp only
  split
  · exact ⟨rfl, rfl, rfl⟩
  · split <;> exact ⟨rfl, rfl, rfl⟩

omit [PCState PC] in
theorem targetFromRAS_frame [NeZero n] :
    frame (targetFromRAS p tid pc w) = frame w ∧ iPredOf (targetFromRAS p tid pc w) = iPredOf w := by
  unfold targetFromRAS
  dsimp only
  split
  · exact ⟨rfl, rfl⟩
  split
  · exact ⟨rfl, rfl⟩
  split
  · exact ⟨rfl, rfl⟩
  split
  · split <;> exact ⟨rfl, rfl⟩
  · exact ⟨rfl, rfl⟩

private theorem targetFromIndirect_frame :
    frame (targetFromIndirect p tid pc w) = frame w ∧
      rasOf (targetFromIndirect p tid pc w) = rasOf w := by
  unfold targetFromIndirect
  dsimp only
  split
  · exact ⟨rfl, rfl⟩
  split
  · split <;> exact ⟨rfl, rfl⟩
  · exact ⟨rfl, rfl⟩

omit [PCState PC] in
private theorem fallthrough_frame :
    frame (fallthrough tid pc w) = frame w ∧ rasOf (fallthrough tid pc w) = rasOf w ∧
      iPredOf (fallthrough tid pc w) = iPredOf w := by
  unfold fallthrough
  dsimp only
  split <;> exact ⟨rfl, rfl, rfl⟩

theorem speculativeUpdate_eq (h : w.2.target.isSome = true) :
    ∃ cPred bpHistory iPred indirectHistory, speculativeUpdate p tid pc w =
        ({ w.1 with cPred, iPred }, { w.2 with bpHistory, indirectHistory }) ∧
      Called (Returns fun i history => i.update p.iPred tid w.2.seqNum false w.2.predTaken
        (w.2.target.getD pc) w.2.type history 0)
        w.1.iPred w.2.indirectHistory iPred indirectHistory := by
  unfold speculativeUpdate BPU.check
  simp only [h, Bool.and_true]
  obtain ⟨iPred, indirectHistory, heq, hcalled⟩ := onIPred_eq
    (({ w.1 with cPred := (p.cPred.updateHistories w.1.cPred tid w.2.pc w.2.uncond w.2.predTaken
          (targetAddr w.2) w.2.inst w.2.bpHistory).1 },
      { w.2 with bpHistory := (p.cPred.updateHistories w.1.cPred tid w.2.pc w.2.uncond
          w.2.predTaken (targetAddr w.2) w.2.inst w.2.bpHistory).2 }) : Work PC σ η β n)
    fun iPred indirectHistory => iPred.update p.iPred tid w.2.seqNum false w.2.predTaken
      (w.2.target.getD pc) w.2.type indirectHistory 0
  exact ⟨_, _, iPred, indirectHistory, heq, hcalled⟩

def Aimed (hist : PredictorHistory PC η n) : Prop :=
  hist.targetProvider ≠ .noTarget → hist.target.isSome = true

private theorem targetFromBTB_aimed : Aimed (targetFromBTB p tid pc w).2 := by
  unfold targetFromBTB Aimed
  dsimp only
  split
  · simp
  · split <;> simp

omit [PCState PC] in
theorem targetFromRAS_aimed [NeZero n] (h : Aimed w.2) : Aimed (targetFromRAS p tid pc w).2 := by
  unfold targetFromRAS
  dsimp only
  split
  · exact h
  split
  · exact h
  split
  · exact h
  split
  · split
    · exact h
    · exact fun _ => rfl
  · exact h

theorem targetFromIndirect_aimed (h : Aimed w.2) : Aimed (targetFromIndirect p tid pc w).2 := by
  unfold targetFromIndirect
  dsimp only
  split
  · exact h
  split
  · split
    · exact fun _ => rfl
    · exact h
  · exact h

omit [PCState PC] in
theorem fallthrough_target (h : Aimed w.2) : (fallthrough tid pc w).2.target.isSome = true := by
  unfold fallthrough
  dsimp only
  split
  · rfl
  · exact h ‹_›

def rasAccess [NeZero n] (detected : Bool) (inst : StaticInst PC) (ras : ReturnAddrStack PC n) :
    ReturnAddrStack PC n × Option (RASHistory PC n) :=
  if !detected then (ras, none)
  else if inst.isCall then ras.push tid (inst.buildRetPC pc pc) none
  else if inst.isReturn then (ras.pop tid none).2
  else (ras, none)

omit [PCState PC] in
private theorem targetFromRAS_called [NeZero n] (hnone : w.2.rasHistory = none) :
    Called (Returns fun ras _ => rasAccess tid pc (branchDetected p w.2) w.2.inst ras) w.1.ras none
      (targetFromRAS p tid pc w).1.ras (targetFromRAS p tid pc w).2.rasHistory := by
  unfold targetFromRAS
  dsimp only
  cases hras : w.1.ras with
  | none =>
    rw [hras, hnone]
    exact .absent _
  | some ras =>
    unfold rasAccess
    rw [hnone]
    dsimp only
    split
    · rw [hras, hnone]
      exact .present rfl
    split
    · exact .present rfl
    split
    · split <;> exact .present rfl
    · rw [hras, hnone]
      exact .present rfl

/-- The indirect predictor has made the record of a branch: the next address
of its heap, and nothing else changed there. -/
structure Made (iPred iPred' : SimpleIndirectPredictor PC) (history : IndirectHistory) : Prop where
  heap : iPred'.heap = iPred.heap.new
  asserted : iPred'.asserted = iPred.asserted
  addr : history.addr = iPred.heap.next

def Fills (iPred : SimpleIndirectPredictor PC) (_ : Option IndirectHistory)
    (iPred' : SimpleIndirectPredictor PC) (history : Option IndirectHistory) : Prop :=
  ∃ made, history = some made ∧ Made iPred iPred' made

private theorem targetFromIndirect_called (hnone : w.2.indirectHistory = none) :
    Called (fun iPred history iPred' history' =>
        iPred' = iPred ∧ history' = none ∨ Fills iPred history iPred' history')
      w.1.iPred none (targetFromIndirect p tid pc w).1.iPred
      (targetFromIndirect p tid pc w).2.indirectHistory := by
  unfold targetFromIndirect
  dsimp only
  cases hiPred : w.1.iPred with
  | none =>
    rw [hiPred, hnone]
    exact .absent _
  | some iPred =>
    dsimp only
    split
    · obtain ⟨target, iPred', history, heq, hheap, hasserted, haddr⟩ :=
        iPred.lookup_none p.iPred tid (PCState.instAddr pc)
      rw [hnone, heq]
      split <;> exact .present (.inr ⟨history, rfl, hheap, hasserted, haddr⟩)
    · rw [hiPred, hnone]
      exact .present (.inl ⟨rfl, rfl⟩)

theorem update_fills (q : Indirect.Params) (sn : InstSeqNum) (taken : Bool) (target : PC)
    (type : BranchType) {iPred iPred' iPred'' : SimpleIndirectPredictor PC}
    {history history' : Option IndirectHistory}
    (h : iPred' = iPred ∧ history = none ∨ Fills iPred none iPred' history)
    (hupdate : iPred'.update q tid sn false taken target type history 0 = (iPred'', history')) :
    Fills iPred none iPred'' history' := by
  rcases h with ⟨rfl, rfl⟩ | ⟨made, rfl, hmade⟩
  · obtain ⟨i, made, heq, hheap, hasserted, haddr⟩ :=
      iPred'.update_none q tid sn false taken target type 0
    cases heq.symm.trans hupdate
    exact ⟨made, rfl, hheap, hasserted, haddr⟩
  · obtain ⟨i, made', heq, hheap, hasserted, haddr⟩ :=
      iPred'.update_some q tid sn false taken target type made 0
    cases heq.symm.trans hupdate
    exact ⟨made', rfl, hheap.trans hmade.heap, hasserted.trans hmade.asserted,
      haddr.trans hmade.addr⟩

/-- What `predict` does before the record enters the queue. -/
structure Predicted [NeZero n] (unit : BPU PC σ η β n) (inst : StaticInst PC)
    (seqNum : InstSeqNum) (w : Work PC σ η β n) : Prop where
  predHist : w.1.predHist = unit.predHist
  trace : w.1.trace = unit.trace
  counted : counted w.1.stats =
    (bump unit.stats.lookups tid (getBranchType inst), unit.stats.committed, unit.stats.squashes)
  asserted : w.1.asserted = unit.asserted
  dirReleases : w.1.dirReleases = unit.dirReleases
  seqNum_eq : w.2.seqNum = seqNum
  inst_eq : w.2.inst = inst
  pc_eq : w.2.pc = PCState.instAddr pc
  resolved : w.2.actuallyTaken = w.2.predTaken
  target : w.2.target.isSome = true
  ras : ∃ detected, (p.requiresBTBHit = false → detected = true) ∧
    Called (Returns fun ras _ => rasAccess tid pc detected inst ras) unit.ras none
      w.1.ras w.2.rasHistory
  iPred : Called Fills unit.iPred none w.1.iPred w.2.indirectHistory

theorem predictRecord_spec [NeZero n] (unit : BPU PC σ η β n) (inst : StaticInst PC)
    (seqNum : InstSeqNum) :
    Predicted p tid pc unit inst seqNum (predictRecord p tid pc unit inst seqNum) := by
  unfold predictRecord
  -- the record as it leaves each stage
  let w₀ : Work PC σ η β n := startPredict tid pc unit inst seqNum
  let w₁ := direction p tid pc w₀
  let w₂ := targetFromBTB p tid pc w₁
  let w₃ := targetFromRAS p tid pc w₂
  let w₄ := targetFromIndirect p tid pc w₃
  let w₅ := fallthrough tid pc w₄
  obtain ⟨f₁, r₁, i₁⟩ := direction_frame p tid pc w₀
  obtain ⟨f₂, r₂, i₂⟩ := targetFromBTB_frame p tid pc w₁
  obtain ⟨f₃, i₃⟩ := targetFromRAS_frame p tid pc w₂
  obtain ⟨f₄, r₄⟩ := targetFromIndirect_frame p tid pc w₃
  obtain ⟨f₅, r₅, i₅⟩ := fallthrough_frame tid pc w₄
  have haimed : Aimed w₄.2 := targetFromIndirect_aimed p tid pc w₃
    (targetFromRAS_aimed p tid pc w₂ (targetFromBTB_aimed p tid pc w₁))
  have htarget : w₅.2.target.isSome = true := fallthrough_target tid pc w₄ haimed
  have hframe : frame w₅ = frame w₀ := f₅.trans (f₄.trans (f₃.trans (f₂.trans f₁)))
  have hras₂ : rasOf w₂ = rasOf w₀ := r₂.trans r₁
  have hras₅ : rasOf w₅ = rasOf w₃ := r₅.trans r₄
  have hind₃ : iPredOf w₃ = iPredOf w₀ := i₃.trans (i₂.trans i₁)
  simp only [frame, rasOf, iPredOf, Prod.mk.injEq] at hframe hras₂ hras₅ hind₃ i₅
  obtain ⟨cPred, bpHistory, iPred, indirectHistory, heq, hupdated⟩ :=
    speculativeUpdate_eq p tid pc w₅ htarget
  obtain ⟨hpredHist, htrace, hcounted, hasserted, hreleases, hseqNum, hpc, hinst⟩ := hframe
  rw [heq]
  refine
    { predHist := hpredHist
      trace := htrace
      counted := hcounted
      asserted := hasserted
      dirReleases := hreleases
      seqNum_eq := hseqNum
      inst_eq := hinst
      pc_eq := hpc
      resolved := rfl
      target := htarget
      ras := ⟨branchDetected p w₂.2, fun hbtb => by simp [branchDetected, hbtb], ?_⟩
      iPred := ?_ }
  · have hcalled := targetFromRAS_called p tid pc w₂ hras₂.2
    rw [← hras₅.1, ← hras₅.2, hras₂.1] at hcalled
    have hinst := f₂.trans f₁
    simp only [frame, Prod.mk.injEq] at hinst
    rw [hinst.2.2.2.2.2.2.2] at hcalled
    exact hcalled
  · have hcalled := targetFromIndirect_called p tid pc w₃ hind₃.2
    rw [← i₅.1, ← i₅.2, hind₃.1] at hcalled
    refine (hcalled.trans hupdated).map id ?_
    rintro i i' ⟨_, _, hlookup, hreturns⟩
    exact update_fills tid p.iPred _ _ _ _ hlookup hreturns

end

section
variable (p : Params PC σ η β) (tid : ThreadID)
variable (unit : BPU PC σ η β n) (hist : PredictorHistory PC η n)

omit [PCState PC] in
theorem updateBTB_eq (h : hist.target.isSome = true) :
    ∃ btb stats, counted stats = counted unit.stats ∧
      updateBTB p tid (unit, hist) = { unit with btb, stats } := by
  obtain ⟨target, htarget⟩ := Option.isSome_iff_exists.mp h
  unfold updateBTB
  simp only [htarget]
  split
  · exact ⟨unit.btb, unit.stats, rfl, rfl⟩
  · refine ⟨_, _, ?_, rfl⟩
    split <;> rfl

omit [PCState PC] in
theorem commitStats_counted (stats : Stats) :
    counted (commitStats tid stats hist) =
      (stats.lookups, bump stats.committed tid hist.type, stats.squashes) := by
  unfold commitStats
  split
  · split <;> rfl
  · rfl

structure Committed (w : Work PC σ η β n) : Prop where
  predHist : w.1.predHist = unit.predHist
  trace : w.1.trace = unit.trace
  counted : counted w.1.stats =
    (unit.stats.lookups, bump unit.stats.committed tid hist.type, unit.stats.squashes)
  asserted : w.1.asserted = unit.asserted
  dirReleases : w.1.dirReleases =
    Function.update unit.dirReleases tid (unit.dirReleases tid ++ [hist.seqNum])
  bpHistory : p.cPred.Releases → w.2.bpHistory = none
  ras : Called (Returns fun ras history => ras.commit hist.mispredict hist.type history)
    unit.ras hist.rasHistory w.1.ras w.2.rasHistory
  iPred : Called (Returns fun iPred history => iPred.commit p.iPred tid history)
    unit.iPred hist.indirectHistory w.1.iPred w.2.indirectHistory

theorem commitDirection_eq (h : hist.target.isSome = true) :
    ∃ cPred bpHistory, (p.cPred.Releases → bpHistory = none) ∧
      commitDirection p tid (unit, hist) =
        ({ unit with
            cPred
            dirReleases :=
              Function.update unit.dirReleases tid (unit.dirReleases tid ++ [hist.seqNum]) },
          { hist with bpHistory }) := by
  unfold commitDirection BPU.check BPU.recordRelease
  simp only [h, Bool.and_true]
  exact ⟨_, _, fun hreleases => hreleases.commit .., rfl⟩

theorem commitBranch_spec (h : hist.target.isSome = true) :
    Committed p tid unit hist (commitBranch p tid (unit, hist)) := by
  unfold commitBranch
  dsimp only
  obtain ⟨cPred, bpHistory, hrelease, h₁⟩ :=
    commitDirection_eq p tid { unit with stats := commitStats tid unit.stats hist } hist h
  rw [h₁]
  let w₁ : Work PC σ η β n :=
    ({ unit with
        cPred
        stats := commitStats tid unit.stats hist
        dirReleases :=
          Function.update unit.dirReleases tid (unit.dirReleases tid ++ [hist.seqNum]) },
      { hist with bpHistory })
  obtain ⟨iPred, indirectHistory, h₂, hi⟩ :=
    onIPred_eq w₁ fun iPred indirectHistory => iPred.commit p.iPred tid indirectHistory
  obtain ⟨ras, rasHistory, h₃, hr⟩ :=
    onRas_eq ({ w₁.1 with iPred }, { w₁.2 with indirectHistory }) fun ras rasHistory =>
      ras.commit hist.mispredict hist.type rasHistory
  have hcounted := commitStats_counted tid hist unit.stats
  rw [h₂, h₃]
  split
  · obtain ⟨btb, stats, hstats, h₄⟩ := updateBTB_eq p tid
      { w₁.1 with iPred, ras } { w₁.2 with indirectHistory, rasHistory } h
    rw [h₄]
    exact ⟨rfl, rfl, hstats.trans hcounted, rfl, rfl, hrelease, hr, hi⟩
  · exact ⟨rfl, rfl, hcounted, rfl, rfl, hrelease, hr, hi⟩

/-- What `squashHistory` does to the unit. The record ends released when its
three sub-histories are. -/
structure Squashed (unit' : BPU PC σ η β n) : Prop where
  predHist : unit'.predHist = unit.predHist
  trace : unit'.trace = unit.trace
  counted : counted unit'.stats =
    (unit.stats.lookups, unit.stats.committed, bump unit.stats.squashes tid hist.type)
  dirReleases : unit'.dirReleases =
    Function.update unit.dirReleases tid (unit.dirReleases tid ++ [hist.seqNum])
  ras : ∃ history, Called (Returns fun ras history => ras.squash tid history)
    unit.ras hist.rasHistory unit'.ras history
  iPred : ∃ history, Called (Returns fun iPred history => iPred.squash p.iPred tid history)
    unit.iPred hist.indirectHistory unit'.iPred history
  asserted : p.cPred.Releases → (unit.ras = none → hist.rasHistory = none) →
    (unit.iPred = none → hist.indirectHistory = none) → unit'.asserted = unit.asserted

omit [PCState PC] in
theorem squash_ras_none (ras : ReturnAddrStack PC n) (rasHistory : Option (RASHistory PC n)) :
    (ras.squash tid rasHistory).2 = none := by
  cases rasHistory <;> rfl

omit [PCState PC] in
theorem squash_iPred_none (q : Indirect.Params) (iPred : SimpleIndirectPredictor PC)
    (indirectHistory : Option IndirectHistory) :
    (iPred.squash q tid indirectHistory).2 = none := by
  cases indirectHistory <;> rfl

omit [PCState PC] in
theorem squashHistory_spec :
    Squashed p tid unit hist (squashHistory p tid (unit, hist)) := by
  let w₁ : Work PC σ η β n :=
    ({ unit with
        stats := { unit.stats with squashes := bump unit.stats.squashes tid hist.type }
        asserted := unit.asserted && (hist.rasHistory.isNone || unit.ras.isSome) }, hist)
  obtain ⟨ras, rasHistory, h₁, hr⟩ :=
    onRas_eq w₁ fun ras rasHistory => ras.squash tid rasHistory
  obtain ⟨iPred, indirectHistory, h₂, hi⟩ :=
    onIPred_eq ({ w₁.1 with ras }, { w₁.2 with rasHistory }) fun iPred indirectHistory =>
      iPred.squash p.iPred tid indirectHistory
  change Squashed p tid unit hist (deleteHistory (squashDirection p tid (onIPred (onRas w₁ _) _)))
  rw [h₁, h₂]
  refine ⟨rfl, rfl, rfl, rfl, ⟨_, hr⟩, ⟨_, hi⟩, ?_⟩
  intro hreleases hras hiPred
  have hbp : (p.cPred.squash unit.cPred tid hist.bpHistory).2 = none := hreleases.squash ..
  have hrasHistory : rasHistory = none := hr.kept (P := (· = none)) hras fun r _ h =>
    (congrArg Prod.snd h).symm.trans (squash_ras_none tid r _)
  have hindirect : indirectHistory = none := hi.kept (P := (· = none)) hiPred fun i _ h =>
    (congrArg Prod.snd h).symm.trans (squash_iPred_none tid p.iPred i _)
  have hassert : (hist.rasHistory.isNone || unit.ras.isSome) = true := by
    cases hcase : unit.ras with
    | none => simp [hras hcase]
    | some r => simp
  simp [deleteHistory, squashDirection, BPU.check, BPU.recordRelease,
    PredictorHistory.released, w₁, hbp, hrasHistory, hindirect, hassert]

end

section
variable (p : Params PC σ η β) (tid : ThreadID) (corr_target : PC) (actually_taken : Bool)
variable (unit : BPU PC σ η β n) (hist : PredictorHistory PC η n)

def rasCorrection [NeZero n] (ras : ReturnAddrStack PC n) :
    ReturnAddrStack PC n × Option (RASHistory PC n) :=
  if actually_taken && hist.rasHistory.isNone then
    correctTaken tid corr_target hist ras hist.rasHistory
  else if !actually_taken && hist.rasHistory.isSome then ras.squash tid hist.rasHistory
  else (ras, hist.rasHistory)

theorem correctStats_counted (from_commit : Bool) (stats : Stats) :
    counted (correctStats tid corr_target from_commit stats hist) = counted stats := by
  unfold correctStats
  split <;> split <;> rfl

theorem correctRAS_eq [NeZero n] :
    ∃ ras rasHistory sizeKnown,
      correctRAS tid corr_target actually_taken (unit, hist) =
        ({ unit with ras, sizeKnown }, { hist with rasHistory }) ∧
      Called (Returns fun ras _ => rasCorrection tid corr_target actually_taken hist ras)
        unit.ras hist.rasHistory ras rasHistory := by
  unfold correctRAS rasCorrection
  by_cases htaken : (actually_taken && hist.rasHistory.isNone) = true
  · simp only [htaken, if_true]
    obtain ⟨ras, rasHistory, heq, hcalled⟩ := onRas_eq
      (({ unit with sizeKnown :=
          unit.sizeKnown && (!(unit.ras.isSome && hist.call) || hist.inst.size != 0) }, hist) :
        Work PC σ η β n) (correctTaken tid corr_target hist)
    exact ⟨ras, rasHistory, _, heq, hcalled.map id fun _ _ h => h⟩
  · simp only [htaken, Bool.false_eq_true, if_false]
    split
    · obtain ⟨ras, rasHistory, heq, hcalled⟩ := onRas_eq
        ((unit, hist) : Work PC σ η β n) fun ras rasHistory => ras.squash tid rasHistory
      exact ⟨ras, rasHistory, unit.sizeKnown, heq, hcalled.map id fun _ _ h => h⟩
    · refine ⟨unit.ras, hist.rasHistory, unit.sizeKnown, rfl, ?_⟩
      cases unit.ras with
      | none => exact .absent _
      | some ras => exact .present rfl

structure Corrected [NeZero n] (squashed_sn : InstSeqNum) (rand : Nat) (w : Work PC σ η β n) :
    Prop where
  predHist : w.1.predHist = unit.predHist
  trace : w.1.trace = unit.trace
  counted : counted w.1.stats = counted unit.stats
  asserted : w.1.asserted = unit.asserted
  dirReleases : w.1.dirReleases = unit.dirReleases
  seqNum : w.2.seqNum = hist.seqNum
  pc : w.2.pc = hist.pc
  inst : w.2.inst = hist.inst
  actuallyTaken : w.2.actuallyTaken = actually_taken
  target : w.2.target = some corr_target
  ras : Called (Returns fun ras _ => rasCorrection tid corr_target actually_taken hist ras)
    unit.ras hist.rasHistory w.1.ras w.2.rasHistory
  iPred : Called (Returns fun iPred history => iPred.update p.iPred tid squashed_sn true
      actually_taken corr_target hist.type history rand)
    unit.iPred hist.indirectHistory w.1.iPred w.2.indirectHistory

theorem correctFront_spec [NeZero n] (squashed_sn : InstSeqNum) (from_commit : Bool)
    (rand : Nat) :
    Corrected p tid corr_target actually_taken unit hist squashed_sn rand
      (correctFront p tid corr_target actually_taken squashed_sn from_commit rand unit hist) := by
  let update := p.cPred.update unit.cPred tid hist.pc actually_taken hist.bpHistory true hist.inst
    (PCState.instAddr corr_target)
  let w₁ : Work PC σ η β n :=
    ({ unit with
        cPred := update.1
        stats := correctStats tid corr_target from_commit unit.stats hist },
      { hist with
        mispredict := true, actuallyTaken := actually_taken, target := some corr_target
        bpHistory := update.2 })
  let correct := fun (iPred : SimpleIndirectPredictor PC) indirectHistory =>
    iPred.update p.iPred tid squashed_sn true actually_taken corr_target hist.type
      indirectHistory rand
  obtain ⟨iPred, indirectHistory, h₂, hi⟩ := onIPred_eq w₁ correct
  obtain ⟨ras, rasHistory, sizeKnown, h₃, hr⟩ :=
    correctRAS_eq tid corr_target actually_taken { w₁.1 with iPred } { w₁.2 with indirectHistory }
  have hcounted := correctStats_counted tid corr_target hist from_commit unit.stats
  change Corrected p tid corr_target actually_taken unit hist squashed_sn rand
    (if actually_taken && p.updateBTBAtSquash then
      (updateBTB p tid (correctRAS tid corr_target actually_taken (onIPred w₁ correct)),
        (correctRAS tid corr_target actually_taken (onIPred w₁ correct)).2)
    else correctRAS tid corr_target actually_taken (onIPred w₁ correct))
  rw [h₂, h₃]
  split
  · obtain ⟨btb, stats, hstats, h₄⟩ := updateBTB_eq p tid
      { w₁.1 with iPred, ras, sizeKnown } { w₁.2 with indirectHistory, rasHistory } rfl
    rw [h₄]
    exact ⟨rfl, rfl, hstats.trans hcounted, rfl, rfl, rfl, rfl, rfl, rfl, rfl, hr, hi⟩
  · exact ⟨rfl, rfl, hcounted, rfl, rfl, rfl, rfl, rfl, rfl, rfl, hr, hi⟩

end

end Gem5Core.Pred.Stages
