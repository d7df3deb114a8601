import Gem5Core.Pred.Stages

/-! Coherence of the direction and the PC that `predict` returns. Four
components answer under different guards; the record's target is traced back to
the answer of the component that is recorded as its provider. -/
namespace Gem5Core.Pred.Coherence
open Branch BPredUnit Stages

variable {PC σ η β : Type} {n : Nat} [PCState PC]
variable (p : Params PC σ η β) (tid : ThreadID) (pc : PC) (unit : BPU PC σ η β n)
variable (inst : StaticInst PC)

/-! What the components answer for this branch before anything is changed. -/

def dirAnswer : Bool :=
  !inst.isCondCtrl || (p.cPred.lookup unit.cPred tid (PCState.instAddr pc) none).1

def btbAnswer : Option PC :=
  (p.btb.lookup unit.btb tid (PCState.instAddr pc) (getBranchType inst)).1

def detected : Bool := (btbAnswer p tid pc unit inst).isSome || !p.requiresBTBHit

def rasAnswer : Option PC := unit.ras.bind fun ras => (ras.addrStacks tid).top

def indirectAnswer : Option PC :=
  unit.iPred.bind fun iPred => (iPred.lookup p.iPred tid (PCState.instAddr pc) none).1

def supplied : TargetProvider → Option PC
  | .noTarget => none
  | .btb => btbAnswer p tid pc unit inst
  | .ras => rasAnswer tid unit
  | .indirect => indirectAnswer p tid pc unit

def returns : Bool :=
  detected p tid pc unit inst && !inst.isCall && inst.isReturn && (rasAnswer tid unit).isSome

/-- Its direction is the direction predictor's, its target is its provider's, and without a taken
direction only the stack can have provided one. -/
structure Follows (hist : PredictorHistory PC η n) : Prop where
  inst_eq : hist.inst = inst
  taken : hist.predTaken = dirAnswer p tid pc unit inst
  btbHit : hist.btbHit = (btbAnswer p tid pc unit inst).isSome
  target : hist.targetProvider ≠ .noTarget →
    hist.target.isSome = true ∧ hist.target = supplied p tid pc unit inst hist.targetProvider
  notTaken : dirAnswer p tid pc unit inst = false →
    hist.targetProvider = .noTarget ∨ hist.targetProvider = .ras

variable (seqNum : InstSeqNum)

theorem direction_start : let w := direction p tid pc (startPredict tid pc unit inst seqNum)
    w.2.predTaken = dirAnswer p tid pc unit inst ∧ w.2.inst = inst ∧ w.2.btbHit = false ∧
      w.1.btb = unit.btb ∧ w.1.ras = unit.ras ∧ w.1.iPred = unit.iPred ∧
      w.2.indirectHistory = none := by
  cases hcond : inst.isCondCtrl <;>
    simp [direction, startPredict, dirAnswer, PredictorHistory.uncond, hcond]

theorem follows_btb :
    let w := targetFromBTB p tid pc (direction p tid pc (startPredict tid pc unit inst seqNum))
    Follows p tid pc unit inst w.2 ∧ w.2.targetProvider ≠ .ras := by
  obtain ⟨htaken, hinst, hhit, hbtb, -⟩ := direction_start p tid pc unit inst seqNum
  generalize direction p tid pc (startPredict tid pc unit inst seqNum) = w at htaken hinst hhit hbtb
  have hanswer : (p.btb.lookup w.1.btb tid (PCState.instAddr pc) w.2.type).1 =
      btbAnswer p tid pc unit inst := by
    rw [hbtb, PredictorHistory.type, hinst]
    rfl
  unfold targetFromBTB
  dsimp only
  rw [hanswer]
  cases hcase : btbAnswer p tid pc unit inst with
  | none =>
    exact ⟨⟨hinst, htaken, by simp [hhit, hcase], fun h => absurd rfl h, fun _ => .inl rfl⟩,
      by simp⟩
  | some target =>
    dsimp only
    split
    · refine ⟨⟨hinst, htaken, by simp [hcase], fun _ => ⟨rfl, hcase.symm⟩, ?_⟩, by simp⟩
      intro hnot
      rename_i hpred
      rw [htaken, hnot] at hpred
      cases hpred
    · exact ⟨⟨hinst, htaken, by simp [hcase], fun h => absurd rfl h, fun _ => .inl rfl⟩, by simp⟩

theorem Follows.detected {hist : PredictorHistory PC η n}
    (h : Follows p tid pc unit inst hist) :
    branchDetected p hist = detected p tid pc unit inst := by
  rw [branchDetected, h.btbHit]
  rfl

variable (w : Work PC σ η β n)

theorem follows_ras [NeZero n] (hras : w.1.ras = unit.ras) (h : Follows p tid pc unit inst w.2)
    (hprovider : w.2.targetProvider ≠ .ras) : let w' := targetFromRAS p tid pc w
    Follows p tid pc unit inst w'.2 ∧
      (w'.2.targetProvider = .ras ↔ returns p tid pc unit inst = true) := by
  unfold targetFromRAS returns
  rw [← h.detected]
  cases hcase : unit.ras with
  | none => simp [hras, hcase, h, hprovider, rasAnswer]
  | some ras =>
    simp only [hras, hcase, h.inst_eq]
    cases hdetected : branchDetected p w.2 with
    | false => simp [h, hprovider]
    | true =>
      cases hcall : inst.isCall with
      | true =>
        exact ⟨⟨rfl, h.taken, h.btbHit, h.target, h.notTaken⟩, by simp [hprovider]⟩
      | false =>
        cases hret : inst.isReturn with
        | false => simp [h, hprovider]
        | true =>
          have htop : (ras.pop tid w.2.rasHistory).1 = rasAnswer tid unit := by
            cases w.2.rasHistory <;> simp [Ras.ReturnAddrStack.pop, rasAnswer, hcase,
              Ras.ReturnAddrStack.makeRASHistory]
          simp only [Bool.not_true, Bool.false_eq_true, if_false, if_true, htop]
          cases hanswer : rasAnswer tid unit with
          | none => exact ⟨⟨rfl, h.taken, h.btbHit, h.target, h.notTaken⟩, by simp [hprovider]⟩
          | some addr =>
            exact ⟨⟨rfl, h.taken, h.btbHit, fun _ => ⟨rfl, hanswer.symm⟩, fun _ => .inr rfl⟩,
              by simp⟩

theorem follows_indirect (hiPred : w.1.iPred = unit.iPred) (hnone : w.2.indirectHistory = none)
    (h : Follows p tid pc unit inst w.2)
    (hprovider : w.2.targetProvider = .ras ↔ returns p tid pc unit inst = true) :
    let w' := targetFromIndirect p tid pc w
    Follows p tid pc unit inst w'.2 ∧
      (w'.2.targetProvider = .ras ↔ returns p tid pc unit inst = true) := by
  unfold targetFromIndirect
  dsimp only
  split
  · exact ⟨h, hprovider⟩
  · rename_i iPred hcase
    split
    · rename_i hasked
      have hanswer : (iPred.lookup p.iPred tid (PCState.instAddr pc) w.2.indirectHistory).1 =
          indirectAnswer p tid pc unit := by
        rw [hnone, indirectAnswer, ← hiPred, hcase]
        rfl
      simp only [Bool.and_eq_true, h.taken, h.inst_eq, Bool.not_eq_true'] at hasked
      have hnoRas : returns p tid pc unit inst = false := by simp [returns, hasked.2]
      rw [hanswer]
      cases hans : indirectAnswer p tid pc unit with
      | none => exact ⟨{ h with }, hprovider⟩
      | some target =>
        refine ⟨⟨h.inst_eq, h.taken, h.btbHit, fun _ => ⟨rfl, hans.symm⟩, ?_⟩, by simp [hnoRas]⟩
        intro hnot
        rw [hasked.1.1.1] at hnot
        cases hnot
    · exact ⟨h, hprovider⟩

/-- Each component is asked in the state the unit was in. -/
theorem asked_unchanged [NeZero n] :
    let w := targetFromBTB p tid pc (direction p tid pc (startPredict tid pc unit inst seqNum))
    w.1.ras = unit.ras ∧ (targetFromRAS p tid pc w).1.iPred = unit.iPred ∧
      (targetFromRAS p tid pc w).2.indirectHistory = none := by
  intro w
  obtain ⟨-, -, -, -, hras, hiPred, hnone⟩ := direction_start p tid pc unit inst seqNum
  obtain ⟨-, rBTB, iBTB⟩ :=
    targetFromBTB_frame p tid pc (direction p tid pc (startPredict tid pc unit inst seqNum))
  have hsame := (targetFromRAS_frame p tid pc w).2.trans iBTB
  simp only [rasOf, iPredOf, Prod.mk.injEq] at rBTB hsame
  exact ⟨rBTB.1.trans hras, hsame.1.trans hiPred, hsame.2.trans hnone⟩

def aimed [NeZero n] (seqNum : InstSeqNum) : Work PC σ η β n :=
  targetFromIndirect p tid pc <| targetFromRAS p tid pc <| targetFromBTB p tid pc <|
    direction p tid pc <| startPredict tid pc unit inst seqNum

theorem aimed_follows [NeZero n] : Follows p tid pc unit inst (aimed p tid pc unit inst seqNum).2 ∧
      ((aimed p tid pc unit inst seqNum).2.targetProvider = .ras ↔
        returns p tid pc unit inst = true) := by
  obtain ⟨hras, hiPred, hnone⟩ := asked_unchanged p tid pc unit inst seqNum
  obtain ⟨hbtb, hprovider⟩ := follows_btb p tid pc unit inst seqNum
  obtain ⟨hfollows, hreturns⟩ := follows_ras p tid pc unit inst _ hras hbtb hprovider
  exact follows_indirect p tid pc unit inst _ hiPred hnone hfollows hreturns

theorem predict_outcome [NeZero n] : let hist := (aimed p tid pc unit inst seqNum).2
    let out := predict p tid pc unit inst seqNum
    (predictRecord p tid pc unit inst seqNum).2.targetProvider = hist.targetProvider ∧
      out.1 = (if hist.targetProvider = .noTarget then false else hist.predTaken) ∧
      out.2.1 = (if hist.targetProvider = .noTarget then inst.advancePC pc
        else hist.target.getD pc) := by
  have hfollows := (aimed_follows p tid pc unit inst seqNum).1
  have htarget : (fallthrough tid pc (aimed p tid pc unit inst seqNum)).2.target.isSome = true :=
    fallthrough_target tid pc _ fun h => (hfollows.target h).1
  obtain ⟨cPred, bpHistory, iPred, indirectHistory, heq, -⟩ :=
    speculativeUpdate_eq p tid pc (fallthrough tid pc (aimed p tid pc unit inst seqNum)) htarget
  have hrecord : predictRecord p tid pc unit inst seqNum = _ := heq
  dsimp only [predict]
  rw [hrecord]
  unfold fallthrough
  dsimp only
  rw [hfollows.inst_eq]
  split <;> exact ⟨rfl, rfl, rfl⟩

def redirects : Bool :=
  detected p tid pc unit inst && inst.isIndirectCtrl && !inst.isReturn &&
    (indirectAnswer p tid pc unit).isSome

/-- The branch will be predicted taken: that is its direction, and some
component has a target for it. -/
def foretold : Bool :=
  dirAnswer p tid pc unit inst &&
    ((btbAnswer p tid pc unit inst).isSome || returns p tid pc unit inst ||
      redirects p tid pc unit inst)

private theorem btb_provided : (targetFromBTB p tid pc
        (direction p tid pc (startPredict tid pc unit inst seqNum))).2.targetProvider ≠ .noTarget ↔
      dirAnswer p tid pc unit inst = true ∧ (btbAnswer p tid pc unit inst).isSome = true := by
  obtain ⟨htaken, hinst, -, hbtb, -⟩ := direction_start p tid pc unit inst seqNum
  generalize direction p tid pc (startPredict tid pc unit inst seqNum) = w at htaken hinst hbtb
  have hanswer : (p.btb.lookup w.1.btb tid (PCState.instAddr pc) w.2.type).1 =
      btbAnswer p tid pc unit inst := by
    rw [hbtb, PredictorHistory.type, hinst]
    rfl
  unfold targetFromBTB
  dsimp only
  rw [hanswer]
  cases hcase : btbAnswer p tid pc unit inst with
  | none => simp
  | some target => cases hdir : dirAnswer p tid pc unit inst <;> simp [htaken, hdir]

omit [PCState PC] in
private theorem targetFromRAS_provider [NeZero n] :
    (targetFromRAS p tid pc w).2.targetProvider = w.2.targetProvider ∨
      (targetFromRAS p tid pc w).2.targetProvider = .ras := by
  unfold targetFromRAS
  dsimp only
  split
  · exact .inl rfl
  split
  · exact .inl rfl
  split
  · exact .inl rfl
  split
  · split
    · exact .inl rfl
    · exact .inr rfl
  · exact .inl rfl

theorem ras_provided [NeZero n] (hras : w.1.ras = unit.ras) (h : Follows p tid pc unit inst w.2)
    (hprovider : w.2.targetProvider ≠ .ras) :
    (targetFromRAS p tid pc w).2.targetProvider ≠ .noTarget ↔
      w.2.targetProvider ≠ .noTarget ∨ returns p tid pc unit inst = true := by
  have hreturns := (follows_ras p tid pc unit inst w hras h hprovider).2
  rcases targetFromRAS_provider p tid pc w with hsame | hstack
  · rw [← hreturns, hsame]
    simp [hprovider]
  · rw [← hreturns, hstack]
    simp

theorem indirect_provided (hiPred : w.1.iPred = unit.iPred) (hnone : w.2.indirectHistory = none)
    (h : Follows p tid pc unit inst w.2) :
    (targetFromIndirect p tid pc w).2.targetProvider ≠ .noTarget ↔
      w.2.targetProvider ≠ .noTarget ∨
        dirAnswer p tid pc unit inst = true ∧ redirects p tid pc unit inst = true := by
  unfold targetFromIndirect redirects
  simp only [hiPred, hnone, h.detected, h.taken, h.inst_eq]
  cases hcase : unit.iPred with
  | none => simp [indirectAnswer, hcase]
  | some iPred =>
    have hanswer : indirectAnswer p tid pc unit =
        (iPred.lookup p.iPred tid (PCState.instAddr pc) none).1 := by
      simp [indirectAnswer, hcase]
    dsimp only
    by_cases hasked : (dirAnswer p tid pc unit inst && detected p tid pc unit inst &&
        inst.isIndirectCtrl && !inst.isReturn) = true
    · rw [← hanswer]
      simp only [Bool.and_eq_true] at hasked
      cases indirectAnswer p tid pc unit <;> simp [hasked]
    · rw [if_neg hasked]
      simp only [Bool.and_eq_true] at hasked ⊢
      tauto

theorem predict_foretold [NeZero n] :
    (predict p tid pc unit inst seqNum).1 = foretold p tid pc unit inst := by
  obtain ⟨-, htaken, -⟩ := predict_outcome p tid pc unit inst seqNum
  have hfollows := (aimed_follows p tid pc unit inst seqNum).1
  obtain ⟨hras, hiPred, hnone⟩ := asked_unchanged p tid pc unit inst seqNum
  obtain ⟨hbtb, hprovider⟩ := follows_btb p tid pc unit inst seqNum
  have hprovided := indirect_provided p tid pc unit inst _ hiPred hnone
    (follows_ras p tid pc unit inst _ hras hbtb hprovider).1
  rw [ras_provided p tid pc unit inst _ hras hbtb hprovider,
    btb_provided p tid pc unit inst seqNum] at hprovided
  rw [htaken, hfollows.taken, foretold]
  by_cases hno : (aimed p tid pc unit inst seqNum).2.targetProvider = .noTarget
  · have hnot := mt hprovided.mpr (not_not.mpr hno)
    rw [if_pos hno]
    cases hdir : dirAnswer p tid pc unit inst with
    | false => rfl
    | true =>
      simp only [hdir, true_and, not_or, Bool.not_eq_true] at hnot
      simp [hnot]
  · have hsome := hprovided.mp hno
    rw [if_neg hno]
    cases hdir : dirAnswer p tid pc unit inst with
    | false => rfl
    | true =>
      rcases hsome with (h | h) | h <;> simp [h]

/-- A prediction of not taken leaves the fall-through PC, a prediction of taken
the target of the recorded provider. -/
def Coherent [NeZero n] (seqNum : InstSeqNum) : Prop :=
  let provider := (predictRecord p tid pc unit inst seqNum).2.targetProvider
  let out := predict p tid pc unit inst seqNum
  (out.1 = false → out.2.1 = inst.advancePC pc) ∧
    (out.1 = true → provider ≠ .noTarget ∧
      supplied p tid pc unit inst provider = some out.2.1)

/-- The direction of a return is predicted not taken, yet the stack is popped and its address
becomes the next PC. -/
def Misdirected : Prop :=
  dirAnswer p tid pc unit inst = false ∧ returns p tid pc unit inst = true ∧
    rasAnswer tid unit ≠ some (inst.advancePC pc)

theorem coherent_iff [NeZero n] (seqNum : InstSeqNum) :
    Coherent p tid pc unit inst seqNum ↔ ¬ Misdirected p tid pc unit inst := by
  obtain ⟨hfollows, hreturns⟩ := aimed_follows p tid pc unit inst seqNum
  obtain ⟨hprovider, htaken, hpc⟩ := predict_outcome p tid pc unit inst seqNum
  unfold Coherent Misdirected
  dsimp only
  rw [hprovider, htaken, hpc]
  generalize (aimed p tid pc unit inst seqNum).2 = hist at hfollows hreturns
  by_cases hno : hist.targetProvider = .noTarget
  · have hreturns : returns p tid pc unit inst = false := by
      rw [hno] at hreturns
      simpa using hreturns
    simp [hno, hreturns]
  · obtain ⟨hsome, htarget⟩ := hfollows.target hno
    obtain ⟨target, heq⟩ := Option.isSome_iff_exists.mp hsome
    rw [heq] at htarget
    simp only [if_neg hno, hfollows.taken, heq, Option.getD_some, ← htarget]
    cases hdir : dirAnswer p tid pc unit inst with
    | true => simp [hno]
    | false =>
      have hras : hist.targetProvider = .ras := (hfollows.notTaken hdir).resolve_left hno
      rw [hras] at htarget
      have hanswer : rasAnswer tid unit = some target := htarget.symm
      simp [hreturns.mp hras, hanswer]

/-- A unit whose direction predictor always answers `taken`, after a call has
left its return address on the stack. -/
def calledOnce (taken : Bool) : BPU Addr Unit Unit Unit 16 :=
  run (Params.static Addr taken) (start (Params.static Addr taken) () () true true)
    [.predict 0 (fourByteInst true false false) 1 0x100]

theorem coherent_iff_takenReturn :
    ¬ Misdirected (Params.static Addr true) 0 0x200 (calledOnce true)
        (fourByteInst false true true) ∧
      Coherent (Params.static Addr true) 0 0x200 (calledOnce true)
        (fourByteInst false true true) 2 := by
  have h : ¬ Misdirected (Params.static Addr true) 0 0x200 (calledOnce true)
      (fourByteInst false true true) := fun h => absurd h.1 (by decide)
  exact ⟨h, (coherent_iff _ 0 0x200 (calledOnce true) (fourByteInst false true true) 2).mpr h⟩

/-- A conditional return predicted not taken leaves the address of the stack. -/
theorem notTakenReturn_incoherent :
    let out := predict (Params.static Addr false) 0 0x200 (calledOnce false)
      (fourByteInst false true true) 2
    out.1 = false ∧ out.2.1 = 0x104 ∧
      ¬ Coherent (Params.static Addr false) 0 0x200 (calledOnce false)
        (fourByteInst false true true) 2 := by
  have hout : (predict (Params.static Addr false) 0 0x200 (calledOnce false)
      (fourByteInst false true true) 2).1 = false ∧
      (predict (Params.static Addr false) 0 0x200 (calledOnce false)
        (fourByteInst false true true) 2).2.1 = 0x104 := by
    decide +kernel
  refine ⟨hout.1, hout.2, ?_⟩
  intro h
  have hpc := h.1 hout.1
  exact absurd hpc (by decide)

end Gem5Core.Pred.Coherence
