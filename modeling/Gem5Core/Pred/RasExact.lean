import Gem5Core.Lib.Protocol
import Gem5Core.Pred.CallStack
import Gem5Core.Pred.Coherence
import Gem5Core.Pred.Lifecycle

/-! The return address stack agrees with the architectural call stack, down to the call depth, as
long as no call or return is rightly predicted not taken: `predict` writes the stack whatever the
direction, and nothing takes that back. -/
namespace Gem5Core.Pred.RasExact
open Branch Stages Ras RasRing CallStack Function List PCState
open BPredUnit hiding run
open Lib.Protocol (Legal run run_inv)

variable {PC σ η β : Type} {n : Nat}

section
variable [NeZero n] [PCState PC] (p : Params PC σ η β) (tid : ThreadID)

inductive Act (PC : Type) where
  | predict (inst : StaticInst PC) (seqNum : InstSeqNum) (pc : PC)
  | update (done_sn : InstSeqNum)
  | squash (squashed_sn : InstSeqNum)
  | squashCorrect (squashed_sn : InstSeqNum) (corr_target : PC) (actually_taken from_commit : Bool)
      (rand : Nat)

def Act.call : Act PC → Call PC
  | .predict inst seqNum pc => .predict tid inst seqNum pc
  | .update done_sn => .update tid done_sn
  | .squash squashed_sn => .squash tid squashed_sn
  | .squashCorrect squashed_sn corr_target actually_taken from_commit rand =>
      .squashCorrect tid squashed_sn corr_target actually_taken from_commit rand

/-- `committed` keeps the branches that `update` took from the queue, youngest
first. -/
structure State (PC σ η β : Type) (n : Nat) where
  unit : BPU PC σ η β n
  committed : List (PredictorHistory PC η n) := []

def State.survivors (st : State PC σ η β n) : List (PredictorHistory PC η n) :=
  st.unit.predHist tid ++ st.committed

def leaving (done_sn : InstSeqNum) (unit : BPU PC σ η β n) : List (PredictorHistory PC η n) :=
  (unit.predHist tid).drop ((update p tid done_sn unit).predHist tid).length

def perform (st : State PC σ η β n) (act : Act PC) : State PC σ η β n where
  unit := step p st.unit (act.call tid)
  committed :=
    match act with
    | .update done_sn => leaving p tid done_sn st.unit ++ st.committed
    | _ => st.committed

variable (outcome : InstSeqNum → Bool)

/-- A call gives the address after itself as its return address, and a branch
commits with its actual outcome. -/
def proper (st : State PC σ η β n) : Act PC → Bool
  | .predict inst _ pc =>
      !inst.isCall || (inst.size != 0 && instAddr (inst.buildRetPC pc pc) ==
        instAddr pc + BitVec.ofNat 64 inst.size)
  | .update done_sn => (leaving p tid done_sn st.unit).all fun hist =>
      hist.actuallyTaken == outcome hist.seqNum
  | _ => true

def assumed (st : State PC σ η β n) (act : Act PC) : Bool :=
  proper p tid outcome st act && bounded outcome ((perform p tid st act).survivors tid)

/-- No instruction is both a call and a return, and a call or return that is not taken is foretold
taken. -/
def undistorted (st : State PC σ η β n) : Act PC → Bool
  | .predict inst seqNum pc =>
      !(inst.isCall && inst.isReturn) &&
        (!(inst.isCall || inst.isReturn) || Coherence.foretold p tid pc st.unit inst ||
          outcome seqNum)
  | _ => true

def carried (st : State PC σ η β n) : Bool :=
  (st.unit.predHist tid).all fun hist => hist.actuallyTaken == outcome hist.seqNum

def Exact (st : State PC σ η β n) : Prop :=
  st.unit.ras.map (fun ras => live (instAddrs (ras.addrStacks tid))
      (architectural outcome (st.survivors tid)).length) =
    some ((architectural outcome (st.survivors tid)).map some)

end

section
variable [NeZero n] [PCState PC] (p : Params PC σ η β) (tid : ThreadID)
variable {outcome : InstSeqNum → Bool}

def Kept (tid : ThreadID) (outcome : InstSeqNum → Bool)
    (committed : List (PredictorHistory PC η n)) (unit : BPU PC σ η β n) : Prop :=
  ∃ ras, unit.ras = some ras ∧
    Tracked outcome committed (unit.predHist tid) (ras.addrStacks tid)

variable {committed : List (PredictorHistory PC η n)} {unit : BPU PC σ η β n}

def access (inst : StaticInst PC) (return_addr : PC) (ras : ReturnAddrStack PC n) :
    ReturnAddrStack PC n × Option (RASHistory PC n) :=
  if inst.isCall then ras.push tid return_addr none
  else if inst.isReturn then (ras.pop tid none).2
  else (ras, none)

omit [PCState PC] in
theorem rasAccess_eq (inst : StaticInst PC) (pc : PC) (ras : ReturnAddrStack PC n) :
    rasAccess tid pc true inst ras = access tid inst (inst.buildRetPC pc pc) ras := by
  simp [rasAccess, access]

omit [PCState PC] in
theorem access_made (inst : StaticInst PC) (return_addr : PC) (ras : ReturnAddrStack PC n) :
    (access tid inst return_addr ras).2.isSome = (inst.isCall || inst.isReturn) ∧
      ∀ history, (access tid inst return_addr ras).2 = some history →
        (inst.isCall = true ∧ history.pushed = true ∧ history.poped = false) ∨
          (inst.isReturn = true ∧ history.pushed = false ∧ history.poped = true) := by
  unfold access
  cases hcall : inst.isCall with
  | true =>
    obtain ⟨stats, hpush⟩ := ras.push_none tid return_addr
    simp [hpush]
  | false =>
    cases hreturn : inst.isReturn with
    | true =>
      obtain ⟨stats, hpop⟩ := ras.pop_none tid
      simp [hpop]
    | false => simp

theorem access_tracked {queue : List (PredictorHistory PC η n)} (hist : PredictorHistory PC η n)
    (return_addr : PC) (ras : ReturnAddrStack PC n)
    (htracked : Tracked outcome committed queue (ras.addrStacks tid))
    (hok : Recorded outcome hist)
    (hras : hist.rasHistory = (access tid hist.inst return_addr ras).2)
    (haddr : hist.inst.isCall = true → instAddr return_addr = returnAddr hist)
    (hbounded : bounded outcome (hist :: queue ++ committed) = true) :
    Tracked outcome committed (hist :: queue)
      ((access tid hist.inst return_addr ras).1.addrStacks tid) := by
  unfold access at hras ⊢
  cases hcall : hist.inst.isCall with
  | true =>
    obtain ⟨stats, hpush⟩ := ras.push_none tid return_addr
    simp only [hcall, hpush, if_true] at hras ⊢
    rw [update_self]
    exact htracked.push hok _ hras rfl _ (haddr hcall) hbounded
  | false =>
    cases hreturn : hist.inst.isReturn with
    | true =>
      obtain ⟨stats, hpop⟩ := ras.pop_none tid
      simp only [hcall, hreturn, hpop, if_true, Bool.false_eq_true, if_false] at hras ⊢
      rw [update_self]
      exact htracked.pop hok _ hras rfl rfl rfl
    | false =>
      simp only [hcall, hreturn, Bool.false_eq_true, if_false] at hras ⊢
      exact htracked.skip hok hras

theorem predict_kept (hkept : Kept tid outcome committed unit) (hbtb : p.requiresBTBHit = false)
    (inst : StaticInst PC) (seqNum : InstSeqNum) (pc : PC)
    (hcall : inst.isCall = true → inst.size ≠ 0 ∧
      instAddr (inst.buildRetPC pc pc) =
        instAddr pc + BitVec.ofNat 64 inst.size)
    (hsingle : (inst.isCall && inst.isReturn) = false)
    (hway : (inst.isCall || inst.isReturn) = true →
      (predict p tid pc unit inst seqNum).1 = true ∨ outcome seqNum = true)
    (hbounded : bounded outcome
      ((predict p tid pc unit inst seqNum).2.2.predHist tid ++ committed) = true) :
    Kept tid outcome committed (predict p tid pc unit inst seqNum).2.2 := by
  obtain ⟨ras, hras, htracked⟩ := hkept
  have hspec := predictRecord_spec p tid pc unit inst seqNum
  unfold predict at hway hbounded ⊢
  generalize predictRecord p tid pc unit inst seqNum = w at hspec hway hbounded ⊢
  simp only [BPU.record, BPU.setQueue, update_self, hspec.predHist] at hbounded
  simp only [Kept, BPU.record, BPU.setQueue, update_self, hspec.predHist]
  obtain ⟨detected, hdetected, hcalled⟩ := hspec.ras
  obtain ⟨hras', hhistory⟩ := hcalled.returns hras
  rw [hdetected hbtb, rasAccess_eq] at hras' hhistory
  obtain ⟨hsome, hmade⟩ := access_made tid inst (inst.buildRetPC pc pc) ras
  have hok : Recorded outcome w.2 := by
    refine ⟨hspec.target, ?_, ?_, ?_, ?_⟩
    · rw [hspec.inst_eq]
      exact hsingle
    · rw [hspec.inst_eq]
      exact fun h => (hcall h).1
    · rw [hspec.inst_eq, hhistory]
      exact hmade
    · rw [uses, hspec.inst_eq, hspec.resolved, hspec.seqNum_eq, hhistory, hsome]
      intro huses
      rw [huses]
      rcases hway huses with h | h
      · exact .inl h.symm
      · exact .inr h.symm
  rw [← hspec.inst_eq] at hras' hhistory
  refine ⟨_, hras', access_tracked tid w.2 _ ras htracked hok hhistory ?_ hbounded⟩
  rw [returnAddr, hspec.inst_eq, hspec.pc_eq]
  exact fun h => (hcall h).2

theorem commitOldest_kept (hkept : Kept tid outcome committed unit)
    (queue : List (PredictorHistory PC η n)) (hist : PredictorHistory PC η n)
    (hqueue : unit.predHist tid = queue ++ [hist])
    (hcarried : hist.actuallyTaken = outcome hist.seqNum) :
    Kept tid outcome (hist :: committed) (commitOldest p tid unit hist) := by
  obtain ⟨ras, hras, htracked⟩ := hkept
  rw [hqueue] at htracked
  have hok := htracked.records hist (by simp)
  have hspec := commitBranch_spec p tid unit hist hok.target
  unfold commitOldest deleteHistory
  simp only [Kept, BPU.record, BPU.setQueue, BPU.check, update_self, hspec.predHist,
    hqueue, dropLast_concat]
  refine ⟨_, (hspec.ras.returns hras).1, ?_⟩
  have hstacks : (ras.commit hist.mispredict hist.type hist.rasHistory).1.addrStacks =
      ras.addrStacks := by
    unfold ReturnAddrStack.commit
    split
    · rfl
    · cases hist.rasHistory <;> rfl
  rw [hstacks]
  exact htracked.settle hcarried

omit [NeZero n] [PCState PC] in
theorem squash_stack (ras : ReturnAddrStack PC n) (rasHistory : Option (RASHistory PC n)) :
    (ras.squash tid rasHistory).1.addrStacks tid =
      rasHistory.elim (ras.addrStacks tid) fun history =>
        ReturnAddrStack.undoStack history (ras.addrStacks tid) := by
  cases rasHistory with
  | none => rfl
  | some history =>
    obtain ⟨stats, h⟩ := ras.squash_some tid history
    simp [h]

private theorem squashYoungest_kept (hkept : Kept tid outcome committed unit)
    (queue : List (PredictorHistory PC η n)) (hist : PredictorHistory PC η n)
    (hqueue : unit.predHist tid = hist :: queue) :
    Kept tid outcome committed (squashYoungest p tid unit hist) := by
  obtain ⟨ras, hras, htracked⟩ := hkept
  rw [hqueue] at htracked
  have hspec := squashHistory_spec p tid unit hist
  unfold squashYoungest
  simp only [Kept, BPU.record, BPU.setQueue, update_self, hspec.predHist, hqueue,
    tail_cons]
  obtain ⟨history, hcalled⟩ := hspec.ras
  refine ⟨_, (hcalled.returns hras).1, ?_⟩
  rw [squash_stack]
  exact htracked.undo

omit [NeZero n] [PCState PC] in
private theorem type_return (hist : PredictorHistory PC η n) (isReturn : Bool)
    (h : hist.inst.isReturn = isReturn) : decide (hist.type = .return) = isReturn := by
  rw [← h, Bool.eq_iff_iff, decide_eq_true_iff]
  exact getBranchType_return hist.inst

theorem correctTaken_none (corr_target : PC) (hist : PredictorHistory PC η n)
    (hsingle : (hist.inst.isCall && hist.inst.isReturn) = false) (ras : ReturnAddrStack PC n) :
    correctTaken tid corr_target hist ras none =
      access tid hist.inst (correctedReturnAddr corr_target hist) ras := by
  unfold correctTaken PredictorHistory.call access
  cases hcall : hist.inst.isCall with
  | true =>
    have hreturn : hist.inst.isReturn = false := by simpa [hcall] using hsingle
    have htype := of_decide_eq_false (type_return hist false hreturn)
    simp [htype]
  | false =>
    cases hreturn : hist.inst.isReturn with
    | true =>
      have htype := of_decide_eq_true (type_return hist true hreturn)
      simp [htype]
    | false =>
      have htype := of_decide_eq_false (type_return hist false hreturn)
      simp [htype]

theorem rasCorrection_made (corr_target : PC) (taken : Bool) (hist : PredictorHistory PC η n)
    (hok : Recorded outcome hist) (ras : ReturnAddrStack PC n) :
    (uses hist = true →
        (rasCorrection tid corr_target taken hist ras).2.isSome = taken) ∧
      ∀ history, (rasCorrection tid corr_target taken hist ras).2 = some history →
        (hist.inst.isCall = true ∧ history.pushed = true ∧ history.poped = false) ∨
          (hist.inst.isReturn = true ∧ history.pushed = false ∧ history.poped = true) := by
  unfold rasCorrection
  cases hold : hist.rasHistory with
  | some history =>
    cases taken with
    | true => simpa using hok.made history hold
    | false => simp [squash_ras_none]
  | none =>
    cases taken with
    | false => simp
    | true =>
      simp only [Option.isNone_none, Bool.and_true, if_true,
        correctTaken_none tid corr_target hist hok.single]
      obtain ⟨hsome, hmade⟩ :=
        access_made tid hist.inst (correctedReturnAddr corr_target hist) ras
      exact ⟨fun huses => hsome.trans huses, hmade⟩

theorem rasCorrection_tracked
    (hset : ∀ (pc : PC) addr, instAddr (set pc addr) = addr)
    (corr_target : PC) (taken : Bool) (hist hist' : PredictorHistory PC η n)
    (queue : List (PredictorHistory PC η n)) (ras : ReturnAddrStack PC n)
    (htracked : Tracked outcome committed (hist :: queue) (ras.addrStacks tid))
    (hok : Recorded outcome hist') (hpc : hist'.pc = hist.pc) (hinst : hist'.inst = hist.inst)
    (hras : hist'.rasHistory = (rasCorrection tid corr_target taken hist ras).2)
    (hbounded : bounded outcome (hist' :: queue ++ committed) = true) :
    Tracked outcome committed (hist' :: queue)
      ((rasCorrection tid corr_target taken hist ras).1.addrStacks tid) := by
  have hold := htracked.records hist mem_cons_self
  have hundo := htracked.undo
  have hreturnAddr : returnAddr hist' = returnAddr hist := by simp [returnAddr, hpc, hinst]
  unfold rasCorrection at hras ⊢
  cases hhistory : hist.rasHistory with
  | some history =>
    rw [hhistory] at hundo
    cases taken with
    | true =>
      apply htracked.replace hok
      simp [entryOf, hras, hhistory, hreturnAddr]
    | false =>
      simp only [hhistory, Option.isNone_some, Option.isSome_some, Bool.and_false, Bool.not_false,
        Bool.and_true, Bool.false_eq_true, if_false, if_true, squash_ras_none] at hras ⊢
      rw [squash_stack]
      exact hundo.skip hok hras
  | none =>
    rw [hhistory] at hundo
    cases taken with
    | false =>
      simp only [hhistory, Option.isNone_none, Option.isSome_none, Bool.and_false, Bool.false_and,
        Bool.false_eq_true, if_false] at hras ⊢
      exact hundo.skip hok hras
    | true =>
      simp only [hhistory, Option.isNone_none, Bool.and_true, if_true,
        correctTaken_none tid corr_target hist hold.single, ← hinst] at hras ⊢
      apply access_tracked tid hist' _ ras hundo hok hras _ hbounded
      intro hcall
      rw [hinst] at hcall
      rw [correctedReturnAddr, if_pos (hold.size hcall), hset, hreturnAddr]
      rfl

theorem correctFront_kept (hset : ∀ (pc : PC) addr, instAddr (set pc addr) = addr)
    (hkept : Kept tid outcome committed unit) (queue : List (PredictorHistory PC η n))
    (hist : PredictorHistory PC η n) (hqueue : unit.predHist tid = hist :: queue)
    (corr_target : PC) (taken : Bool) (sn : InstSeqNum) (from_commit : Bool) (rand : Nat)
    (hbounded : bounded outcome ((correctFront p tid corr_target taken sn from_commit rand unit
      hist).2 :: queue ++ committed) = true) :
    let w := correctFront p tid corr_target taken sn from_commit rand unit hist
    Kept tid outcome committed (w.1.setQueue tid (w.2 :: queue)) := by
  obtain ⟨ras, hras, htracked⟩ := hkept
  rw [hqueue] at htracked
  have hok := htracked.records hist mem_cons_self
  have hspec := correctFront_spec p tid corr_target taken unit hist sn from_commit rand
  generalize correctFront p tid corr_target taken sn from_commit rand unit hist = w
    at hspec hbounded ⊢
  simp only [Kept, BPU.setQueue, update_self]
  obtain ⟨hras', hhistory⟩ := hspec.ras.returns hras
  obtain ⟨hsome, hmade⟩ := rasCorrection_made tid corr_target taken hist hok ras
  have hok' : Recorded outcome w.2 := by
    refine ⟨by rw [hspec.target]; rfl, ?_, ?_, ?_, ?_⟩
    · rw [hspec.inst]
      exact hok.single
    · rw [hspec.inst]
      exact hok.size
    · rw [hspec.inst, hhistory]
      exact hmade
    · intro huses
      rw [uses, hspec.inst] at huses
      left
      rw [hspec.actuallyTaken, hhistory]
      exact hsome huses
  exact ⟨_, hras', rasCorrection_tracked tid hset corr_target taken hist w.2 queue ras htracked hok'
    hspec.pc hspec.inst hhistory hbounded⟩

end

section
variable [NeZero n] [PCState PC] (p : Params PC σ η β) (tid : ThreadID)
variable {outcome : InstSeqNum → Bool}
variable {committed : List (PredictorHistory PC η n)} {unit : BPU PC σ η β n}

/-- The records that `update` retires are the old end of the queue. -/
theorem updateLoop_kept (done_sn : InstSeqNum) (fuel : Nat) (unit : BPU PC σ η β n)
    (htarget : ∀ hist ∈ unit.predHist tid, hist.target.isSome = true) :
    ∃ left, unit.predHist tid = (updateLoop p tid done_sn fuel unit).predHist tid ++ left ∧
      ∀ committed, Kept tid outcome committed unit →
        (∀ hist ∈ left, hist.actuallyTaken = outcome hist.seqNum) →
        Kept tid outcome (left ++ committed) (updateLoop p tid done_sn fuel unit) := by
  induction fuel generalizing unit with
  | zero => exact ⟨[], (append_nil _).symm, fun _ hkept _ => hkept⟩
  | succ fuel ih =>
    unfold updateLoop
    cases hlast : (unit.predHist tid).getLast? with
    | none => exact ⟨[], (append_nil _).symm, fun _ hkept _ => hkept⟩
    | some hist =>
      dsimp only
      split
      · obtain ⟨queue, hqueue⟩ := List.getLast?_eq_some_iff.mp hlast
        have hnext : (commitOldest p tid unit hist).predHist tid = queue := by
          rw [Lifecycle.commitOldest_queue p tid (htarget hist (by rw [hqueue]; simp)) hqueue,
            update_self]
        obtain ⟨later, hlater, hafter⟩ := ih (commitOldest p tid unit hist) (by
          intro hist' hmem
          rw [hnext] at hmem
          exact htarget hist' (by rw [hqueue]; exact mem_append_left _ hmem))
        refine ⟨later ++ [hist], by rw [hqueue, ← hnext, hlater, append_assoc], ?_⟩
        intro committed hkept hcarried
        rw [append_assoc]
        apply hafter
        · exact commitOldest_kept p tid hkept queue hist hqueue (hcarried hist (by simp))
        · intro hist' hmem
          exact hcarried hist' (mem_append_left _ hmem)
      · exact ⟨[], (append_nil _).symm, fun _ hkept _ => hkept⟩

private theorem squashLoop_kept (squashed_sn : InstSeqNum) (fuel : Nat) (unit : BPU PC σ η β n)
    (hkept : Kept tid outcome committed unit) :
    Kept tid outcome committed (squashLoop p tid squashed_sn fuel unit) := by
  induction fuel generalizing unit with
  | zero => exact hkept
  | succ fuel ih =>
    unfold squashLoop
    cases hhead : (unit.predHist tid).head? with
    | none => exact hkept
    | some hist =>
      dsimp only
      split
      · obtain ⟨queue, hqueue⟩ := List.head?_eq_some_iff.mp hhead
        exact ih _ (squashYoungest_kept p tid hkept queue hist hqueue)
      · exact hkept

theorem perform_kept (hset : ∀ (pc : PC) addr, instAddr (set pc addr) = addr)
    (hbtb : p.requiresBTBHit = false) (st : State PC σ η β n) (act : Act PC)
    (hassumed : assumed p tid outcome st act = true)
    (hundistorted : undistorted p tid outcome st act = true)
    (hkept : Kept tid outcome st.committed st.unit) :
    Kept tid outcome (perform p tid st act).committed (perform p tid st act).unit := by
  rw [assumed, Bool.and_eq_true] at hassumed
  obtain ⟨hstep, hbounded⟩ := hassumed
  cases act with
  | predict inst seqNum pc =>
    simp only [undistorted, Bool.and_eq_true, Bool.not_eq_true', Bool.or_eq_true] at hundistorted
    apply predict_kept p tid hkept hbtb inst seqNum pc _ hundistorted.1 _ hbounded
    · intro hcall
      simpa [proper, hcall] using hstep
    · intro huses
      rcases hundistorted.2 with (hunused | hforetold) | houtcome
      · rw [huses] at hunused
        cases hunused
      · exact .inl ((Coherence.predict_foretold p tid pc st.unit inst seqNum).trans hforetold)
      · exact .inr houtcome
  | update done_sn =>
    simp only [proper, all_eq_true, beq_iff_eq] at hstep
    obtain ⟨ras, hras, htracked⟩ := hkept
    obtain ⟨left, hleft, hafter⟩ := updateLoop_kept p tid done_sn (st.unit.predHist tid).length
      st.unit fun hist hmem => (htracked.records hist hmem).target
    have hleaving : leaving p tid done_sn st.unit = left :=
      append_cancel_left ((prefix_iff_eq_append.mp ⟨left, hleft.symm⟩).trans hleft)
    rw [hleaving] at hstep
    simp only [perform, hleaving]
    exact hafter st.committed ⟨ras, hras, htracked⟩ hstep
  | squash squashed_sn => exact squashLoop_kept p tid squashed_sn _ st.unit hkept
  | squashCorrect squashed_sn corr_target taken from_commit rand =>
    have hsquashed := squashLoop_kept p tid squashed_sn (st.unit.predHist tid).length st.unit hkept
    simp only [perform, Act.call, step, squashCorrect, State.survivors] at hbounded ⊢
    cases hqueue : (squash p tid squashed_sn st.unit).predHist tid with
    | nil => exact hsquashed
    | cons hist queue =>
      simp only [hqueue, BPU.setQueue, update_self] at hbounded
      exact correctFront_kept p tid hset hsquashed queue hist hqueue corr_target taken squashed_sn
        from_commit rand hbounded

theorem start_kept (cPred : σ) (btb : β) (hasIPred : Bool) :
    Kept tid outcome [] (start p cPred btb true hasIPred : BPU PC σ η β n) :=
  ⟨.init, rfl, init_tracked⟩

/-- As long as no call or return is rightly predicted not taken, the return
address stack holds the architectural call stack whenever every queued branch
carries its actual outcome. -/
theorem stack_exact (hset : ∀ (pc : PC) addr, instAddr (set pc addr) = addr)
    (hbtb : p.requiresBTBHit = false) (cPred : σ) (btb : β) (hasIPred : Bool)
    (outcome : InstSeqNum → Bool) (acts : List (Act PC))
    (hassumed : Legal (perform p tid) (fun st act => assumed p tid outcome st act)
      ({ unit := start p cPred btb true hasIPred } : State PC σ η β n) acts)
    (hundistorted : Legal (perform p tid) (fun st act => undistorted p tid outcome st act)
      ({ unit := start p cPred btb true hasIPred } : State PC σ η β n) acts)
    (hcarried : carried tid outcome (run (perform p tid)
      ({ unit := start p cPred btb true hasIPred } : State PC σ η β n) acts) = true) :
    Exact tid outcome (run (perform p tid)
      ({ unit := start p cPred btb true hasIPred } : State PC σ η β n) acts) := by
  obtain ⟨ras, hras, htracked⟩ := run_inv (fun st => Kept tid outcome st.committed st.unit)
    (fun st act hkept hact => perform_kept p tid hset hbtb st act hact.1 hact.2 hkept) acts
    (start_kept p tid cPred btb hasIPred) (hassumed.and hundistorted)
  simp only [carried, List.all_eq_true, beq_iff_eq] at hcarried
  rw [Exact, hras, Option.map_some, State.survivors, htracked.live_eq hcarried]

end

/-- A call, two conditional returns of which the first is corrected to not taken, and a second call;
then the oldest two commit. -/
def corrections : List (Act Addr) :=
  [.predict (fourByteInst true false false) 1 0x100,
    .squashCorrect 1 0x1000 true false 0,
    .predict (fourByteInst false true true) 2 0x1000,
    .predict (fourByteInst true false true) 3 0x104,
    .squashCorrect 2 0x1004 false false 0,
    .predict (fourByteInst true false false) 4 0x1004,
    .squashCorrect 4 0x2000 true false 0,
    .update 2,
    .predict (fourByteInst false true true) 5 0x2000]

theorem stack_exact_corrections :
    let p := Params.static Addr true
    let outcome : InstSeqNum → Bool := fun sn => sn != 2
    let st := run (perform p 0)
      ({ unit := start p () () true false } : State Addr Unit Unit Unit 2) corrections
    architectural outcome (st.survivors 0) = [0x104] ∧ Exact 0 outcome st :=
  ⟨by decide +kernel,
    stack_exact (Params.static Addr true) 0 (fun _ _ => rfl) rfl () () false (fun sn => sn != 2)
      corrections (by decide +kernel) (by decide +kernel) (by decide +kernel)⟩

/-- A call and, behind it, a conditional call that is rightly predicted not
taken: nothing corrects the second push. -/
def notTakenCall : List (Act Addr) :=
  [.predict (fourByteInst true false false) 1 0x100,
    .squashCorrect 1 0x1000 true false 0,
    .predict (fourByteInst true false true) 2 0x1000]

theorem notTakenCall_not_exact :
    let p := Params.static Addr false
    let outcome : InstSeqNum → Bool := fun sn => sn == 1
    let start : State Addr Unit Unit Unit 2 := { unit := start p () () true false }
    p.requiresBTBHit = false ∧
      Legal (perform p 0) (fun st act => assumed p 0 outcome st act) start notTakenCall ∧
      carried 0 outcome (run (perform p 0) start notTakenCall) = true ∧
      architectural outcome ((run (perform p 0) start notTakenCall).survivors 0) = [0x104] ∧
      (run (perform p 0) start notTakenCall).unit.ras.map
          (fun ras => live (instAddrs (ras.addrStacks 0)) 1) = some [some 0x1004] ∧
      ¬ Exact 0 outcome (run (perform p 0) start notTakenCall) := by
  unfold Exact
  decide +kernel

end Gem5Core.Pred.RasExact
