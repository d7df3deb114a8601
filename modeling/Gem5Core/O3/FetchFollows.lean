import Gem5Core.O3.FrontEndInv

/-! Where fetch goes after a branch, compared with the record that the branch gets
in the unit's queue. -/
namespace Gem5Core.O3.FetchFollows
open Gem5Core.Pred Pred.Branch Pred.Stages Ftq Bac FrontEnd Stamps FrontEndInv
open Pred.BPredUnit (BPU PredictorHistory)

variable {PC σ η β : Type} {n : Nat}

section
variable (p : Bac.Params PC σ η β) (tid : ThreadID) (s : BAC PC σ η β n)

theorem squashBpuHistories_predHist :
    (squashBpuHistories p tid s).bpu.predHist = s.bpu.predHist :=
  (forAllBackward_frame p tid s.ftq.ftq (s.bpu, s.trace)).1

variable [PCState PC] (seqNum : InstSeqNum) (inst : StaticInst PC) (pc : PC)
  (ft : FetchTarget PC (Prediction PC η n))

def moved : Option (Prediction PC η n) :=
  (if ft.isExitBranch (PCState.instAddr pc) then ft.bpuHistory else none).filter
    fun pred => pred.hist.type = getBranchType inst

private theorem takeHistory_moved :
    (takeHistory p tid inst pc ft s).1 = moved inst pc ft ∧
      (takeHistory p tid inst pc ft s).2.bpu.predHist = s.bpu.predHist := by
  unfold takeHistory moved
  generalize (if ft.isExitBranch (PCState.instAddr pc) then ft.bpuHistory else none) = hist
  cases hist with
  | none => exact ⟨rfl, rfl⟩
  | some pred =>
    dsimp only
    split
    · rename_i htype
      exact ⟨by simp [Option.filter, htype], rfl⟩
    · rename_i htype
      exact ⟨by simp [Option.filter, htype], squashBpuHistories_predHist p tid _⟩

variable [NeZero n]

theorem chooseHistory_spec :
    let out := chooseHistory p tid seqNum inst pc ft s
    out.2.2.2.bpu.predHist = s.bpu.predHist ∧
      match moved inst pc ft with
      | some pred => out.1 = pred.hist ∧ out.2.2.1 = none
      | none =>
        out.1.target = some (out.2.2.1.getD (inst.advancePC pc)) ∧
          (out.2.2.1 = none → out.1.predTaken = false) := by
  obtain ⟨hmoved, hpredHist⟩ := takeHistory_moved p tid s inst pc ft
  rw [← hmoved]
  unfold chooseHistory
  generalize takeHistory p tid inst pc ft s = taken at hpredHist ⊢
  obtain ⟨hist, s'⟩ := taken
  cases hist with
  | some pred => exact ⟨hpredHist, rfl, rfl⟩
  | none =>
    dsimp only
    split
    · have hsquash := squashBpuHistories_predHist p tid s'
      generalize squashBpuHistories p tid s' = s'' at hsquash ⊢
      have hmade := predict_made p tid inst ft.ftSeqNum pc s''.lockFTQ
      have hpredict := predict_predHist p tid inst ft.ftSeqNum pc s''.lockFTQ
      obtain ⟨target, htarget⟩ := Option.isSome_iff_exists.mp hmade.target
      refine ⟨hpredict.trans (hsquash.trans hpredHist), ?_, ?_⟩
      · rw [Option.getD_some, hmade.next, htarget, Option.getD_some]
      · rintro ⟨⟩
    · exact ⟨hpredHist, rfl, fun _ => rfl⟩

theorem updatePreDecode_chosen :
    let s₁ := s.check (ft.inRange (PCState.instAddr pc))
    let s₂ := s₁.check (s₁.ftq.readHead.any fun head => ft.ftSeqNum == head.ftSeqNum)
    let chosen := chooseHistory p tid seqNum inst pc ft s₂
    let out := updatePreDecode p tid seqNum inst pc ft s
    out.1 = chosen.1.predTaken ∧
      out.2.1 = chosen.2.2.1.getD
        (if chosen.1.predTaken then ft.predPC.getD pc else inst.advancePC pc) ∧
      out.2.2.bpu.predHist tid =
        { chosen.1 with seqNum } :: chosen.2.2.2.bpu.predHist tid := by
  unfold updatePreDecode
  dsimp only
  generalize chooseHistory p tid seqNum inst pc ft _ = chosen
  obtain ⟨hist, stamp, target_set, s'⟩ := chosen
  cases target_set with
  | some next_pc => exact ⟨rfl, rfl, Function.update_self ..⟩
  | none =>
    dsimp only
    split
    · rename_i htaken
      exact ⟨htaken.symm, rfl, Function.update_self ..⟩
    · rename_i htaken
      exact ⟨(Bool.eq_false_iff.mpr htaken).symm, rfl, Function.update_self ..⟩

end

section
variable [PCState PC] [NeZero n]

def FollowsRecord (tid : ThreadID) (out : Bool × PC × Bool × BAC PC σ η β n) : Prop :=
  ∃ record rest, out.2.2.2.bpu.predHist tid = record :: rest ∧ record.target = some out.2.1 ∧
    record.predTaken = out.1

/-- Where fetch goes after a branch with this record. A record that moved from the fetch target is
followed if it predicts taken, but for a branch inside a macro-op fetch goes on behind the macro-op.
If it predicts not taken, fetch advances its own PC. -/
def Goes (inst : StaticInst PC) (pc : PC) (ft : FetchTarget PC (Prediction PC η n))
    (record : PredictorHistory PC η n) (next_pc : PC) : Prop :=
  match moved inst pc ft with
  | none => record.target = some next_pc
  | some _ =>
      if record.predTaken then
        if notLastMicroop record.inst then
          ∃ target, record.target = some target ∧
            next_pc = PCState.set target (PCState.instAddr pc + BitVec.ofNat 64 record.inst.size)
        else record.target = some next_pc
      else
        next_pc = inst.advancePC pc ∧
          (record.targetProvider ≠ .ras → ∃ exit_pc, ft.endPC = some exit_pc ∧
            record.target = some (record.inst.advancePC exit_pc))

omit [NeZero n] in
theorem goes_moved {p : Bac.Params PC σ η β} {predicted : List (Addr × StaticInst PC)}
    {ft : FetchTarget PC (Prediction PC η n)} (hsound : Sound p predicted ft)
    {inst : StaticInst PC} {pc : PC} {pred : Prediction PC η n}
    (hmoved : moved inst pc ft = some pred) (seqNum : InstSeqNum) :
    Goes inst pc ft { pred.hist with seqNum }
      (if pred.hist.predTaken then ft.predPC.getD pc else inst.advancePC pc) := by
  obtain ⟨exit_pc, next_pc, hend, hnext, hexit⟩ := hsound.exits
  obtain ⟨haddr, hft⟩ : PCState.instAddr pc = PCState.instAddr exit_pc ∧
      ft.bpuHistory = some pred := by
    obtain ⟨htake, -⟩ := Option.filter_eq_some_iff.mp hmoved
    split at htake
    · rename_i hbranch
      rw [FetchTarget.isExitBranch, FetchTarget.endAddress, hend, Bool.and_eq_true] at hbranch
      exact ⟨beq_iff_eq.mp hbranch.1, htake⟩
    · cases htake
  have hrecord := hexit pred hft
  obtain ⟨target, htarget⟩ := Option.isSome_iff_exists.mp hrecord.target
  have hpredicted := hrecord.next
  unfold Goes
  rw [hmoved, hnext]
  cases htaken : pred.hist.predTaken with
  | true =>
    rw [htaken, htarget] at hpredicted
    dsimp only
    rw [if_pos rfl]
    split
    · rename_i hinner
      refine ⟨target, htarget, ?_⟩
      simpa [nextTarget, hinner, haddr] using hpredicted
    · rename_i hinner
      rw [htarget]
      simpa [nextTarget, hinner] using hpredicted.symm
  | false => exact ⟨rfl, fun hras => ⟨exit_pc, hend, hrecord.falls htaken hras⟩⟩

theorem updatePreDecode_goes (p : Bac.Params PC σ η β) (tid : ThreadID) (s : BAC PC σ η β n)
    {predicted : List (Addr × StaticInst PC)} {ft : FetchTarget PC (Prediction PC η n)}
    (hsound : Sound p predicted ft) (seqNum : InstSeqNum) (inst : StaticInst PC) (pc : PC) :
    let out := updatePreDecode p tid seqNum inst pc ft s
    ∃ record, out.2.2.bpu.predHist tid = record :: s.bpu.predHist tid ∧
      record.seqNum = seqNum ∧ record.predTaken = out.1 ∧ Goes inst pc ft record out.2.1 := by
  obtain ⟨htaken, hnext, hqueue⟩ := updatePreDecode_chosen p tid s seqNum inst pc ft
  have hspec := chooseHistory_spec p tid ((s.check (ft.inRange (PCState.instAddr pc))).check
    ((s.check (ft.inRange (PCState.instAddr pc))).ftq.readHead.any fun head =>
      ft.ftSeqNum == head.ftSeqNum)) seqNum inst pc ft
  generalize chooseHistory p tid seqNum inst pc ft _ = chosen at htaken hnext hqueue hspec
  obtain ⟨hist, stamp, target_set, s'⟩ := chosen
  obtain ⟨hpredHist, hchosen⟩ := hspec
  refine ⟨{ hist with seqNum }, hqueue.trans ?_, rfl, htaken.symm, ?_⟩
  · exact congrArg (_ :: ·) (congrFun hpredHist tid)
  rw [hnext]
  cases hmoved : moved inst pc ft with
  | some pred =>
    rw [hmoved] at hchosen
    obtain ⟨rfl, rfl⟩ : hist = pred.hist ∧ target_set = none := hchosen
    exact goes_moved hsound hmoved seqNum
  | none =>
    rw [hmoved] at hchosen
    obtain ⟨htarget, hplaceholder⟩ := hchosen
    unfold Goes
    rw [hmoved]
    cases target_set with
    | some next_pc => exact htarget
    | none =>
      -- a placeholder is predicted not taken
      rw [show hist.predTaken = false from hplaceholder rfl]
      exact htarget

/-- Every control instruction that is handled gets one record, whose direction is
returned, and fetch goes where `Goes` says. -/
theorem fetch_goes (p : Bac.Params PC σ η β) (tid : ThreadID) (cPred : σ) (btb : β)
    (hasRas hasIPred : Bool) (start_pc : PC) (events : List (FrontEnd.Event PC))
    (seqNum : InstSeqNum) (inst : StaticInst PC) (pc : PC)
    (ft : FetchTarget PC (Prediction PC η n))
    (hcontrol : inst.isControl = true) :
    let s := run p tid (start p cPred btb hasRas hasIPred start_pc) events
    let out := updatePC p tid seqNum inst pc ft s
    s.ftq.readHead = some ft →
    ∃ record, out.2.2.2.bpu.predHist tid = record :: s.bpu.predHist tid ∧
      record.seqNum = seqNum ∧ record.predTaken = out.1 ∧
      Goes inst pc ft record out.2.1 := by
  intro s out hread
  have hinv : Inv p tid s :=
    run_inv p tid events (start_inv p tid cPred btb hasRas hasIPred start_pc)
  obtain ⟨rest, hhead⟩ := readHead_eq_some hread
  have hsound := hinv.targets ft (by simp [hhead])
  have hgoes := updatePreDecode_goes p tid s hsound seqNum inst pc
  simp only [out, updatePC, hcontrol, if_true]
  exact hgoes

end

/-- The front end knows one branch, at 0x108, and has made the fetch target that it
ends. -/
def oneTarget (known : StaticInst Addr) (target : Addr) : BAC Addr Unit Unit Unit 8 :=
  run (fixedTargets true [(0x108, known, target)]) 0
    (start (fixedTargets true [(0x108, known, target)]) () () true true 0x100) [.tick quiet]

def headTarget (s : BAC Addr Unit Unit Unit 8) : FetchTarget Addr (Prediction Addr Unit 8) :=
  s.ftq.readHead.getD { startPC := 0, ftSeqNum := 0 }

theorem readHead_headTarget (s : BAC Addr Unit Unit Unit 8)
    (h : s.ftq.readHead.isSome = true) : s.ftq.readHead = some (headTarget s) := by
  obtain ⟨ft, hft⟩ := Option.isSome_iff_exists.mp h
  rw [headTarget, hft, Option.getD_some]

def handled (known : StaticInst Addr) (target : Addr) :
    Bool × Addr × Bool × BAC Addr Unit Unit Unit 8 :=
  updatePC (fixedTargets true [(0x108, known, target)]) 0 1 known 0x108
    (headTarget (oneTarget known target)) (oneTarget known target)

def jump : StaticInst Addr := fourByteInst false false true

theorem fetch_goes_jump :
    (oneTarget jump 0x200).ftq.readHead = some (headTarget (oneTarget jump 0x200)) ∧
      jump.isControl = true ∧ (handled jump 0x200).2.1 = 0x200 ∧
      ∃ record, (handled jump 0x200).2.2.2.bpu.predHist 0 =
          record :: (oneTarget jump 0x200).bpu.predHist 0 ∧
        record.seqNum = 1 ∧ record.predTaken = (handled jump 0x200).1 ∧
        Goes jump 0x108 (headTarget (oneTarget jump 0x200)) record (handled jump 0x200).2.1 := by
  have hhead := readHead_headTarget (oneTarget jump 0x200) (by decide +kernel)
  exact ⟨hhead, rfl, by decide +kernel,
    fetch_goes (fixedTargets true [(0x108, jump, 0x200)]) 0 () () true true 0x100 [.tick quiet] 1
      jump 0x108 (headTarget (oneTarget jump 0x200)) rfl hhead⟩

def inner : StaticInst Addr := { jump with isMicroop := true }

/-- The record has that target, and fetch goes to the next instruction. -/
theorem inner_not_followed :
    (oneTarget inner 0x108).ftq.readHead = some (headTarget (oneTarget inner 0x108)) ∧
      (handled inner 0x108).2.1 = 0x10c ∧ ¬ FollowsRecord 0 (handled inner 0x108) := by
  have hpc : (handled inner 0x108).2.1 = 0x10c := by decide +kernel
  have htarget : ((handled inner 0x108).2.2.2.bpu.predHist 0).head?.bind (·.target) =
      some 0x108 := by decide +kernel
  refine ⟨readHead_headTarget _ (by decide +kernel), hpc, ?_⟩
  rintro ⟨record, rest, hqueue, hfollow, -⟩
  rw [hqueue, List.head?_cons, Option.bind_some, hfollow] at htarget
  exact absurd htarget (by decide)

end Gem5Core.O3.FetchFollows
