import Gem5Core.O3.Stamps
import Gem5Core.Pred.Coherence

/-! The invariant of the decoupled front end. Fetch targets from tail to head, followed by the
unit's queue, list the predictions from the youngest to the oldest, and every fetch target says
where its exit branch is predicted to go. -/
namespace Gem5Core.O3.FrontEndInv
open Gem5Core.Pred Pred.Branch Pred.Stages Ftq Bac FrontEnd Stamps List
open Lib.Deque (Trace enters)
open Pred.BPredUnit (BPU PredictorHistory)

variable {PC σ η β : Type} {n : Nat}

section

def Labels (predicted : List (Addr × StaticInst PC)) (stamp : Option Nat)
    (branch : Addr × StaticInst PC) : Prop :=
  ∀ k, stamp = some k → predicted[k]? = some branch

theorem Labels.extend {predicted : List (Addr × StaticInst PC)} {stamp : Option Nat}
    {branch : Addr × StaticInst PC} (h : Labels predicted stamp branch)
    (more : List (Addr × StaticInst PC)) : Labels (predicted ++ more) stamp branch := by
  intro k hk
  have hlt := (List.getElem?_eq_some_iff.mp (h k hk)).1
  rw [List.getElem?_append_left hlt]
  exact h k hk

/-- What the record of an exit branch says about the PC where the next fetch target starts. A branch
predicted not taken falls through, unless the return address stack gave a target. -/
structure Exit [PCState PC] (p : Bac.Params PC σ η β) (exit_pc next_pc : PC)
    (hist : PredictorHistory PC η n) : Prop where
  target : hist.target.isSome = true
  next : next_pc = nextTarget p (some hist.inst) exit_pc hist.predTaken (hist.target.getD exit_pc)
  falls : hist.predTaken = false → hist.targetProvider ≠ .ras →
    hist.target = some (hist.inst.advancePC exit_pc)

def Carries (predicted : List (Addr × StaticInst PC))
    (ft : FetchTarget PC (Prediction PC η n)) : Prop :=
  ∀ pred, ft.bpuHistory = some pred → Labels predicted (some pred.stamp) (branchOf pred.hist)

/-- A fetch target is complete, and its record, if it still has one, is that of its
exit branch. -/
structure Sound [PCState PC] (p : Bac.Params PC σ η β)
    (predicted : List (Addr × StaticInst PC)) (ft : FetchTarget PC (Prediction PC η n)) :
    Prop where
  carries : Carries predicted ft
  exits : ∃ exit_pc next_pc, ft.endPC = some exit_pc ∧ ft.predPC = some next_pc ∧
    ∀ pred, ft.bpuHistory = some pred → Exit p exit_pc next_pc pred.hist

section
variable [PCState PC] {p : Bac.Params PC σ η β} {predicted : List (Addr × StaticInst PC)}
  {ft : FetchTarget PC (Prediction PC η n)}

theorem Sound.extend (h : Sound p predicted ft) (more : List (Addr × StaticInst PC)) :
    Sound p (predicted ++ more) ft :=
  ⟨fun pred hpred => (h.carries pred hpred).extend more, h.exits⟩

theorem Sound.released (h : Sound p predicted ft) : Sound p predicted (ft.withHistory none) := by
  obtain ⟨exit_pc, next_pc, hend, hpred, -⟩ := h.exits
  refine ⟨?_, exit_pc, next_pc, hend, hpred, ?_⟩ <;> rintro pred ⟨⟩

end

/-- The predictions not yet undone or committed, youngest first, are `young`, which no fetch target
has got yet, those in fetch targets, `old`, taken out of the fetch target at the head, and those in
the unit's queue. -/
structure Inv [PCState PC] (p : Bac.Params PC σ η β) (tid : ThreadID) (s : BAC PC σ η β n)
    (young old : Option Nat := none) : Prop where
  trace : Trace s.trace
    (young.toList ++ targetStamps s.ftq.ftq ++ (old.toList ++ s.order.reduceOption))
  numbered : enters s.trace = List.range s.predicted.length
  queued : List.Forall₂ (Labels s.predicted) s.order (branches tid s.bpu)
  targets : ∀ ft ∈ s.ftq.ftq, Sound p s.predicted ft

variable [PCState PC] {p : Bac.Params PC σ η β} {tid : ThreadID} {s : BAC PC σ η β n}
  {young old : Option Nat}

theorem Inv.onUnit_squashes (h : Inv p tid s) (hempty : targetStamps s.ftq.ftq = [])
    {call : BPU PC σ η β n → BPU PC σ η β n} (hcall : Squashes tid s.bpu (call s.bpu)) :
    Inv p tid (s.onUnit tid call) := by
  obtain ⟨sns, hcalls, hbranches⟩ := hcall
  have hs := h.trace
  rw [hempty] at hs
  obtain ⟨htrace, henters, horder⟩ := follow_squashes sns s.order s.trace hs
  unfold BAC.onUnit
  simp only [hcalls, drop_left]
  refine ⟨?_, henters.trans h.numbered, ?_, h.targets⟩
  · rw [hempty]
    exact htrace
  · rw [horder, hbranches]
    exact forall₂_drop _ h.queued

theorem Inv.onUnit_commits (h : Inv p tid s) {call : BPU PC σ η β n → BPU PC σ η β n}
    (hcall : Commits tid s.bpu (call s.bpu)) : Inv p tid (s.onUnit tid call) := by
  obtain ⟨sns, hcalls, hbranches⟩ := hcall
  obtain ⟨htrace, henters, horder⟩ := follow_commits sns _ s.order s.trace h.trace
  unfold BAC.onUnit
  simp only [hcalls, drop_left]
  refine ⟨htrace, henters.trans h.numbered, ?_, h.targets⟩
  rw [horder, hbranches, h.queued.length_eq]
  exact forall₂_take _ h.queued

theorem Inv.insertPredictorHistory (h : Inv p tid s none old) (hist : PredictorHistory PC η n)
    (hlabel : Labels s.predicted old (branchOf hist)) :
    Inv p tid (s.insertPredictorHistory tid hist old) := by
  refine ⟨?_, h.numbered, ?_, h.targets⟩
  · have htrace := h.trace
    rwa [← reduceOption_singleton old, ← reduceOption_append] at htrace
  · have hqueue : branches tid (s.insertPredictorHistory tid hist old).bpu =
        branchOf hist :: branches tid s.bpu := by
      simp [branches, BAC.insertPredictorHistory, BPU.setQueue]
    rw [hqueue]
    exact .cons hlabel h.queued

theorem Inv.check (h : Inv p tid s young old) (condition : Bool) :
    Inv p tid (s.check condition) young old :=
  { h with }

theorem Inv.lockFTQ (h : Inv p tid s young old) : Inv p tid s.lockFTQ young old :=
  { h with }

theorem Inv.hand (h : Inv p tid s young) (hempty : targetStamps s.ftq.ftq = []) :
    Inv p tid s none young := by
  refine ⟨?_, h.numbered, h.queued, h.targets⟩
  have htrace := h.trace
  rw [hempty, append_nil] at htrace
  rwa [hempty]

section
variable [NeZero n]

theorem predictRecord_falls (p : BPredUnit.Params PC σ η β) (unit : BPU PC σ η β n)
    (inst : StaticInst PC) (seqNum : InstSeqNum) (pc : PC) :
    let hist := (BPredUnit.predictRecord p tid pc unit inst seqNum).2
    hist.predTaken = false → hist.targetProvider ≠ .ras →
      hist.target = some (hist.inst.advancePC pc) := by
  have hspec := predictRecord_spec p tid pc unit inst seqNum
  have hfollows := (Coherence.aimed_follows p tid pc unit inst seqNum).1
  obtain ⟨hprovider, htaken, htarget⟩ := Coherence.predict_outcome p tid pc unit inst seqNum
  intro hist hnot hras
  change hist.predTaken = _ at htaken
  change hist.target.getD pc = _ at htarget
  have hnone : (Coherence.aimed p tid pc unit inst seqNum).2.targetProvider = .noTarget := by
    by_contra hsome
    rw [if_neg hsome, hnot, hfollows.taken] at htaken
    rcases hfollows.notTaken htaken.symm with h | h
    · exact hsome h
    · exact hras (hprovider.trans h)
  rw [if_pos hnone] at htarget
  obtain ⟨target, heq⟩ := Option.isSome_iff_exists.mp hspec.target
  have heq' : hist.target = some target := heq
  rw [heq', Option.getD_some] at htarget
  rw [heq', htarget, show hist.inst = inst from hspec.inst_eq]

structure Made (inst : StaticInst PC) (pc next_pc : PC) (hist : PredictorHistory PC η n) :
    Prop where
  inst_eq : hist.inst = inst
  target : hist.target.isSome = true
  next : next_pc = hist.target.getD pc
  falls : hist.predTaken = false → hist.targetProvider ≠ .ras →
    hist.target = some (hist.inst.advancePC pc)

variable (p tid) in
theorem predict_made (inst : StaticInst PC) (seqNum : InstSeqNum) (pc : PC)
    (s : BAC PC σ η β n) :
    Made inst pc (Bac.predict p tid inst seqNum pc s).2.1
      (Bac.predict p tid inst seqNum pc s).1.hist := by
  have hspec := predictRecord_spec p.bpu tid pc s.bpu inst seqNum
  exact ⟨hspec.inst_eq, hspec.target, rfl, predictRecord_falls p.bpu s.bpu inst seqNum pc⟩

variable (p tid) in
theorem predict_predHist (inst : StaticInst PC) (seqNum : InstSeqNum) (pc : PC)
    (s : BAC PC σ η β n) :
    (Bac.predict p tid inst seqNum pc s).2.2.bpu.predHist = s.bpu.predHist :=
  (predictRecord_spec p.bpu tid pc s.bpu inst seqNum).predHist

theorem Inv.predict (h : Inv p tid s) (inst : StaticInst PC) (seqNum : InstSeqNum)
    (pc : PC) :
    let after := Bac.predict p tid inst seqNum pc s
    Inv p tid after.2.2 (some after.1.stamp) ∧
      Labels after.2.2.predicted (some after.1.stamp) (branchOf after.1.hist) := by
  have hspec := predictRecord_spec p.bpu tid pc s.bpu inst seqNum
  unfold Bac.predict
  generalize BPredUnit.predictRecord p.bpu tid pc s.bpu inst seqNum = w at hspec ⊢
  refine ⟨⟨.enter h.trace ?_, ?_, ?_, ?_⟩, ?_⟩
  · intro k hk
    rw [← Lib.Deque.mem_enters, h.numbered] at hk
    exact mem_range.mp hk
  · rw [Lib.Deque.enters_enter, h.numbered, length_append, length_singleton,
      range_succ]
  · have hqueue : branches tid w.1 = branches tid s.bpu := by rw [branches, hspec.predHist]; rfl
    rw [hqueue]
    exact h.queued.imp fun _ _ hlabel => hlabel.extend _
  · exact fun ft hft => (h.targets ft hft).extend _
  · rintro k ⟨⟩
    rw [branchOf, hspec.pc_eq, hspec.inst_eq]
    exact List.getElem?_concat_length ..

theorem Inv.predictExit (h : Inv p tid s) (staticInst : Option (StaticInst PC))
    (curFT : FetchTarget PC (Prediction PC η n)) (cur_pc : PC) (branch_found : Bool) :
    let after := Bac.predictExit p tid staticInst curFT.ftSeqNum cur_pc s
    Inv p tid after.2.2.2 (after.2.2.1.map (·.stamp)) ∧
      Sound p after.2.2.2.predicted ((curFT.withHistory after.2.2.1).finalize cur_pc branch_found
        after.1 (nextTarget p staticInst cur_pc after.1 after.2.1)) := by
  cases staticInst with
  | none =>
    refine ⟨h, ?_, _, _, rfl, rfl, ?_⟩ <;> rintro pred ⟨⟩
  | some inst =>
    obtain ⟨hinv, hlabel⟩ := h.predict inst curFT.ftSeqNum cur_pc
    have hmade := predict_made p tid inst curFT.ftSeqNum cur_pc s
    unfold Bac.predictExit
    dsimp only
    refine ⟨hinv, ?_, _, _, rfl, rfl, ?_⟩
    · rintro pred ⟨⟩
      exact hlabel
    · rintro pred ⟨⟩
      refine ⟨hmade.target, ?_, hmade.falls⟩
      rw [hmade.inst_eq, hmade.next]

omit [NeZero n] in
theorem Inv.enqueue (ft : FetchTarget PC (Prediction PC η n))
    (h : Inv p tid s (ft.bpuHistory.map (·.stamp))) (hsound : Sound p s.predicted ft)
    (next_pc : PC) : Inv p tid (Bac.enqueue p ft next_pc s) := by
  refine ⟨?_, h.numbered, h.queued, ?_⟩
  · change Trace s.trace (targetStamps (s.ftq.ftq ++ [ft]) ++ _)
    rw [targetStamps_concat]
    exact h.trace
  · intro ft' hmem
    rcases mem_append.mp hmem with hmem | hmem
    · exact h.targets ft' hmem
    · rwa [mem_singleton.mp hmem]

end

end

section
variable [PCState PC] (p : Bac.Params PC σ η β) (tid : ThreadID)

theorem squashBpuHistories_inv {s : BAC PC σ η β n} (h : Inv p tid s) :
    Inv p tid (squashBpuHistories p tid s) ∧
      targetStamps (squashBpuHistories p tid s).ftq.ftq = [] := by
  obtain ⟨htrace, henters⟩ := forAllBackward_trace p tid s.ftq.ftq (s.bpu, s.trace) _ h.trace
  obtain ⟨hpredHist, hfts⟩ := forAllBackward_frame p tid s.ftq.ftq (s.bpu, s.trace)
  unfold squashBpuHistories
  dsimp only
  generalize forAllBackward (squashTarget p tid) (s.bpu, s.trace) s.ftq.ftq = after
    at htrace henters hpredHist hfts ⊢
  have hempty : targetStamps after.2 = [] := by
    rw [hfts]
    exact targetStamps_released s.ftq.ftq
  refine ⟨⟨?_, henters.trans h.numbered, ?_, ?_⟩, hempty⟩
  · rw [hempty]
    exact htrace
  · have hqueue : branches tid after.1.1 = branches tid s.bpu := by rw [branches, hpredHist]; rfl
    rw [hqueue]
    exact h.queued
  · intro ft hmem
    rw [hfts] at hmem
    obtain ⟨ft', hmem', rfl⟩ := mem_map.mp hmem
    exact (h.targets ft' hmem').released

theorem squash_inv (new_pc : PC) {s : BAC PC σ η β n} (h : Inv p tid s)
    (hempty : targetStamps s.ftq.ftq = []) :
    Inv p tid (squash new_pc s) ∧ targetStamps (squash new_pc s).ftq.ftq = [] := by
  refine ⟨⟨?_, h.numbered, h.queued, fun ft hft => absurd hft not_mem_nil⟩, rfl⟩
  have htrace := h.trace
  rwa [hempty] at htrace

end

section
variable [PCState PC] [NeZero n] (p : Bac.Params PC σ η β) (tid : ThreadID)

variable {s : BAC PC σ η β n}

theorem checkAndUpdateBPUSignals_inv (signals : Signals PC) (h : Inv p tid s) :
    Inv p tid (checkAndUpdateBPUSignals p tid signals s).2 := by
  obtain ⟨s', hcommit, hout⟩ := checkAndUpdateBPUSignals_cases p tid signals s
  -- commits leave the fetch targets alone
  have hcommitted : Inv p tid s' := by
    rcases hcommit with rfl | ⟨call, hcommits, rfl⟩
    · exact h
    · exact h.onUnit_commits hcommits
  rcases hout with hout | ⟨new_pc, hout⟩
  · rwa [hout]
  · obtain ⟨hreleased, hreleasedEmpty⟩ := squashBpuHistories_inv p tid hcommitted
    obtain ⟨hsquashed, hempty⟩ := squash_inv p tid new_pc hreleased hreleasedEmpty
    rcases hout with hout | ⟨call, hsquashes, hout⟩
    · rwa [hout]
    · rw [hout]
      exact hsquashed.onUnit_squashes hempty (hsquashes _)

theorem checkSignalsAndUpdate_inv (signals : Signals PC) (h : Inv p tid s) :
    Inv p tid (checkSignalsAndUpdate p tid signals s) := by
  have hsignals := checkAndUpdateBPUSignals_inv p tid signals h
  unfold checkSignalsAndUpdate
  dsimp only
  split
  · exact hsignals
  split
  · obtain ⟨h', hempty⟩ := squashBpuHistories_inv p tid hsignals
    obtain ⟨⟨htrace, hnumbered, hqueued, htargets⟩, -⟩ := squash_inv p tid s.bacPC h' hempty
    exact ⟨htrace, hnumbered, hqueued, htargets⟩
  · exact { hsignals with }

theorem completeFetchTarget_inv (branch_found : Bool) (search_addr : Addr)
    (h : Inv p tid s) :
    Inv p tid (completeFetchTarget p tid branch_found search_addr s).2 := by
  have hcreated : Inv p tid (newFetchTarget s).2 :=
    { h with }
  unfold completeFetchTarget
  dsimp only
  generalize (if branch_found = true then p.btbGetInst (newFetchTarget s).2.bpu.btb tid
    (PCState.instAddr (PCState.set (newFetchTarget s).2.bacPC search_addr)) else none) = staticInst
  obtain ⟨hexit, hsound⟩ := (hcreated.check (!branch_found || staticInst.isSome)).predictExit
    staticInst (newFetchTarget s).1 (PCState.set (newFetchTarget s).2.bacPC search_addr)
    branch_found
  apply Inv.enqueue
  · exact { hexit with }
  · exact hsound

theorem generateLoop_inv (left num_taken : Nat) (h : Inv p tid s) :
    Inv p tid (generateLoop p tid left num_taken s) := by
  induction left generalizing num_taken s with
  | zero => exact h
  | succ left ih =>
    have hnext : Inv p tid (generateFetchTarget p tid s).2 :=
      completeFetchTarget_inv p tid _ _ h
    unfold generateLoop
    split
    · dsimp only
      split
      · exact { hnext with }
      · exact ih _ hnext
    · exact h

theorem tick_inv (signals : Signals PC) (h : Inv p tid s) :
    Inv p tid (tick p tid signals s) := by
  have hsignals := checkSignalsAndUpdate_inv p tid signals h
  unfold tick
  dsimp only
  split
  · exact generateLoop_inv p tid _ _ hsignals
  · exact hsignals

section
variable {p tid} {s : BAC PC σ η β n} {ft : FetchTarget PC (Prediction PC η n)}
  {rest : List (FetchTarget PC (Prediction PC η n))} {pred : Prediction PC η n}

omit [NeZero n] in
theorem Inv.release (h : Inv p tid s) (hhead : s.ftq.ftq = ft :: rest)
    (hft : ft.bpuHistory = some pred) : Inv p tid (s.setHistory none) none (some pred.stamp) := by
  have hfts : (s.setHistory none).ftq.ftq = ft.withHistory none :: rest := by
    simp only [BAC.setHistory, FTQ.modifyHead, hhead, modifyHead_cons]
  refine ⟨?_, h.numbered, h.queued, ?_⟩
  · have htrace := h.trace
    rw [hhead, targetStamps, hft] at htrace
    rw [hfts, targetStamps]
    simpa [BAC.setHistory, FetchTarget.withHistory] using htrace
  · intro ft' hmem
    rw [hfts] at hmem
    rcases mem_cons.mp hmem with rfl | hmem
    · exact (h.targets ft (by simp [hhead])).released
    · exact h.targets ft' (by simp [hhead, hmem])

omit [PCState PC] [NeZero n] in
private theorem setHistory_back (hhead : s.ftq.ftq = ft :: rest) (hft : ft.bpuHistory = some pred) :
    (s.setHistory none).setHistory (some pred) = s := by
  have hfts : (s.ftq.ftq.modifyHead (·.withHistory none)).modifyHead
      (·.withHistory (some pred)) = s.ftq.ftq := by
    rw [hhead, modifyHead_cons, ← hft]
    rfl
  unfold BAC.setHistory FTQ.modifyHead
  simp only [hfts]

end

variable {ft : FetchTarget PC (Prediction PC η n)}
  {rest : List (FetchTarget PC (Prediction PC η n))}

omit [NeZero n] in
theorem takeHistory_inv (inst : StaticInst PC) (pc : PC) (h : Inv p tid s)
    (hhead : s.ftq.ftq = ft :: rest) : let after := takeHistory p tid inst pc ft s
    Inv p tid after.2 none (after.1.map (·.stamp)) ∧
      ∀ pred, after.1 = some pred →
        Labels after.2.predicted (some pred.stamp) (branchOf pred.hist) := by
  unfold takeHistory
  split
  · refine ⟨h, ?_⟩
    rintro pred ⟨⟩
  · rename_i pred hexit
    have hft : ft.bpuHistory = some pred := by
      split at hexit
      · exact hexit
      · cases hexit
    dsimp only
    split
    · refine ⟨h.release hhead hft, ?_⟩
      rintro pred ⟨⟩
      exact (h.targets ft (by simp [hhead])).carries pred hft
    · rw [setHistory_back hhead hft]
      refine ⟨(squashBpuHistories_inv p tid h).1.lockFTQ, ?_⟩
      rintro pred ⟨⟩

theorem chooseHistory_inv (seqNum : InstSeqNum) (inst : StaticInst PC) (pc : PC)
    (h : Inv p tid s) (hhead : s.ftq.ftq = ft :: rest) :
    let after := chooseHistory p tid seqNum inst pc ft s
    Inv p tid after.2.2.2 none after.2.1 ∧
      Labels after.2.2.2.predicted after.2.1 (branchOf after.1) := by
  obtain ⟨htake, hlabel⟩ := takeHistory_inv p tid inst pc h hhead
  unfold chooseHistory
  generalize takeHistory p tid inst pc ft s = taken at htake hlabel ⊢
  obtain ⟨hist, s'⟩ := taken
  cases hist with
  | some pred => exact ⟨htake, hlabel pred rfl⟩
  | none =>
    dsimp only
    split
    · obtain ⟨hsquashed, hempty⟩ := squashBpuHistories_inv p tid htake
      generalize squashBpuHistories p tid s' = s'' at hsquashed hempty ⊢
      obtain ⟨hpredict, hlabel⟩ := hsquashed.lockFTQ.predict inst ft.ftSeqNum pc
      exact ⟨hpredict.hand hempty, hlabel⟩
    · refine ⟨{ htake with }, ?_⟩
      rintro k ⟨⟩

theorem updatePreDecode_inv (seqNum : InstSeqNum) (inst : StaticInst PC) (pc : PC)
    (h : Inv p tid s) (hhead : s.ftq.ftq = ft :: rest) :
    Inv p tid (updatePreDecode p tid seqNum inst pc ft s).2.2 := by
  obtain ⟨hchoose, hlabel⟩ := chooseHistory_inv p tid seqNum inst pc
    ((h.check (ft.inRange (PCState.instAddr pc))).check
      ((s.check (ft.inRange (PCState.instAddr pc))).ftq.readHead.any fun head =>
        ft.ftSeqNum == head.ftSeqNum)) hhead
  unfold updatePreDecode
  dsimp only
  generalize chooseHistory p tid seqNum inst pc ft _ = chosen at hchoose hlabel ⊢
  obtain ⟨hist, stamp, target_set, s'⟩ := chosen
  have hinsert := (hchoose.check (hist.type == getBranchType inst)).insertPredictorHistory
    { hist with seqNum } hlabel
  cases target_set with
  | some next_pc => exact hinsert
  | none =>
    dsimp only
    split
    · exact hinsert.check _
    · exact hinsert

theorem updatePC_inv (seqNum : InstSeqNum) (inst : StaticInst PC) (fetch_pc : PC)
    (h : Inv p tid s) (hhead : s.ftq.ftq = ft :: rest) :
    Inv p tid (updatePC p tid seqNum inst fetch_pc ft s).2.2.2 := by
  unfold updatePC
  dsimp only
  split
  · exact updatePreDecode_inv p tid seqNum inst fetch_pc h hhead
  · exact h

omit [NeZero n] in
theorem bacResteer_inv (h : Inv p tid s) : Inv p tid (bacResteer s) := by
  unfold bacResteer FTQ.invalidate
  split
  · exact h
  · exact { h with }

omit [NeZero n] in
theorem nextFetchTarget_inv (h : Inv p tid s) :
    Inv p tid (nextFetchTarget s) := by
  have hpop : Inv p tid { s with ftq := s.ftq.popHead.2 } := by
    refine ⟨?_, h.numbered, h.queued, fun ft hft => h.targets ft (popHead_subset s.ftq hft)⟩
    rw [popHead_targetStamps]
    exact h.trace
  unfold nextFetchTarget
  dsimp only
  split
  · exact hpop
  · exact bacResteer_inv p tid hpop

theorem fetchInst_inv (f : Fetched PC) (h : Inv p tid s) :
    Inv p tid (fetchInst p tid f s) := by
  unfold fetchInst
  split
  · exact h
  · rename_i curFT hread
    obtain ⟨rest, hhead⟩ := readHead_eq_some hread
    split
    · have hupdate := updatePC_inv p tid f.seqNum f.inst f.pc h hhead
      dsimp only
      split
      · exact nextFetchTarget_inv p tid hupdate
      · exact hupdate
    · exact bacResteer_inv p tid h

theorem step_inv (event : FrontEnd.Event PC) (h : Inv p tid s) :
    Inv p tid (step p tid s event) := by
  cases event with
  | tick signals => exact tick_inv p tid signals h
  | fetch fetched => exact fetchInst_inv p tid fetched h

theorem start_inv (cPred : σ) (btb : β) (hasRas hasIPred : Bool) (pc : PC) :
    Inv p tid (start p cPred btb hasRas hasIPred pc : BAC PC σ η β n) :=
  ⟨.nil, rfl, .nil, fun _ hft => absurd hft not_mem_nil⟩

theorem run_inv (events : List (FrontEnd.Event PC)) (h : Inv p tid s) :
    Inv p tid (run p tid s events) := by
  induction events generalizing s with
  | nil => exact h
  | cons event events ih => exact ih (step_inv p tid event h)

end

end Gem5Core.O3.FrontEndInv
