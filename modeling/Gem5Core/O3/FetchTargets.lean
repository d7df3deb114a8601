import Gem5Core.O3.Stamps
import Gem5Core.Pred.Coherence

/-! What the branch address calculation stage puts into the fetch target queue: a chain in which
each fetch target ends where its scan of the branch target buffer does, and starts where its
predecessor is predicted to go. -/
namespace Gem5Core.O3.FetchTargets
open Gem5Core.Pred Pred.Branch Ftq Bac FrontEnd Stamps List PCState BPredUnit

variable {PC σ η β : Type} {n : Nat}

section
variable (p : Bac.Params PC σ η β) (tid : ThreadID) (btb : β) (start_addr : Addr)

def distance (k : Nat) : Nat := k * p.minInstSize.toNat

def scanned (k : Nat) : Addr := start_addr + BitVec.ofNat 64 (distance p k)

/-- The scan may stop at its `k`-th address, and at none before it. -/
structure Ends (k : Nat) : Prop where
  stops : p.btbValid btb tid (scanned p start_addr k) = true ∨
    p.fetchTargetWidth.toNat ≤ distance p k
  passes : ∀ j < k, p.btbValid btb tid (scanned p start_addr j) = false ∧
    distance p j < p.fetchTargetWidth.toNat

theorem distance_succ (k : Nat) : distance p (k + 1) = distance p k + p.minInstSize.toNat :=
  Nat.succ_mul k _

private theorem scanned_zero : scanned p start_addr 0 = start_addr := by
  simp [scanned, distance]

private theorem scanned_succ (k : Nat) :
    scanned p start_addr (k + 1) = scanned p start_addr k + p.minInstSize.setWidth 64 := by
  have hmin : p.minInstSize.setWidth 64 = BitVec.ofNat 64 p.minInstSize.toNat :=
    BitVec.eq_of_toNat_eq (by simp)
  rw [scanned, scanned, distance_succ, hmin, BitVec.ofNat_add, BitVec.add_assoc]

private theorem scanned_sub {k : Nat} (hpasses : ∀ j < k, distance p j < p.fetchTargetWidth.toNat) :
    (scanned p start_addr k - start_addr).toNat = distance p k := by
  have hfits : distance p k < 2 ^ 64 := by
    cases k with
    | zero => simp [distance]
    | succ k =>
      have hk := hpasses k (Nat.lt_succ_self k)
      rw [distance_succ]
      omega
  rw [scanned, BitVec.add_comm, BitVec.add_sub_cancel]
  exact Nat.mod_eq_of_lt hfits

theorem search_ends (hmin : p.minInstSize ≠ 0) (fuel k : Nat)
    (hpasses : ∀ j < k, p.btbValid btb tid (scanned p start_addr j) = false ∧
      distance p j < p.fetchTargetWidth.toNat)
    (hfuel : p.fetchTargetWidth.toNat - distance p k < fuel) :
    ∃ stop, Ends p tid btb start_addr stop ∧
      search p tid btb start_addr fuel (scanned p start_addr k) =
        (p.btbValid btb tid (scanned p start_addr stop), scanned p start_addr stop) := by
  induction fuel generalizing k with
  | zero => exact absurd hfuel (Nat.not_lt_zero _)
  | succ fuel ih =>
    unfold search
    rw [scanned_sub p start_addr fun j hj => (hpasses j hj).2]
    by_cases hvalid : p.btbValid btb tid (scanned p start_addr k) = true
    · refine ⟨k, ⟨.inl hvalid, hpasses⟩, ?_⟩
      rw [if_pos hvalid, hvalid]
    have hinvalid := Bool.eq_false_iff.mpr hvalid
    by_cases hwidth : p.fetchTargetWidth.toNat ≤ distance p k
    · refine ⟨k, ⟨.inr hwidth, hpasses⟩, ?_⟩
      rw [if_neg hvalid, if_pos hwidth, hinvalid]
    · rw [if_neg hvalid, if_neg hwidth, ← scanned_succ]
      apply ih
      · intro j hj
        rcases Nat.lt_succ_iff_lt_or_eq.mp hj with hj | rfl
        · exact hpasses j hj
        · exact ⟨hinvalid, Nat.lt_of_not_le hwidth⟩
      · have hpos : 0 < p.minInstSize.toNat := by bv_omega
        rw [distance_succ]
        omega

end

section
variable [PCState PC] (p : Bac.Params PC σ η β) (tid : ThreadID)

/-- The branch target buffer that the next scan reads: the prediction of an exit
branch looks it up. -/
def lookedUp {ρ : Type} (btb : β) (ft : FetchTarget PC ρ) : β :=
  match if ft.is_branch then p.btbGetInst btb tid ft.endAddress else none with
  | none => btb
  | some inst => (p.bpu.btb.lookup btb tid ft.endAddress (getBranchType inst)).2

/-- The fetch target of a scan from `pc`, predicted to be followed by `next_pc`. -/
structure Target {ρ : Type} (btb : β) (pc : PC) (ft : FetchTarget PC ρ) (next_pc : PC) :
    Prop where
  startPC : ft.startPC = pc
  endPC : ∃ k, Ends p tid btb (instAddr pc) k ∧
    ft.endPC = some (set pc (scanned p (instAddr pc) k)) ∧
    ft.is_branch = p.btbValid btb tid (scanned p (instAddr pc) k)
  predPC : ft.predPC = some next_pc

/-- Fetch targets made one after the other, the first of them at `pc`; `last` is where
one more would start. -/
inductive Chain {ρ : Type} : β → PC → List (FetchTarget PC ρ) → (last : PC) → Prop
  | nil (btb : β) (pc : PC) : Chain btb pc [] pc
  | cons {btb : β} {pc next_pc last : PC} {ft : FetchTarget PC ρ}
      {fts : List (FetchTarget PC ρ)} (head : Target p tid btb pc ft next_pc)
      (tail : Chain (lookedUp p tid btb ft) next_pc fts last) : Chain btb pc (ft :: fts) last

/-- `new` are the fetch targets made between `s` and `s'`, at most `left` of them, at most
`takenLeft` predicted taken. -/
structure Generation (left takenLeft : Nat) (s s' : BAC PC σ η β n)
    (new : List (FetchTarget PC (Prediction PC η n))) : Prop where
  appended : s'.ftq.ftq = s.ftq.ftq ++ new
  chain : Chain p tid s.bpu.btb s.bacPC new s'.bacPC
  few : new.length ≤ left
  fewTaken : new.countP (·.taken) ≤ takenLeft
  progress : 0 < left → 0 < takenLeft → new ≠ []
  stops : new.length = left ∨ new.countP (·.taken) = takenLeft ∨
    p.numFTQEntries ≤ s'.ftq.ftq.length

structure Iteration (s : BAC PC σ η β n) (out : Bool × BAC PC σ η β n)
    (ft : FetchTarget PC (Prediction PC η n)) : Prop where
  target : Target p tid s.bpu.btb s.bacPC ft out.2.bacPC
  taken : ft.taken = out.1
  ftq : out.2.ftq = s.ftq.insert p.numFTQEntries ft
  btb : out.2.bpu.btb = lookedUp p tid s.bpu.btb ft

variable [NeZero n]

theorem predictRecord_btb (bpu : BPredUnit.Params PC σ η β) (pc : PC) (unit : BPU PC σ η β n)
    (inst : StaticInst PC) (seqNum : InstSeqNum) :
    (predictRecord bpu tid pc unit inst seqNum).1.btb =
      (bpu.btb.lookup unit.btb tid (instAddr pc) (getBranchType inst)).2 := by
  obtain ⟨-, hinst, -, hbtb, -⟩ := Coherence.direction_start bpu tid pc unit inst seqNum
  unfold predictRecord
  generalize direction bpu tid pc _ = w at hinst hbtb
  have hlookup : (targetFromBTB bpu tid pc w).1.btb =
      (bpu.btb.lookup unit.btb tid (instAddr pc) (getBranchType inst)).2 := by
    rw [← hbtb, ← hinst]
    unfold targetFromBTB
    dsimp only
    split
    · rfl
    · split <;> rfl
  generalize targetFromBTB bpu tid pc w = w at hlookup
  have hras : (targetFromRAS bpu tid pc w).1.btb = w.1.btb := by
    unfold targetFromRAS
    repeat' split
    all_goals rfl
  generalize targetFromRAS bpu tid pc w = w' at hras
  have hindirect : (targetFromIndirect bpu tid pc w').1.btb = w'.1.btb := by
    unfold targetFromIndirect
    repeat' split
    all_goals rfl
  have hupdate : ∀ w : Work PC σ η β n,
      (speculativeUpdate bpu tid pc w).1.btb = w.1.btb := by
    intro w
    unfold speculativeUpdate onIPred
    dsimp only
    split <;> rfl
  rw [hupdate]
  exact hindirect.trans (hras.trans hlookup)

theorem predictExit_spec (staticInst : Option (StaticInst PC)) (ftNum : FTSeqNum) (cur_pc : PC)
    (s : BAC PC σ η β n) :
    let after := (predictExit p tid staticInst ftNum cur_pc s).2.2.2
    after.ftq = s.ftq ∧
      after.bpu.btb = match staticInst with
        | none => s.bpu.btb
        | some inst =>
          (p.bpu.btb.lookup s.bpu.btb tid (instAddr cur_pc) (getBranchType inst)).2 := by
  cases staticInst with
  | none => exact ⟨rfl, rfl⟩
  | some inst => exact ⟨rfl, predictRecord_btb tid p.bpu cur_pc s.bpu inst ftNum⟩

theorem completeFetchTarget_iteration (s : BAC PC σ η β n) {k : Nat}
    (hends : Ends p tid s.bpu.btb (instAddr s.bacPC) k) :
    let stop := scanned p (instAddr s.bacPC) k
    ∃ ft, Iteration p tid s
      (completeFetchTarget p tid (p.btbValid s.bpu.btb tid stop) stop s) ft := by
  intro stop
  unfold completeFetchTarget
  dsimp only
  generalize hinst : (if p.btbValid s.bpu.btb tid stop = true then
    p.btbGetInst (newFetchTarget s).2.bpu.btb tid
      (instAddr (set (newFetchTarget s).2.bacPC stop)) else none) = staticInst
  obtain ⟨hftq, hbtb⟩ := predictExit_spec p tid staticInst (newFetchTarget s).1.ftSeqNum
    (set (newFetchTarget s).2.bacPC stop)
    ((newFetchTarget s).2.check (!p.btbValid s.bpu.btb tid stop || staticInst.isSome))
  apply Exists.intro
  constructor
  case ftq => exact congrArg (fun q => FTQ.insert q p.numFTQEntries _) hftq
  case target => exact ⟨rfl, ⟨k, hends, rfl, rfl⟩, rfl⟩
  case taken => rfl
  case btb =>
    refine hbtb.trans ?_
    rw [← hinst]
    rfl

theorem generateFetchTarget_iteration (hmin : p.minInstSize ≠ 0) (s : BAC PC σ η β n) :
    ∃ ft, Iteration p tid s (generateFetchTarget p tid s) ft := by
  obtain ⟨k, hends, hsearch⟩ := search_ends p tid s.bpu.btb (instAddr s.bacPC) hmin
    (p.fetchTargetWidth.toNat + 1) 0 (fun j hj => absurd hj (Nat.not_lt_zero j)) (by omega)
  rw [scanned_zero] at hsearch
  unfold generateFetchTarget
  dsimp only
  rw [hsearch]
  exact completeFetchTarget_iteration p tid s hends

theorem generateLoop_generation (hmin : p.minInstSize ≠ 0) (left num_taken : Nat)
    (s : BAC PC σ η β n) :
    ∃ new, Generation p tid left (p.maxTakenPredPerCycle - num_taken) s
      (generateLoop p tid left num_taken s) new := by
  induction left generalizing num_taken s with
  | zero =>
    exact ⟨[], (append_nil _).symm, .nil _ _, le_rfl, Nat.zero_le _,
      fun h => absurd h (Nat.lt_irrefl 0), .inl rfl⟩
  | succ left ih =>
    unfold generateLoop
    split
    · rename_i htaken
      obtain ⟨ft, h⟩ := generateFetchTarget_iteration p tid hmin s
      generalize generateFetchTarget p tid s = out at h ⊢
      have hfts : out.2.ftq.ftq = s.ftq.ftq ++ [ft] := congrArg FTQ.ftq h.ftq
      have hcount : ∀ fts, List.countP (·.taken) (ft :: fts) =
          List.countP (·.taken) fts + if out.1 = true then 1 else 0 := by
        intro fts
        rw [countP_cons, h.taken]
      have hone : (if out.1 = true then 1 else 0) ≤ p.maxTakenPredPerCycle - num_taken := by
        split <;> omega
      dsimp only
      split
      · -- the queue became full
        rename_i hfull
        refine ⟨[ft], hfts, .cons h.target (.nil _ _), Nat.succ_pos left, ?_, by simp,
          .inr (.inr (of_decide_eq_true hfull))⟩
        rw [hcount, countP_nil, Nat.zero_add]
        exact hone
      · have hbudget :
            p.maxTakenPredPerCycle - (if out.1 = true then num_taken + 1 else num_taken) =
              p.maxTakenPredPerCycle - num_taken - if out.1 = true then 1 else 0 := by
          split <;> omega
        obtain ⟨new, happended, hchain, hfew, hfewTaken, -, hstops⟩ :=
          ih (if out.1 = true then num_taken + 1 else num_taken) out.2
        rw [h.btb] at hchain
        refine ⟨ft :: new, ?_, .cons h.target hchain, Nat.succ_le_succ hfew, ?_, by simp, ?_⟩
        · rw [happended, hfts, append_assoc]
          rfl
        · rw [hcount]
          omega
        · rw [hcount, length_cons]
          omega
    · rename_i htaken
      have hnone : p.maxTakenPredPerCycle - num_taken = 0 := by omega
      rw [hnone]
      exact ⟨[], (append_nil _).symm, .nil _ _, Nat.zero_le _, le_rfl,
        fun _ h => absurd h (Nat.lt_irrefl 0), .inr (.inl rfl)⟩

end

section

def runsOn : ThreadStatus → Bool
  | .running | .squashing | .ftqLocked => true
  | .idle | .blocked | .ftqFull => false

structure Roomy (p : Bac.Params PC σ η β) (s : BAC PC σ η β n) : Prop where
  asserted : s.ftq.asserted = true
  fits : s.ftq.ftq.length ≤ p.numFTQEntries
  room : runsOn s.bacStatus = true → s.ftq.ftq.length < p.numFTQEntries

def outline (s : BAC PC σ η β n) : Nat × Bool × ThreadStatus :=
  (s.ftq.ftq.length, s.ftq.asserted, s.bacStatus)

theorem Roomy.of_outline {p : Bac.Params PC σ η β} {s s' : BAC PC σ η β n} (h : Roomy p s)
    (houtline : outline s' = outline s) : Roomy p s' := by
  obtain ⟨hlength, hasserted, hstatus⟩ : s'.ftq.ftq.length = s.ftq.ftq.length ∧
      s'.ftq.asserted = s.ftq.asserted ∧ s'.bacStatus = s.bacStatus := by
    simpa [outline] using houtline
  refine ⟨?_, ?_, ?_⟩
  · rw [hasserted, h.asserted]
  · rw [hlength]
    exact h.fits
  · rw [hlength, hstatus]
    exact h.room

section
variable (p : Bac.Params PC σ η β) (tid : ThreadID) (s : BAC PC σ η β n)

@[simp] theorem outline_check (condition : Bool) : outline (s.check condition) = outline s := rfl

@[simp] theorem outline_insertPredictorHistory (hist : PredictorHistory PC η n)
    (stamp : Option Nat) : outline (s.insertPredictorHistory tid hist stamp) = outline s := rfl

@[simp] theorem outline_lockFTQ : outline s.lockFTQ = outline s := rfl

@[simp] theorem outline_setHistory (bpuHistory : Option (Prediction PC η n)) :
    outline (s.setHistory bpuHistory) = outline s := by
  simp [outline, BAC.setHistory, FTQ.modifyHead]

theorem squashBpuHistories_ftq :
    (squashBpuHistories p tid s).ftq =
      { s.ftq with ftq := s.ftq.ftq.map (·.withHistory none) } :=
  congrArg (fun fts => { s.ftq with ftq := fts })
    (forAllBackward_frame p tid s.ftq.ftq (s.bpu, s.trace)).2

@[simp] theorem outline_squashBpuHistories :
    outline (squashBpuHistories p tid s) = outline s := by
  have hstatus : (squashBpuHistories p tid s).bacStatus = s.bacStatus := rfl
  rw [outline, squashBpuHistories_ftq, length_map]
  rfl

variable [PCState PC]

private theorem outline_takeHistory (inst : StaticInst PC) (pc : PC)
    (ft : FetchTarget PC (Prediction PC η n)) :
    outline (takeHistory p tid inst pc ft s).2 = outline s := by
  unfold takeHistory
  split
  · rfl
  · split <;> simp

variable [NeZero n]

private theorem outline_predict (inst : StaticInst PC) (seqNum : InstSeqNum) (pc : PC) :
    outline (Bac.predict p tid inst seqNum pc s).2.2 = outline s := rfl

private theorem outline_chooseHistory (seqNum : InstSeqNum) (inst : StaticInst PC) (pc : PC)
    (ft : FetchTarget PC (Prediction PC η n)) :
    outline (chooseHistory p tid seqNum inst pc ft s).2.2.2 = outline s := by
  have htake := outline_takeHistory p tid s inst pc ft
  unfold chooseHistory
  generalize takeHistory p tid inst pc ft s = taken at htake ⊢
  obtain ⟨pred, s'⟩ := taken
  cases pred with
  | some pred => exact htake
  | none =>
    dsimp only
    split
    · rw [outline_predict, outline_lockFTQ, outline_squashBpuHistories]
      exact htake
    · exact htake

private theorem outline_updatePC (seqNum : InstSeqNum) (inst : StaticInst PC) (fetch_pc : PC)
    (ft : FetchTarget PC (Prediction PC η n)) :
    outline (updatePC p tid seqNum inst fetch_pc ft s).2.2.2 = outline s := by
  have hdecode : outline (updatePreDecode p tid seqNum inst fetch_pc ft s).2.2 = outline s := by
    unfold updatePreDecode
    dsimp only
    split
    · simp [outline_chooseHistory]
    · split <;> simp [outline_chooseHistory]
  unfold updatePC
  dsimp only
  split
  · exact hdecode
  · rfl

end

section
variable {p : Bac.Params PC σ η β} {s : BAC PC σ η β n}

theorem Roomy.squashed (h : Roomy p s) (tid : ThreadID) :
    (squashBpuHistories p tid s).ftq.squash = { asserted := true } := by
  rw [squashBpuHistories_ftq, FTQ.squash]
  simp [h.asserted, FetchTarget.withHistory]

variable (hentries : 0 < p.numFTQEntries)
include hentries

theorem Roomy.squash (h : Roomy p s) (tid : ThreadID) (new_pc : PC) :
    Roomy p (Bac.squash new_pc (squashBpuHistories p tid s)) := by
  have hftq : (Bac.squash new_pc (squashBpuHistories p tid s)).ftq = { asserted := true } :=
    h.squashed tid
  refine ⟨?_, ?_, fun _ => ?_⟩
  · rw [hftq]
  · exact Nat.zero_le _
  · exact hentries

variable [PCState PC] [NeZero n]

theorem Roomy.checkAndUpdateBPUSignals (h : Roomy p s) (tid : ThreadID) (signals : Signals PC) :
    Roomy p (Bac.checkAndUpdateBPUSignals p tid signals s).2 := by
  obtain ⟨s', hcommit, hout⟩ := checkAndUpdateBPUSignals_cases p tid signals s
  have hcommitted : Roomy p s' := by
    rcases hcommit with rfl | ⟨call, -, rfl⟩
    · exact h
    · exact h.of_outline rfl
  rcases hout with hout | ⟨new_pc, hout⟩
  · rwa [hout]
  · have hsquashed := hcommitted.squash hentries tid new_pc
    rcases hout with hout | ⟨call, -, hout⟩
    · rwa [hout]
    · rw [hout]
      exact hsquashed.of_outline rfl

omit hentries [PCState PC] [NeZero n] in
theorem Roomy.nextStatus (h : Roomy p s) (signals : Signals PC) :
    Roomy p { s with bacStatus := Bac.nextStatus p signals s } := by
  refine ⟨h.asserted, h.fits, fun hruns => ?_⟩
  by_contra hfull
  have hfull' : s.ftq.isFull p.numFTQEntries = true := decide_eq_true (Nat.le_of_not_lt hfull)
  have hstatus : runsOn s.bacStatus = false := by
    by_contra hruns
    exact hfull (h.room (Bool.eq_true_of_not_eq_false hruns))
  unfold Bac.nextStatus at hruns
  -- a full queue leaves only statuses that do not run on to a stage that did not
  cases hcase : s.bacStatus <;> simp [hcase, runsOn] at hstatus hruns <;> grind

theorem Roomy.checkSignalsAndUpdate (h : Roomy p s) (tid : ThreadID) (signals : Signals PC) :
    Roomy p (Bac.checkSignalsAndUpdate p tid signals s) := by
  have hsignals := h.checkAndUpdateBPUSignals hentries tid signals
  unfold Bac.checkSignalsAndUpdate
  dsimp only
  split
  · exact hsignals
  split
  · rw [hsignals.squashed tid]
    exact ⟨rfl, Nat.zero_le _, fun _ => hentries⟩
  · exact hsignals.nextStatus signals

omit hentries in
theorem Roomy.generateLoop (hmin : p.minInstSize ≠ 0) (tid : ThreadID) (left num_taken : Nat)
    (h : Roomy p s) (hroom : s.ftq.ftq.length < p.numFTQEntries) :
    Roomy p (Bac.generateLoop p tid left num_taken s) := by
  induction left generalizing num_taken s with
  | zero => exact h
  | succ left ih =>
    unfold Bac.generateLoop
    split
    · obtain ⟨ft, hiter⟩ := generateFetchTarget_iteration p tid hmin s
      generalize generateFetchTarget p tid s = out at hiter ⊢
      have hasserted : out.2.ftq.asserted = true := by
        rw [hiter.ftq, FTQ.insert, h.asserted, decide_eq_true hroom]
        rfl
      have hfits : out.2.ftq.ftq.length ≤ p.numFTQEntries := by
        rw [hiter.ftq, FTQ.insert, length_append]
        exact hroom
      dsimp only
      split
      · exact ⟨hasserted, hfits, fun hruns => by cases hruns⟩
      · rename_i hnotFull
        have hroom' : out.2.ftq.ftq.length < p.numFTQEntries :=
          Nat.lt_of_not_le fun hle => hnotFull (decide_eq_true hle)
        exact ih _ ⟨hasserted, hfits, fun _ => hroom'⟩ hroom'
    · exact h

theorem Roomy.tick (hmin : p.minInstSize ≠ 0) (h : Roomy p s) (tid : ThreadID)
    (signals : Signals PC) : Roomy p (Bac.tick p tid signals s) := by
  have hchecked := h.checkSignalsAndUpdate hentries tid signals
  unfold Bac.tick
  dsimp only
  split
  · rename_i hrunning
    refine hchecked.generateLoop hmin tid _ _ (hchecked.room ?_)
    rw [hrunning]
    rfl
  · exact hchecked

omit hentries [PCState PC] [NeZero n] in
theorem Roomy.bacResteer (h : Roomy p s) : Roomy p (FrontEnd.bacResteer s) := by
  apply h.of_outline
  unfold FrontEnd.bacResteer FTQ.invalidate
  split <;> rfl

omit hentries [PCState PC] [NeZero n] in
theorem Roomy.nextFetchTarget (h : Roomy p s) (hhead : s.ftq.ftq ≠ []) :
    Roomy p (FrontEnd.nextFetchTarget s) := by
  obtain ⟨hasserted, hlength⟩ : s.ftq.popHead.2.asserted = true ∧
      s.ftq.popHead.2.ftq.length ≤ s.ftq.ftq.length := by
    obtain ⟨ft, rest, hfts⟩ := exists_cons_of_ne_nil hhead
    rw [FTQ.popHead, hfts]
    dsimp only
    repeat' split
    all_goals simp [h.asserted]
  have hpop : Roomy p { s with ftq := s.ftq.popHead.2 } :=
    ⟨hasserted, hlength.trans h.fits, fun hruns => hlength.trans_lt (h.room hruns)⟩
  unfold FrontEnd.nextFetchTarget
  dsimp only
  split
  · exact hpop
  · exact hpop.bacResteer

omit hentries in
theorem Roomy.fetchInst (h : Roomy p s) (tid : ThreadID) (f : Fetched PC) :
    Roomy p (FrontEnd.fetchInst p tid f s) := by
  unfold FrontEnd.fetchInst
  split
  · exact h
  · rename_i curFT hread
    split
    · have houtline := outline_updatePC p tid s f.seqNum f.inst f.pc curFT
      dsimp only
      generalize updatePC p tid f.seqNum f.inst f.pc curFT s = out at houtline ⊢
      have hupdate : Roomy p out.2.2.2 := h.of_outline houtline
      split
      · -- the head that was read is still there
        obtain ⟨rest, hhead⟩ := readHead_eq_some hread
        have hlength : out.2.2.2.ftq.ftq.length = (curFT :: rest).length :=
          hhead ▸ congrArg Prod.fst houtline
        exact hupdate.nextFetchTarget (ne_nil_of_length_eq_add_one hlength)
      · exact hupdate
    · exact h.bacResteer

theorem Roomy.run (hmin : p.minInstSize ≠ 0) (tid : ThreadID) (events : List (Event PC))
    (h : Roomy p s) : Roomy p (FrontEnd.run p tid s events) := by
  induction events generalizing s with
  | nil => exact h
  | cons event events ih =>
    apply ih
    cases event with
    | tick signals => exact h.tick hentries hmin tid signals
    | fetch fetched => exact h.fetchInst tid fetched

end

theorem start_roomy [PCState PC] [NeZero n] {p : Bac.Params PC σ η β}
    (hentries : 0 < p.numFTQEntries) (cPred : σ) (btb : β) (hasRas hasIPred : Bool) (pc : PC) :
    Roomy p (start p cPred btb hasRas hasIPred pc : BAC PC σ η β n) :=
  ⟨rfl, Nat.zero_le _, fun _ => hentries⟩

end

/-- However the cycles of the stage, the instructions that fetch takes and the
squashes follow each other, the queue holds what it has room for and no assertion on
it fails. Whatever the queue and the branch target buffer hold, a generation step
makes a chain of fetch targets within the limits of a cycle. -/
theorem targets_generated [PCState PC] [NeZero n] (p : Bac.Params PC σ η β) (tid : ThreadID)
    (hentries : 0 < p.numFTQEntries) (hmin : p.minInstSize ≠ 0) :
    (∀ (cPred : σ) (btb : β) (hasRas hasIPred : Bool) (pc : PC) (events : List (Event PC)),
      let s : BAC PC σ η β n := run p tid (start p cPred btb hasRas hasIPred pc) events
      s.ftq.ftq.length ≤ p.numFTQEntries ∧ s.ftq.asserted = true) ∧
    ∀ s : BAC PC σ η β n, ∃ new,
      Generation p tid p.maxFTPerCycle p.maxTakenPredPerCycle s (generateFetchTargets p tid s)
        new := by
  refine ⟨?_, fun s => generateLoop_generation p tid hmin p.maxFTPerCycle 0 s⟩
  intro cPred btb hasRas hasIPred pc events s
  have hstart : Roomy p (start p cPred btb hasRas hasIPred pc : BAC PC σ η β n) :=
    start_roomy hentries cPred btb hasRas hasIPred pc
  have hroomy := hstart.run hentries hmin tid events
  exact ⟨hroomy.fits, hroomy.asserted⟩

def oneBranch : Bac.Params Addr Unit Unit Unit :=
  fixedTargets false [(0x108, fourByteInst false false true, 0x200)]

def atStart {n : Nat} [NeZero n] : BAC Addr Unit Unit Unit n :=
  start oneBranch () () true true 0x100

def threeCycles : List (Event Addr) := [.tick quiet, .tick quiet, .tick quiet]

/-- Two of the cycles fill the queue, and the third one adds nothing to it. -/
theorem targets_generated_full :
    0 < oneBranch.numFTQEntries ∧ oneBranch.minInstSize ≠ 0 ∧
      (run oneBranch 0 (atStart (n := 8)) threeCycles).ftq.ftq.length ≤ oneBranch.numFTQEntries ∧
      (run oneBranch 0 (atStart (n := 8)) threeCycles).ftq.asserted = true ∧
      (run oneBranch 0 (atStart (n := 8)) threeCycles).ftq.ftq.length = oneBranch.numFTQEntries ∧
      (∃ new, Generation oneBranch 0 4 1 (atStart (n := 8))
        (generateFetchTargets oneBranch 0 atStart) new) ∧
      (generateFetchTargets oneBranch 0 (atStart (n := 8))).ftq.ftq.map
          (fun ft => (ft.startPC, ft.endPC, ft.predPC)) =
        [(0x100, some 0x108, some 0x10c), (0x10c, some 0x12c, some 0x130),
          (0x130, some 0x150, some 0x154), (0x154, some 0x174, some 0x178)] := by
  have hentries : 0 < oneBranch.numFTQEntries := by decide
  have hmin : oneBranch.minInstSize ≠ 0 := by decide
  obtain ⟨hrun, hgeneration⟩ := targets_generated (n := 8) oneBranch 0 hentries hmin
  obtain ⟨hfits, hasserted⟩ := hrun () () true true 0x100 threeCycles
  exact ⟨hentries, hmin, hfits, hasserted, by decide +kernel, hgeneration atStart,
    by decide +kernel⟩

end Gem5Core.O3.FetchTargets
