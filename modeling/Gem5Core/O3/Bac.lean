import Gem5Core.O3.Ftq
import Gem5Core.Pred.BPredUnit

/-! The branch address calculation stage (`cpu/o3/bac.cc`) of the decoupled front end, for its only
thread. It searches the branch target buffer, predicts branches into fetch targets and passes the
signals of the later stages on to the branch prediction unit. -/
namespace Gem5Core.O3.Bac
open Gem5Core.Pred Pred.Branch Ftq Base.IntMath Lib.Deque PCState
open Pred.BPredUnit (BPU PredictorHistory)

/-- The last three fields are the calls that only this stage makes. -/
structure Params (PC σ η β : Type) where
  bpu : BPredUnit.Params PC σ η β
  branchPlaceholder : σ → ThreadID → Addr → (uncond : Bool) → Option η → σ × Option η
  btbValid : β → ThreadID → Addr → Bool
  btbGetInst : β → ThreadID → Addr → Option (StaticInst PC)
  numFTQEntries : Nat
  fetchTargetWidth : Unsigned
  minInstSize : Unsigned
  maxFTPerCycle : Nat
  maxTakenPredPerCycle : Nat

/-- A record that waits in a fetch target. `stamp` is history: how many
predictions were made before this one. -/
structure Prediction (PC η : Type) (n : Nat) where
  hist : PredictorHistory PC η n
  stamp : Nat

inductive ThreadStatus where
  | idle
  | running
  | squashing
  | blocked
  | ftqFull
  | ftqLocked
deriving DecidableEq

/-- The last three fields are history: the branches predicted so far, the stamp of each record in
`predHist` (none for a placeholder), and the predictions, commits and calls of `squashHistory` by
stamp. -/
structure BAC (PC σ η β : Type) (n : Nat) where
  bpu : BPU PC σ η β n
  ftq : FTQ PC (Prediction PC η n) := {}
  bacStatus : ThreadStatus := .running
  bacPC : PC
  globalFTSeqNum : FTSeqNum := 1
  asserted : Bool := true
  sizeKnown : Bool := true
  predicted : List (Addr × StaticInst PC) := []
  order : List (Option Nat) := []
  trace : List (Event Nat) := []

variable {PC σ η β : Type} {n : Nat}

namespace BAC

def check (s : BAC PC σ η β n) (condition : Bool) : BAC PC σ η β n :=
  { s with asserted := s.asserted && condition }

/-- What a call of the unit does to the stamps of its records: a squash takes the youngest, a commit
the oldest. -/
def follow : List (Option Nat) × List (Event Nat) → Event InstSeqNum →
    List (Option Nat) × List (Event Nat)
  | (order, trace), .enter _ => (order, trace)
  | (order, trace), .squash _ => (order.tail, trace ++ (order.head?.join.map .squash).toList)
  | (order, trace), .commit _ =>
      (order.dropLast, trace ++ (order.getLast?.join.map .commit).toList)

def onUnit (s : BAC PC σ η β n) (tid : ThreadID)
    (call : BPU PC σ η β n → BPU PC σ η β n) : BAC PC σ η β n :=
  let bpu := call s.bpu
  let (order, trace) :=
    ((bpu.trace tid).drop (s.bpu.trace tid).length).foldl follow (s.order, s.trace)
  { s with bpu, order, trace }

def insertPredictorHistory (s : BAC PC σ η β n) (tid : ThreadID)
    (hist : PredictorHistory PC η n) (stamp : Option Nat) : BAC PC σ η β n :=
  { s with
    bpu := s.bpu.setQueue tid (hist :: s.bpu.predHist tid)
    order := stamp :: s.order }

def lockFTQ (s : BAC PC σ η β n) : BAC PC σ η β n := { s with ftq := s.ftq.lock }

def setHistory (s : BAC PC σ η β n) (bpuHistory : Option (Prediction PC η n)) :
    BAC PC σ η β n :=
  { s with ftq := s.ftq.modifyHead (·.withHistory bpuHistory) }

end BAC

section
variable (p : Params PC σ η β) (tid : ThreadID)

def squashTarget (w : BPU PC σ η β n × List (Event Nat))
    (ft : FetchTarget PC (Prediction PC η n)) :
    (BPU PC σ η β n × List (Event Nat)) × FetchTarget PC (Prediction PC η n) :=
  match ft.bpuHistory with
  | none => (w, ft)
  | some pred =>
      ((BPredUnit.squashHistory p.bpu tid (w.1, pred.hist), w.2 ++ [.squash pred.stamp]),
        ft.withHistory none)

def squashBpuHistories (s : BAC PC σ η β n) : BAC PC σ η β n :=
  let ((bpu, trace), ftq) := forAllBackward (squashTarget p tid) (s.bpu, s.trace) s.ftq.ftq
  { s with bpu, trace, ftq := { s.ftq with ftq } }

def squash (new_pc : PC) (s : BAC PC σ η β n) : BAC PC σ η β n :=
  { s with bacStatus := .squashing, bacPC := new_pc, ftq := s.ftq.squash }

end

section

structure CommitInfo (PC : Type) where
  squash : Bool
  pc : PC
  doneSeqNum : InstSeqNum
  mispredictInst : Option (StaticInst PC)
  branchTaken : Bool

structure DecodeInfo (PC : Type) where
  squash : Bool
  nextPC : PC
  doneSeqNum : InstSeqNum
  branchMispredict : Bool
  branchTaken : Bool

structure FetchInfo (PC : Type) where
  squash : Bool
  nextPC : PC

structure Stalls where
  fetch : Bool
  drain : Bool
  bpu : Bool

/-- What a cycle reads from the time buffer and from the CPU. `rand` is the way that the indirect
predictor replaces in a correction. -/
structure Signals (PC : Type) where
  fromCommit : CommitInfo PC
  fromDecode : DecodeInfo PC
  fromFetch : FetchInfo PC
  stalls : Stalls
  rand : Nat

variable [PCState PC] [NeZero n] (p : Params PC σ η β) (tid : ThreadID) (signals : Signals PC)

def checkAndUpdateBPUSignals (s : BAC PC σ η β n) : Bool × BAC PC σ η β n :=
  let commit := signals.fromCommit
  let decode := signals.fromDecode
  let fetch := signals.fromFetch
  if commit.squash then
    let s := squash commit.pc (squashBpuHistories p tid s)
    if commit.mispredictInst.any (·.isControl) then
      (true, s.onUnit tid (BPredUnit.squashCorrect p.bpu tid commit.pc commit.branchTaken
        commit.doneSeqNum true signals.rand))
    else (true, s.onUnit tid (BPredUnit.squash p.bpu tid commit.doneSeqNum))
  else
    let s :=
      if commit.doneSeqNum ≠ 0 then s.onUnit tid (BPredUnit.update p.bpu tid commit.doneSeqNum)
      else s
    if decode.squash then
      let s := squash decode.nextPC (squashBpuHistories p tid s)
      if decode.branchMispredict then
        (true, s.onUnit tid (BPredUnit.squashCorrect p.bpu tid decode.nextPC decode.branchTaken
          decode.doneSeqNum false signals.rand))
      else (true, s.onUnit tid (BPredUnit.squash p.bpu tid decode.doneSeqNum))
    else if fetch.squash && s.bacStatus != .squashing then
      (true, squash fetch.nextPC (squashBpuHistories p tid s))
    else (false, s)

def nextStatus (s : BAC PC σ η β n) : ThreadStatus :=
  if signals.stalls.fetch || signals.stalls.bpu then .blocked
  else if !s.ftq.isReady && s.bacStatus != .idle then .idle
  else if s.bacStatus = .running ∧ s.ftq.isLocked then .ftqLocked
  else if s.bacStatus = .ftqLocked ∧ !s.ftq.isLocked then .running
  else if s.bacStatus = .ftqFull ∧ !s.ftq.isFull p.numFTQEntries then .running
  else if s.bacStatus = .squashing then .running
  else if s.ftq.isFull p.numFTQEntries then .ftqFull
  else if s.ftq.isReady ∧ (s.bacStatus = .idle ∨ s.bacStatus = .blocked) then .running
  else s.bacStatus

def checkSignalsAndUpdate (s : BAC PC σ η β n) : BAC PC σ η β n :=
  let (squashed, s) := checkAndUpdateBPUSignals p tid signals s
  if squashed then s
  else if signals.stalls.drain then
    let s := squashBpuHistories p tid s
    { s with ftq := s.ftq.squash, bacStatus := .idle }
  else { s with bacStatus := nextStatus p signals s }

end

section
variable [PCState PC] [NeZero n] (p : Params PC σ η β) (tid : ThreadID)

def predict (inst : StaticInst PC) (seqNum : InstSeqNum) (pc : PC) (s : BAC PC σ η β n) :
    Prediction PC η n × PC × BAC PC σ η β n :=
  let (bpu, hist) := BPredUnit.predictRecord p.bpu tid pc s.bpu inst seqNum
  (⟨hist, s.predicted.length⟩, hist.target.getD pc,
    { s with
      bpu
      predicted := s.predicted ++ [(instAddr pc, inst)]
      trace := s.trace ++ [.enter s.predicted.length] })

/-- The scan for a branch: whether one was found, and where the scan stopped. -/
def search (btb : β) (start_addr : Addr) : Nat → Addr → Bool × Addr
  | 0, search_addr => (false, search_addr)
  | fuel + 1, search_addr =>
      if p.btbValid btb tid search_addr then (true, search_addr)
      else if p.fetchTargetWidth.toNat ≤ (search_addr - start_addr).toNat then
        (false, search_addr)
      else search btb start_addr fuel (search_addr + p.minInstSize.setWidth 64)

def notLastMicroop (inst : StaticInst PC) : Bool := inst.isMicroop && !inst.isLastMicroop

/-- Where the next fetch target starts; `next_pc` is what the prediction left. -/
def nextTarget (staticInst : Option (StaticInst PC)) (cur_pc : PC) (predict_taken : Bool)
    (next_pc : PC) : PC :=
  let next_pc :=
    if predict_taken then next_pc
    else set next_pc (instAddr cur_pc + p.minInstSize.setWidth 64)
  match staticInst with
  | none => next_pc
  | some inst =>
      if notLastMicroop inst then
        set next_pc (instAddr cur_pc + BitVec.ofNat 64 inst.size)
      else next_pc

/-- The prediction of the exit branch, if there is one: its direction, the PC it
leaves and its record. -/
def predictExit (staticInst : Option (StaticInst PC)) (ftNum : FTSeqNum) (cur_pc : PC)
    (s : BAC PC σ η β n) : Bool × PC × Option (Prediction PC η n) × BAC PC σ η β n :=
  match staticInst with
  | none => (false, cur_pc, none, s)
  | some inst =>
      let (pred, next_pc, s) := predict p tid inst ftNum cur_pc s
      (pred.hist.predTaken, next_pc, some pred, s)

def newFetchTarget (s : BAC PC σ η β n) :
    FetchTarget PC (Prediction PC η n) × BAC PC σ η β n :=
  ({ startPC := s.bacPC, ftSeqNum := s.globalFTSeqNum },
    { s with globalFTSeqNum := s.globalFTSeqNum + 1 })

/-- `StaticInst::size` is called on an inner micro-op, which is fatal when the size
was never set. -/
def askSize (staticInst : Option (StaticInst PC)) (s : BAC PC σ η β n) : BAC PC σ η β n :=
  { s with
    sizeKnown :=
      s.sizeKnown && staticInst.all fun inst => !notLastMicroop inst || inst.size != 0 }

def enqueue (curFT : FetchTarget PC (Prediction PC η n)) (next_pc : PC) (s : BAC PC σ η β n) :
    BAC PC σ η β n :=
  { s with ftq := s.ftq.insert p.numFTQEntries curFT, bacPC := next_pc }

/-- The fetch target of a scan which stopped at `search_addr`, and whether its exit branch is
predicted taken. -/
def completeFetchTarget (branch_found : Bool) (search_addr : Addr) (s : BAC PC σ η β n) :
    Bool × BAC PC σ η β n :=
  let (curFT, s) := newFetchTarget s
  let cur_pc := set s.bacPC search_addr
  let staticInst :=
    if branch_found then p.btbGetInst s.bpu.btb tid (instAddr cur_pc) else none
  let s := s.check (!branch_found || staticInst.isSome)
  let (predict_taken, next_pc, bpuHistory, s) :=
    predictExit p tid staticInst curFT.ftSeqNum cur_pc s
  let next_pc := nextTarget p staticInst cur_pc predict_taken next_pc
  let curFT := (curFT.withHistory bpuHistory).finalize cur_pc branch_found predict_taken next_pc
  (predict_taken, enqueue p curFT next_pc (askSize staticInst s))

def generateFetchTarget (s : BAC PC σ η β n) : Bool × BAC PC σ η β n :=
  let start_addr := instAddr s.bacPC
  let (branch_found, search_addr) :=
    search p tid s.bpu.btb start_addr (p.fetchTargetWidth.toNat + 1) start_addr
  completeFetchTarget p tid branch_found search_addr s

def generateLoop : Nat → Nat → BAC PC σ η β n → BAC PC σ η β n
  | 0, _, s => s
  | left + 1, num_taken, s =>
      if num_taken < p.maxTakenPredPerCycle then
        let (predict_taken, s) := generateFetchTarget p tid s
        let num_taken := if predict_taken then num_taken + 1 else num_taken
        if s.ftq.isFull p.numFTQEntries then { s with bacStatus := .ftqFull }
        else generateLoop left num_taken s
      else s

def generateFetchTargets (s : BAC PC σ η β n) : BAC PC σ η β n :=
  generateLoop p tid p.maxFTPerCycle 0 s

def tick (signals : Signals PC) (s : BAC PC σ η β n) : BAC PC σ η β n :=
  let s := checkSignalsAndUpdate p tid signals s
  if s.bacStatus = .running then generateFetchTargets p tid s else s

end

section
variable [PCState PC] [NeZero n] (p : Params PC σ η β) (tid : ThreadID)

/-- The record of the exit branch. One of another type is put back and squashed with all others. -/
def takeHistory (inst : StaticInst PC) (pc : PC) (ft : FetchTarget PC (Prediction PC η n))
    (s : BAC PC σ η β n) : Option (Prediction PC η n) × BAC PC σ η β n :=
  match if ft.isExitBranch (instAddr pc) then ft.bpuHistory else none with
  | none => (none, s)
  | some pred =>
      let s := s.setHistory none
      if pred.hist.type = getBranchType inst then (some pred, s)
      else (none, (squashBpuHistories p tid (s.setHistory (some pred))).lockFTQ)

/-- The dummy record of a branch that was not detected, assumed not taken. -/
def placeholder (seqNum : InstSeqNum) (inst : StaticInst PC) (pc : PC) (s : BAC PC σ η β n) :
    PredictorHistory PC η n × BAC PC σ η β n :=
  let (cPred, bpHistory) :=
    p.branchPlaceholder s.bpu.cPred tid (instAddr pc) inst.isUncondCtrl none
  ({ seqNum, pc := instAddr pc, inst, bpHistory, target := some (inst.advancePC pc) },
    { s with bpu := { s.bpu with cPred } })

/-- A branch gets the record taken from the fetch target, a fresh prediction or a
placeholder: the record, its stamp, and the fetch PC if the prediction set it. -/
def chooseHistory (seqNum : InstSeqNum) (inst : StaticInst PC) (pc : PC)
    (ft : FetchTarget PC (Prediction PC η n)) (s : BAC PC σ η β n) :
    PredictorHistory PC η n × Option Nat × Option PC × BAC PC σ η β n :=
  match takeHistory p tid inst pc ft s with
  | (some pred, s) => (pred.hist, some pred.stamp, none, s)
  | (none, s) =>
      if notLastMicroop inst then
        -- several branches in one instruction: the queue is emptied of records and locked
        let s := (squashBpuHistories p tid s).lockFTQ
        let (pred, next_pc, s) := predict p tid inst ft.ftSeqNum pc s
        (pred.hist, some pred.stamp, some next_pc, s)
      else
        let (hist, s) := placeholder p tid seqNum inst pc s
        (hist, none, none, s)

def updatePreDecode (seqNum : InstSeqNum) (inst : StaticInst PC) (pc : PC)
    (ft : FetchTarget PC (Prediction PC η n)) (s : BAC PC σ η β n) :
    Bool × PC × BAC PC σ η β n :=
  let s := s.check (ft.inRange (instAddr pc))
  let s := s.check (s.ftq.readHead.any fun head => ft.ftSeqNum == head.ftSeqNum)
  let (hist, stamp, target_set, s) := chooseHistory p tid seqNum inst pc ft s
  let s := s.check (hist.type == getBranchType inst)
  let s := s.insertPredictorHistory tid { hist with seqNum } stamp
  match target_set with
  | some next_pc => (hist.predTaken, next_pc, s)
  | none =>
      if hist.predTaken then (true, ft.predPC.getD pc, s.check ft.predPC.isSome)
      else (false, inst.advancePC pc, s)

def updatePC (seqNum : InstSeqNum) (inst : StaticInst PC) (fetch_pc : PC)
    (ft : FetchTarget PC (Prediction PC η n)) (s : BAC PC σ η β n) :
    Bool × PC × Bool × BAC PC σ η β n :=
  let (predict_taken, next_pc, s) :=
    if inst.isControl then updatePreDecode p tid seqNum inst fetch_pc ft s
    else (false, inst.advancePC fetch_pc, s)
  let finished :=
    ft.isExitInst (instAddr fetch_pc) && (!inst.isMicroop || inst.isLastMicroop)
      || !s.ftq.isReady
  (predict_taken, next_pc, finished, s)

end

end Gem5Core.O3.Bac
