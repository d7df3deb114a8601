import Gem5Core.Lib.Deque
import Gem5Core.Pred.Indirect
import Gem5Core.Pred.Ras

/-! `BPredUnit` of `cpu/pred/bpred_unit.cc`: the queue of predicted branches and the entry points
`predict`, `update`, `squash` and the corrective `squash`. The direction predictor and the BTB are
parameters. -/
namespace Gem5Core.Pred.BPredUnit
open Branch Ras Indirect

structure Params (PC σ η β : Type) where
  requiresBTBHit : Bool
  updateBTBAtSquash : Bool
  cPred : ConditionalPredictor PC σ η
  btb : BranchTargetBuffer PC β
  iPred : Indirect.Params

/-- The defaults of `BranchPredictor.py`, with a static direction predictor and
no branch target buffer. -/
def Params.static (PC : Type) (taken : Bool) : Params PC Unit Unit Unit where
  requiresBTBHit := false
  updateBTBAtSquash := true
  cPred := .static taken
  btb := .none
  iPred := .defaults

/-- `PredictorHistory`. The fields `type`, `call` and `uncond` are constants
computed from `inst` and are functions here. -/
structure PredictorHistory (PC η : Type) (n : Nat) where
  seqNum : InstSeqNum
  pc : Addr
  inst : StaticInst PC
  predTaken : Bool := false
  actuallyTaken : Bool := false
  condPred : Bool := false
  btbHit : Bool := false
  targetProvider : TargetProvider := .noTarget
  mispredict : Bool := false
  target : Option PC := none
  bpHistory : Option η := none
  indirectHistory : Option IndirectHistory := none
  rasHistory : Option (RASHistory PC n) := none

namespace PredictorHistory
variable {PC η : Type} {n : Nat} (hist : PredictorHistory PC η n)

def type : BranchType := getBranchType hist.inst
def call : Bool := hist.inst.isCall
def uncond : Bool := !hist.inst.isCondCtrl

def released : Bool :=
  hist.bpHistory.isNone && hist.indirectHistory.isNone && hist.rasHistory.isNone

end PredictorHistory

abbrev Table (α : Type) := ThreadID → α → Nat

def bump {α : Type} [DecidableEq α] (table : Table α) (tid : ThreadID) (a : α) : Table α :=
  Function.update table tid (Function.update (table tid) a (table tid a + 1))

structure Stats where
  lookups : Table BranchType := fun _ _ => 0
  squashes : Table BranchType := fun _ _ => 0
  corrected : Table BranchType := fun _ _ => 0
  earlyResteers : Table BranchType := fun _ _ => 0
  committed : Table BranchType := fun _ _ => 0
  mispredicted : Table BranchType := fun _ _ => 0
  mispredictDueToPredictor : Table BranchType := fun _ _ => 0
  mispredictDueToBTBMiss : Table BranchType := fun _ _ => 0
  targetProvider : Table TargetProvider := fun _ _ => 0
  targetWrong : Table TargetProvider := fun _ _ => 0
  condPredicted : Nat := 0
  condPredictedTaken : Nat := 0
  condIncorrect : Nat := 0
  predTakenBTBMiss : Nat := 0
  btbLookups : Nat := 0
  btbUpdates : Nat := 0
  btbHits : Nat := 0
  btbMispredicted : Nat := 0
  indirectLookups : Nat := 0
  indirectHits : Nat := 0
  indirectMisses : Nat := 0

/-- `predHist` is youngest first. `asserted` stays true as long as no `assert` failed and no null
target was dereferenced, `sizeKnown` as long as `StaticInst::size` was not called on an instruction
without a size, where it is `fatal`. `trace` and `dirReleases` are history: the entries and
departures of the queue, and the releases of the direction predictor's records. -/
structure BPU (PC σ η β : Type) (n : Nat) where
  cPred : σ
  btb : β
  ras : Option (ReturnAddrStack PC n)
  iPred : Option (SimpleIndirectPredictor PC)
  predHist : ThreadID → List (PredictorHistory PC η n) := fun _ => []
  stats : Stats := {}
  asserted : Bool := true
  sizeKnown : Bool := true
  trace : ThreadID → List (Lib.Deque.Event InstSeqNum) := fun _ => []
  dirReleases : ThreadID → List InstSeqNum := fun _ => []

variable {PC σ η β : Type} {n : Nat} [PCState PC]

namespace BPU

def check (unit : BPU PC σ η β n) (condition : Bool) : BPU PC σ η β n :=
  { unit with asserted := unit.asserted && condition }

def setQueue (unit : BPU PC σ η β n) (tid : ThreadID)
    (queue : List (PredictorHistory PC η n)) : BPU PC σ η β n :=
  { unit with predHist := Function.update unit.predHist tid queue }

def record (unit : BPU PC σ η β n) (tid : ThreadID) (event : Lib.Deque.Event InstSeqNum) :
    BPU PC σ η β n :=
  { unit with trace := Function.update unit.trace tid (unit.trace tid ++ [event]) }

def recordRelease (unit : BPU PC σ η β n) (tid : ThreadID) (sn : InstSeqNum) :
    BPU PC σ η β n :=
  { unit with dirReleases := Function.update unit.dirReleases tid (unit.dirReleases tid ++ [sn]) }

end BPU

abbrev Work (PC σ η β : Type) (n : Nat) := BPU PC σ η β n × PredictorHistory PC η n

/-- `if (ras) ...`: a call on the stack with the record's `rasHistory`. -/
def onRas (w : Work PC σ η β n)
    (f : ReturnAddrStack PC n → Option (RASHistory PC n) →
      ReturnAddrStack PC n × Option (RASHistory PC n)) : Work PC σ η β n :=
  match w.1.ras with
  | none => w
  | some ras =>
      let (ras, rasHistory) := f ras w.2.rasHistory
      ({ w.1 with ras := some ras }, { w.2 with rasHistory })

/-- `if (iPred) ...`: a call on the indirect predictor with the record's
`indirectHistory`. -/
def onIPred (w : Work PC σ η β n)
    (f : SimpleIndirectPredictor PC → Option IndirectHistory →
      SimpleIndirectPredictor PC × Option IndirectHistory) : Work PC σ η β n :=
  match w.1.iPred with
  | none => w
  | some iPred =>
      let (iPred, indirectHistory) := f iPred w.2.indirectHistory
      ({ w.1 with iPred := some iPred }, { w.2 with indirectHistory })

def targetAddr (hist : PredictorHistory PC η n) : Addr :=
  hist.target.elim 0 PCState.instAddr

section
variable (p : Params PC σ η β) (tid : ThreadID) (pc : PC)

def direction (w : Work PC σ η β n) : Work PC σ η β n :=
  let (unit, hist) := w
  if hist.uncond then (unit, { hist with condPred := true, predTaken := true })
  else
    let (taken, cPred, bpHistory) :=
      p.cPred.lookup unit.cPred tid (PCState.instAddr pc) hist.bpHistory
    let stats := { unit.stats with condPredicted := unit.stats.condPredicted + 1 }
    let stats :=
      if taken then { stats with condPredictedTaken := stats.condPredictedTaken + 1 } else stats
    ({ unit with cPred, stats }, { hist with condPred := taken, predTaken := taken, bpHistory })

def targetFromBTB (w : Work PC σ η β n) : Work PC σ η β n :=
  let (unit, hist) := w
  let (btb_target, btb) := p.btb.lookup unit.btb tid (PCState.instAddr pc) hist.type
  let stats := { unit.stats with btbLookups := unit.stats.btbLookups + 1 }
  let hist := { hist with targetProvider := .noTarget }
  match btb_target with
  | none => ({ unit with btb, stats }, hist)
  | some target =>
      let unit := { unit with btb, stats := { stats with btbHits := stats.btbHits + 1 } }
      let hist := { hist with btbHit := true }
      if hist.predTaken then
        (unit, { hist with targetProvider := .btb, target := some target })
      else (unit, hist)

def branchDetected (hist : PredictorHistory PC η n) : Bool :=
  hist.btbHit || !p.requiresBTBHit

def targetFromRAS [NeZero n] (w : Work PC σ η β n) : Work PC σ η β n :=
  let (unit, hist) := w
  match unit.ras with
  | none => w
  | some ras =>
      if !branchDetected p hist then w
      else if hist.inst.isCall then
        let (ras, rasHistory) := ras.push tid (hist.inst.buildRetPC pc pc) hist.rasHistory
        ({ unit with ras := some ras }, { hist with rasHistory })
      else if hist.inst.isReturn then
        let (return_addr, ras, rasHistory) := ras.pop tid hist.rasHistory
        let unit := { unit with ras := some ras }
        match return_addr with
        | none => (unit, { hist with rasHistory })
        | some addr =>
            (unit, { hist with rasHistory, target := some addr, targetProvider := .ras })
      else w

def targetFromIndirect (w : Work PC σ η β n) : Work PC σ η β n :=
  let (unit, hist) := w
  match unit.iPred with
  | none => w
  | some iPred =>
      if hist.predTaken && branchDetected p hist && hist.inst.isIndirectCtrl
          && !hist.inst.isReturn then
        let (itarget, iPred, indirectHistory) :=
          iPred.lookup p.iPred tid (PCState.instAddr pc) hist.indirectHistory
        let stats := { unit.stats with indirectLookups := unit.stats.indirectLookups + 1 }
        match itarget with
        | some target =>
            ({ unit with
                iPred := some iPred
                stats := { stats with indirectHits := stats.indirectHits + 1 } },
              { hist with
                indirectHistory, targetProvider := .indirect, target := some target })
        | none =>
            ({ unit with
                iPred := some iPred
                stats := { stats with indirectMisses := stats.indirectMisses + 1 } },
              { hist with indirectHistory })
      else w

def fallthrough (w : Work PC σ η β n) : Work PC σ η β n :=
  let (unit, hist) := w
  let hist :=
    if hist.targetProvider = .noTarget then
      { hist with target := some (hist.inst.advancePC pc), predTaken := false }
    else hist
  ({ unit with stats := { unit.stats with
      targetProvider := bump unit.stats.targetProvider tid hist.targetProvider } },
    { hist with actuallyTaken := hist.predTaken })

def speculativeUpdate (w : Work PC σ η β n) : Work PC σ η β n :=
  let (unit, hist) := w
  let unit := unit.check hist.target.isSome
  let (cPred, bpHistory) :=
    p.cPred.updateHistories unit.cPred tid hist.pc hist.uncond hist.predTaken (targetAddr hist)
      hist.inst hist.bpHistory
  -- `rand()` is not called when `squash` is false
  onIPred ({ unit with cPred }, { hist with bpHistory }) fun iPred indirectHistory =>
    iPred.update p.iPred tid hist.seqNum false hist.predTaken (hist.target.getD pc) hist.type
      indirectHistory 0

def startPredict (unit : BPU PC σ η β n) (inst : StaticInst PC) (seqNum : InstSeqNum) :
    Work PC σ η β n :=
  ({ unit with stats := { unit.stats with
      lookups := bump unit.stats.lookups tid (getBranchType inst) } },
    { seqNum, pc := PCState.instAddr pc, inst })

def predictRecord [NeZero n] (unit : BPU PC σ η β n) (inst : StaticInst PC)
    (seqNum : InstSeqNum) : Work PC σ η β n :=
  speculativeUpdate p tid pc <| fallthrough tid pc <| targetFromIndirect p tid pc <|
    targetFromRAS p tid pc <| targetFromBTB p tid pc <| direction p tid pc <|
      startPredict tid pc unit inst seqNum

def predict [NeZero n] (unit : BPU PC σ η β n) (inst : StaticInst PC) (seqNum : InstSeqNum) :
    Bool × PC × BPU PC σ η β n :=
  let (unit, hist) := predictRecord p tid pc unit inst seqNum
  (hist.predTaken, hist.target.getD pc,
    (unit.setQueue tid (hist :: unit.predHist tid)).record tid (.enter seqNum))

end

section
variable (p : Params PC σ η β) (tid : ThreadID)

def updateBTB (w : Work PC σ η β n) : BPU PC σ η β n :=
  let (unit, hist) := w
  if !p.requiresBTBHit && (hist.inst.isReturn || (unit.iPred.isSome && hist.inst.isIndirectCtrl))
  then unit
  else
    let stats := unit.stats
    let stats :=
      if !hist.btbHit then
        { stats with
          btbMispredicted := stats.btbMispredicted + 1
          predTakenBTBMiss := stats.predTakenBTBMiss + if hist.condPred then 1 else 0 }
      else stats
    let unit := { unit with stats := { stats with btbUpdates := stats.btbUpdates + 1 } }
    match hist.target with
    | none => unit.check false
    | some target =>
        let btb := p.btb.update unit.btb tid hist.pc target hist.type hist.inst
        { unit with btb := p.btb.incorrectTarget btb hist.pc hist.type }

def commitStats (stats : Stats) (hist : PredictorHistory PC η n) : Stats :=
  let stats := { stats with committed := bump stats.committed tid hist.type }
  if hist.mispredict then
    let stats := { stats with
      mispredicted := bump stats.mispredicted tid hist.type
      condIncorrect := stats.condIncorrect + 1 }
    if hist.actuallyTaken && !hist.btbHit then
      { stats with mispredictDueToBTBMiss := bump stats.mispredictDueToBTBMiss tid hist.type }
    else
      { stats with mispredictDueToPredictor := bump stats.mispredictDueToPredictor tid hist.type }
  else stats

def commitDirection (w : Work PC σ η β n) : Work PC σ η β n :=
  let (unit, hist) := w
  let unit := (unit.check hist.target.isSome).recordRelease tid hist.seqNum
  let (cPred, bpHistory) :=
    p.cPred.update unit.cPred tid hist.pc hist.actuallyTaken hist.bpHistory false hist.inst
      (targetAddr hist)
  ({ unit with cPred }, { hist with bpHistory })

def commitBranch (w : Work PC σ η β n) : Work PC σ η β n :=
  let (unit, hist) := w
  let w := commitDirection p tid
    ({ unit with stats := commitStats tid unit.stats hist }, hist)
  let w := onIPred w fun iPred indirectHistory => iPred.commit p.iPred tid indirectHistory
  let w := onRas w fun ras rasHistory => ras.commit hist.mispredict hist.type rasHistory
  if hist.actuallyTaken && !p.updateBTBAtSquash then (updateBTB p tid w, w.2) else w

def deleteHistory (w : Work PC σ η β n) : BPU PC σ η β n := w.1.check w.2.released

def commitOldest (unit : BPU PC σ η β n) (hist : PredictorHistory PC η n) : BPU PC σ η β n :=
  let unit := deleteHistory (commitBranch p tid (unit, hist))
  (unit.setQueue tid (unit.predHist tid).dropLast).record tid (.commit hist.seqNum)

/-- The loop of `update`; each iteration shortens the queue, so its length
bounds the number of iterations. -/
def updateLoop (done_sn : InstSeqNum) : Nat → BPU PC σ η β n → BPU PC σ η β n
  | 0, unit => unit
  | fuel + 1, unit =>
      match (unit.predHist tid).getLast? with
      | none => unit
      | some hist =>
          if hist.seqNum ≤ done_sn then updateLoop done_sn fuel (commitOldest p tid unit hist)
          else unit

def update (done_sn : InstSeqNum) (unit : BPU PC σ η β n) : BPU PC σ η β n :=
  updateLoop p tid done_sn (unit.predHist tid).length unit

def squashDirection (w : Work PC σ η β n) : Work PC σ η β n :=
  let (unit, hist) := w
  let unit := unit.recordRelease tid hist.seqNum
  let (cPred, bpHistory) := p.cPred.squash unit.cPred tid hist.bpHistory
  ({ unit with cPred }, { hist with bpHistory })

def squashHistory (w : Work PC σ η β n) : BPU PC σ η β n :=
  let (unit, hist) := w
  let unit := { unit with stats := { unit.stats with
    squashes := bump unit.stats.squashes tid hist.type } }
  let unit := unit.check (hist.rasHistory.isNone || unit.ras.isSome)
  let w := onRas (unit, hist) fun ras rasHistory => ras.squash tid rasHistory
  let w := onIPred w fun iPred indirectHistory => iPred.squash p.iPred tid indirectHistory
  deleteHistory (squashDirection p tid w)

def squashYoungest (unit : BPU PC σ η β n) (hist : PredictorHistory PC η n) :
    BPU PC σ η β n :=
  let unit := squashHistory p tid (unit, hist)
  (unit.setQueue tid (unit.predHist tid).tail).record tid (.squash hist.seqNum)

def squashLoop (squashed_sn : InstSeqNum) : Nat → BPU PC σ η β n → BPU PC σ η β n
  | 0, unit => unit
  | fuel + 1, unit =>
      match (unit.predHist tid).head? with
      | none => unit
      | some hist =>
          if squashed_sn < hist.seqNum then
            squashLoop squashed_sn fuel (squashYoungest p tid unit hist)
          else unit

def squash (squashed_sn : InstSeqNum) (unit : BPU PC σ η β n) : BPU PC σ η β n :=
  squashLoop p tid squashed_sn (unit.predHist tid).length unit

end

section
variable (p : Params PC σ η β) (tid : ThreadID) (corr_target : PC) (actually_taken : Bool)

def correctStats (from_commit : Bool) (stats : Stats) (hist : PredictorHistory PC η n) : Stats :=
  let stats := { stats with corrected := bump stats.corrected tid hist.type }
  let stats :=
    if hist.target.any fun target => PCState.instAddr target != PCState.instAddr corr_target then
      { stats with targetWrong := bump stats.targetWrong tid hist.targetProvider }
    else stats
  if from_commit then stats
  else { stats with earlyResteers := bump stats.earlyResteers tid hist.type }

def correctDirection (w : Work PC σ η β n) : Work PC σ η β n :=
  let (unit, hist) := w
  let (cPred, bpHistory) :=
    p.cPred.update unit.cPred tid hist.pc actually_taken hist.bpHistory true hist.inst
      (PCState.instAddr corr_target)
  ({ unit with cPred }, { hist with bpHistory })

def correctedReturnAddr (hist : PredictorHistory PC η n) : PC :=
  let return_addr := hist.inst.buildRetPC corr_target corr_target
  if hist.inst.size ≠ 0 then
    PCState.set return_addr (hist.pc + BitVec.ofNat 64 hist.inst.size)
  else return_addr

/-- The branch was taken and the stack was not updated: a return pops, a call
pushes. -/
def correctTaken [NeZero n] (hist : PredictorHistory PC η n) (ras : ReturnAddrStack PC n)
    (rasHistory : Option (RASHistory PC n)) :
    ReturnAddrStack PC n × Option (RASHistory PC n) :=
  let (ras, rasHistory) :=
    if hist.type = .return then (ras.pop tid rasHistory).2 else (ras, rasHistory)
  if hist.call then ras.push tid (correctedReturnAddr corr_target hist) rasHistory
  else (ras, rasHistory)

def correctRAS [NeZero n] (w : Work PC σ η β n) : Work PC σ η β n :=
  let (unit, hist) := w
  if actually_taken && hist.rasHistory.isNone then
    -- the push asks for `size()`, which is fatal when it was never set
    let pushes := unit.ras.isSome && hist.call
    let unit := { unit with sizeKnown := unit.sizeKnown && (!pushes || hist.inst.size != 0) }
    onRas (unit, hist) (correctTaken tid corr_target hist)
  else if !actually_taken && hist.rasHistory.isSome then
    onRas w fun ras rasHistory => ras.squash tid rasHistory
  else w

def correctFront [NeZero n] (squashed_sn : InstSeqNum) (from_commit : Bool) (rand : Nat)
    (unit : BPU PC σ η β n) (hist : PredictorHistory PC η n) : Work PC σ η β n :=
  let unit := { unit with stats := correctStats tid corr_target from_commit unit.stats hist }
  let hist :=
    { hist with mispredict := true, actuallyTaken := actually_taken, target := some corr_target }
  let w := correctDirection p tid corr_target actually_taken (unit, hist)
  let w := onIPred w fun iPred indirectHistory =>
    iPred.update p.iPred tid squashed_sn true actually_taken corr_target hist.type
      indirectHistory rand
  let w := correctRAS tid corr_target actually_taken w
  if actually_taken && p.updateBTBAtSquash then (updateBTB p tid w, w.2) else w

/-- The corrective `squash`: squash what is younger, then correct the youngest
survivor. -/
def squashCorrect [NeZero n] (squashed_sn : InstSeqNum) (from_commit : Bool) (rand : Nat)
    (unit : BPU PC σ η β n) : BPU PC σ η β n :=
  let unit := squash p tid squashed_sn unit
  match unit.predHist tid with
  | [] => unit
  | hist :: rest =>
      let (unit, hist) :=
        correctFront p tid corr_target actually_taken squashed_sn from_commit rand unit hist
      unit.setQueue tid (hist :: rest)

end

section
variable [NeZero n] (p : Params PC σ η β)

inductive Call (PC : Type) where
  | predict (tid : ThreadID) (inst : StaticInst PC) (seqNum : InstSeqNum) (pc : PC)
  | update (tid : ThreadID) (done_sn : InstSeqNum)
  | squash (tid : ThreadID) (squashed_sn : InstSeqNum)
  | squashCorrect (tid : ThreadID) (squashed_sn : InstSeqNum) (corr_target : PC)
      (actually_taken from_commit : Bool) (rand : Nat)

def step (unit : BPU PC σ η β n) : Call PC → BPU PC σ η β n
  | .predict tid inst seqNum pc => (predict p tid pc unit inst seqNum).2.2
  | .update tid done_sn => update p tid done_sn unit
  | .squash tid squashed_sn => squash p tid squashed_sn unit
  | .squashCorrect tid squashed_sn corr_target actually_taken from_commit rand =>
      squashCorrect p tid corr_target actually_taken squashed_sn from_commit rand unit

def start (cPred : σ) (btb : β) (hasRas hasIPred : Bool) : BPU PC σ η β n :=
  { cPred, btb
    ras := if hasRas then some .init else none
    iPred := if hasIPred then some (.init p.iPred) else none }

def run (unit : BPU PC σ η β n) (calls : List (Call PC)) : BPU PC σ η β n :=
  calls.foldl (step p) unit

theorem run_concat (unit : BPU PC σ η β n) (calls : List (Call PC)) (call : Call PC) :
    run p unit (calls ++ [call]) = step p (run p unit calls) call := by
  simp [run]

end

end Gem5Core.Pred.BPredUnit
