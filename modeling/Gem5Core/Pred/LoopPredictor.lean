import Gem5Core.Pred.TageTables

/-! `LoopPredictor` of `cpu/pred/loop_predictor.cc`: a set-associative table of loops with their
trip counts. -/
namespace Gem5Core.Pred.LoopPredictor
open Branch TageBase TageTables

structure Params where
  logSizeLoopPred : Nat
  loopTableAgeBits : Nat
  loopTableConfidenceBits : Nat
  loopTableTagBits : Nat
  loopTableIterBits : Nat
  logLoopTableAssoc : Nat
  withLoopBits : Nat
  useDirectionBit : Bool
  useSpeculation : Bool
  useHashing : Bool
  restrictAllocation : Bool
  initialLoopIter : Nat
  initialLoopAge : Nat
  optionalAgeReset : Bool

def Params.defaults : Params where
  logSizeLoopPred := 8
  loopTableAgeBits := 8
  loopTableConfidenceBits := 2
  loopTableTagBits := 14
  loopTableIterBits := 14
  logLoopTableAssoc := 2
  withLoopBits := 7
  useDirectionBit := false
  useSpeculation := false
  useHashing := false
  restrictAllocation := false
  initialLoopIter := 1
  initialLoopAge := 255
  optionalAgeReset := true

/-- `confidence` and `age` are `uint8_t` counters. -/
structure LoopEntry where
  numIter : BitVec 16 := 0
  currentIter : BitVec 16 := 0
  currentIterSpec : BitVec 16 := 0
  confidence : Nat := 0
  tag : BitVec 16 := 0
  age : Nat := 0
  dir : Bool := false
deriving DecidableEq

/-- `BranchInfo` as its constructor leaves it. No function of the class assigns
`currentIter`. -/
structure BranchInfo where
  loopTag : BitVec 16 := 0
  currentIter : BitVec 16 := 0
  loopPred : Bool := false
  loopPredValid : Bool := false
  loopPredUsed : Bool := false
  loopIndex : BitVec 32 := 0
  loopIndexB : BitVec 32 := 0
  loopHit : Int := 0
  predTaken : Bool := false

structure State where
  ltable : Nat → LoopEntry := fun _ => {}
  loopUseCounter : Int := -1

variable (lp : Params)

def confidenceThreshold : Nat := 2 ^ lp.loopTableConfidenceBits - 1

def loopTagMask : BitVec 16 := BitVec.ofNat 16 (2 ^ lp.loopTableTagBits - 1)

def loopNumIterMask : BitVec 16 := BitVec.ofNat 16 (2 ^ lp.loopTableIterBits - 1)

def loopSetMask : BitVec 32 := lowMask (lp.logSizeLoopPred - lp.logLoopTableAssoc)

def lindex (pc_in : Addr) (instShiftAmt : Nat) : BitVec 32 :=
  let pc := pc_in >>> instShiftAmt
  let pc := if lp.useHashing then pc ^^^ pc_in else pc
  ((pc &&& (loopSetMask lp).signExtend 64) <<< lp.logLoopTableAssoc).setWidth 32

def finallindex (index lowPcBits : BitVec 32) (way : Nat) : Nat :=
  ((if lp.useHashing then index ^^^ (lowPcBits.sshiftRight way <<< lp.logLoopTableAssoc)
    else index) + BitVec.ofNat 32 way).toNat

def indexB (pc : Addr) (old : BitVec 32) : BitVec 32 :=
  if lp.useHashing then
    (pc >>> (lp.logSizeLoopPred - lp.logLoopTableAssoc)).setWidth 32 &&& loopSetMask lp
  else old

def tagOf (pc : Addr) (instShiftAmt : Nat) : BitVec 16 :=
  if lp.useHashing then
    let pcShift := lp.logSizeLoopPred - lp.logLoopTableAssoc
    ((pc >>> pcShift) ^^^ (pc >>> (pcShift + lp.loopTableTagBits))).setWidth 16 &&& loopTagMask lp
  else
    let pcShift := instShiftAmt + lp.logSizeLoopPred - lp.logLoopTableAssoc
    (pc >>> pcShift).setWidth 16 &&& loopTagMask lp

def locate (pc : Addr) (instShiftAmt : Nat) (bi : BranchInfo) : BranchInfo :=
  { bi with
    loopHit := -1
    loopPredValid := false
    loopIndex := lindex lp pc instShiftAmt
    loopIndexB := indexB lp pc bi.loopIndexB
    loopTag := tagOf lp pc instShiftAmt }

def entryAt (s : State) (bi : BranchInfo) (way : Nat) : LoopEntry :=
  s.ltable (finallindex lp bi.loopIndex bi.loopIndexB way)

def findWay (s : State) (bi : BranchInfo) : Option Nat :=
  (List.range (2 ^ lp.logLoopTableAssoc)).find? fun way =>
    (entryAt lp s bi way).tag == bi.loopTag

def calcConf (entry : LoopEntry) : Bool := entry.confidence == confidenceThreshold lp

def bodyDir (entry : LoopEntry) : Bool := if lp.useDirectionBit then entry.dir else true

def getLoop (s : State) (pc : Addr) (bi : BranchInfo) (speculative : Bool) (instShiftAmt : Nat) :
    Bool × BranchInfo :=
  let bi := locate lp pc instShiftAmt bi
  match findWay lp s bi with
  | none => (false, bi)
  | some way =>
      let entry := entryAt lp s bi way
      let iter := if speculative then entry.currentIterSpec else entry.currentIter
      (if iter.toNat + 1 = entry.numIter.toNat then !bodyDir lp entry else bodyDir lp entry,
        { bi with loopHit := way, loopPredValid := calcConf lp entry })

def State.modify (s : State) (index : Nat) (f : LoopEntry → LoopEntry) : State :=
  { s with ltable := Function.update s.ltable index (f (s.ltable index)) }

theorem modify_ltable_self (s : State) (index : Nat) (f : LoopEntry → LoopEntry) :
    (s.modify index f).ltable index = f (s.ltable index) :=
  Function.update_self _ _ _

theorem modify_ltable_other {s : State} {index i : Nat} (f : LoopEntry → LoopEntry)
    (h : i ≠ index) : (s.modify index f).ltable i = s.ltable i :=
  Function.update_of_ne h _ _

def hitIndex (bi : BranchInfo) : Nat :=
  finallindex lp bi.loopIndex bi.loopIndexB bi.loopHit.toNat

def specCount (taken : Bool) (entry : LoopEntry) : LoopEntry :=
  { entry with
    currentIterSpec :=
      if taken ≠ entry.dir then 0 else (entry.currentIterSpec + 1) &&& loopNumIterMask lp }

def specLoopUpdate (s : State) (taken : Bool) (bi : BranchInfo) : State :=
  if 0 ≤ bi.loopHit then s.modify (hitIndex lp bi) (specCount lp taken) else s

def loopPredict (s : State) (branch_pc : Addr) (cond_branch : Bool) (bi : BranchInfo)
    (prev_pred_taken : Bool) (instShiftAmt : Nat) : Bool × State × BranchInfo :=
  if !cond_branch then (prev_pred_taken, s, bi)
  else
    let (loopPred, bi) := getLoop lp s branch_pc bi lp.useSpeculation instShiftAmt
    let bi := { bi with loopPred }
    let used := decide (0 ≤ s.loopUseCounter) && bi.loopPredValid
    let pred_taken := if used then loopPred else prev_pred_taken
    let bi := if used then { bi with loopPredUsed := true } else bi
    (pred_taken, if lp.useSpeculation then specLoopUpdate lp s pred_taken bi else s, bi)

def rewindSpec (s : State) (bi : BranchInfo) : State :=
  if 0 ≤ bi.loopHit then
    s.modify (hitIndex lp bi) fun entry => { entry with currentIterSpec := bi.currentIter }
  else s

def squash (s : State) (bi : BranchInfo) : State := rewindSpec lp s bi

def squashLoop (s : State) (bi : BranchInfo) : State := rewindSpec lp s bi

def countIter (entry : LoopEntry) : LoopEntry :=
  let entry := { entry with currentIter := (entry.currentIter + 1) &&& loopNumIterMask lp }
  if entry.currentIter > entry.numIter then
    let entry := { entry with confidence := 0 }
    if entry.numIter ≠ 0 then
      { entry with numIter := 0, age := if lp.optionalAgeReset then 0 else entry.age }
    else entry
  else entry

def endLoop (taken : Bool) (entry : LoopEntry) : LoopEntry :=
  let entry :=
    if entry.currentIter = entry.numIter then
      let entry :=
        { entry with
          confidence := unsignedCtrUpdate entry.confidence true lp.loopTableConfidenceBits }
      -- just do not predict when the loop count is 1 or 2
      if entry.numIter < 3 then
        { entry with dir := taken, numIter := 0, age := 0, confidence := 0 }
      else entry
    else if entry.numIter = 0 then
      -- first complete nest
      { entry with confidence := 0, numIter := entry.currentIter }
    else
      -- not the same number of iterations as last time
      { entry with
        numIter := 0, age := if lp.optionalAgeReset then 0 else entry.age, confidence := 0 }
  { entry with currentIter := 0 }

/-- `loopUpdate` on the entry that was hit. `optionalAgeInc` is false in the
base class. -/
def trainHit (taken : Bool) (bi : BranchInfo) (tage_pred : Bool) (entry : LoopEntry) :
    LoopEntry :=
  if bi.loopPredValid && (taken != bi.loopPred) then
    -- free the entry
    { entry with numIter := 0, age := 0, confidence := 0, currentIter := 0 }
  else
    let entry :=
      if bi.loopPredValid && (bi.loopPred != tage_pred) then
        { entry with age := unsignedCtrUpdate entry.age true lp.loopTableAgeBits }
      else entry
    let entry := countIter lp entry
    if taken != bodyDir lp entry then endLoop lp taken entry else entry

def newEntry (taken : Bool) (bi : BranchInfo) (entry : LoopEntry) : LoopEntry :=
  { entry with
    dir := !taken
    tag := bi.loopTag
    numIter := 0
    age := lp.initialLoopAge
    confidence := 0
    currentIter := BitVec.ofNat 16 lp.initialLoopIter }

def allocate (taken : Bool) (bi : BranchInfo) (nrand : BitVec 32) : List Nat → State → State
  | [], s => s
  | i :: rest, s =>
      let loop_hit := (nrand + BitVec.ofNat 32 i) &&& lowMask lp.logLoopTableAssoc
      let idx := finallindex lp bi.loopIndex bi.loopIndexB loop_hit.toNat
      if (s.ltable idx).age = 0 then s.modify idx (newEntry lp taken bi)
      else
        let s := s.modify idx fun entry => { entry with age := entry.age - 1 }
        if lp.restrictAllocation then s else allocate taken bi nrand rest s

def wantsEntry (taken : Bool) (bi : BranchInfo) (choice : BitVec 32) : Bool :=
  (if lp.useDirectionBit then bi.predTaken != taken else taken) &&
    (decide (choice &&& 3 = 0) || !lp.restrictAllocation)

/-- `choice` and `nrand` are the two random numbers. -/
def loopUpdate (s : State) (taken : Bool) (bi : BranchInfo) (tage_pred : Bool)
    (choice nrand : BitVec 32) : State :=
  if 0 ≤ bi.loopHit then s.modify (hitIndex lp bi) (trainHit lp taken bi tage_pred)
  else if wantsEntry lp taken bi choice then
    allocate lp taken bi nrand (List.range (2 ^ lp.logLoopTableAssoc)) s
  else s

def commitInfo (s : State) (branch_pc : Addr) (bi : BranchInfo) (instShiftAmt : Nat) : BranchInfo :=
  if lp.useSpeculation then
    let (loopPred, bi) := getLoop lp s branch_pc bi false instShiftAmt
    { bi with loopPred }
  else bi

def countUse (s : State) (taken : Bool) (bi : BranchInfo) : State :=
  if bi.loopPredValid && (bi.predTaken != bi.loopPred) then
    { s with
      loopUseCounter := ctrUpdate s.loopUseCounter (bi.loopPred == taken) lp.withLoopBits }
  else s

@[simp] theorem countUse_ltable (s : State) (taken : Bool) (bi : BranchInfo) :
    (countUse lp s taken bi).ltable = s.ltable := by
  unfold countUse
  split <;> rfl

def condBranchUpdate (s : State) (branch_pc : Addr) (taken tage_pred : Bool) (bi : BranchInfo)
    (instShiftAmt : Nat) (choice nrand : BitVec 32) : State :=
  let bi := commitInfo lp s branch_pc bi instShiftAmt
  loopUpdate lp (countUse lp s taken bi) taken bi tage_pred choice nrand

end Gem5Core.Pred.LoopPredictor
