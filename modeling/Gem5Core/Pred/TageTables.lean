import Mathlib.Algebra.Group.Int.Defs
import Gem5Core.Pred.TageBase

/-! The prediction tables of `TAGEBase`: the bimodal table with its shared hysteresis bits and the
partially tagged tables. -/
namespace Gem5Core.Pred.TageTables
open Branch TageBase

/-- `ctr` is an `int8_t`, `u` a `uint8_t`. -/
structure TageEntry where
  ctr : Int := 0
  tag : BitVec 16 := 0
  u : Nat := 0
deriving DecidableEq

structure TableParams extends Params where
  tagTableCounterBits : Nat
  tagTableUBits : Nat
  logRatioBiModalHystEntries : Nat
  logUResetPeriod : Nat
  initialTCounterValue : BitVec 64
  useAltOnNaBits : Nat
  maxNumAlloc : Nat
  noSkip : Nat → Bool

def TableParams.defaults : TableParams where
  toParams := .defaults false
  tagTableCounterBits := 3
  tagTableUBits := 2
  logRatioBiModalHystEntries := 2
  logUResetPeriod := 18
  initialTCounterValue := 1 <<< 17
  useAltOnNaBits := 4
  maxNumAlloc := 1
  noSkip := fun _ => true

def TableParams.initAccepts (p : TableParams) : Bool :=
  decide (p.tagTableUBits ≤ 2) && decide (0 < p.tagTableUBits) && decide (p.pathHistBits ≤ 32) &&
    decide (p.logUResetPeriod ≠ 0) && decide (p.maxHist * 3 < p.histBufferSize) &&
    decide (p.tagTableTagWidths 0 = 0)

inductive Provider where
  | bimodalOnly
  | tageLongestMatch
  | bimodalAltMatch
  | tageAltMatch
  | loop
deriving DecidableEq

structure PredInfo extends BranchInfo where
  hitBank : Nat := 0
  hitBankIndex : BitVec 32 := 0
  altBank : Nat := 0
  altBankIndex : BitVec 32 := 0
  bimodalIndex : BitVec 32 := 0
  tagePred : Bool := false
  altTaken : Bool := false
  longestMatchPred : Bool := false
  pseudoNewAlloc : Bool := false
  provider : Option Provider := none

def newPredInfo (pc : Addr) (conditional : Bool) : PredInfo :=
  { toBranchInfo := makeBranchInfo pc conditional }

/-- `gtable` is indexed by bank and index. `inBounds` stays true as long as
every access that training made was inside the tables. -/
structure Tables where
  btablePrediction : Nat → Bool := fun _ => false
  btableHysteresis : Nat → Bool := fun _ => true
  gtable : Nat → Nat → TageEntry := fun _ _ => {}
  useAltPredForNewlyAllocated : Nat → Int := fun _ => 0
  tCounter : BitVec 64
  inBounds : Bool := true

def ctrUpdate (ctr : Int) (taken : Bool) (nbits : Nat) : Int :=
  if taken then
    if ctr < 2 ^ (nbits - 1) - 1 then ctr + 1 else ctr
  else if ctr > -2 ^ (nbits - 1) then ctr - 1
  else ctr

def unsignedCtrUpdate (ctr : Nat) (up : Bool) (nbits : Nat) : Nat :=
  if up then
    if ctr < 2 ^ nbits - 1 then ctr + 1 else ctr
  else ctr - 1

def resetUctr (u : Nat) : Nat := u / 2

variable (p : TableParams)

def Tables.init : Tables := { tCounter := p.initialTCounterValue }

def bindex (pc_in : Addr) : BitVec 32 :=
  (pc_in >>> p.instShiftAmt).setWidth 32 &&& lowMask (p.logTagTableSizes 0)

def lowMask64 (length : Nat) : BitVec 64 := BitVec.ofNat 64 (2 ^ length - 1)

def getBimodePred (tables : Tables) (bi : PredInfo) : Bool :=
  tables.btablePrediction bi.bimodalIndex.toNat

def entryOf (tables : Tables) (bi : PredInfo) (bank : Nat) : TageEntry :=
  tables.gtable bank (bi.tableIndices bank).toNat

def bankMatches (tables : Tables) (bi : PredInfo) (bank : Nat) : Bool :=
  p.noSkip bank && (entryOf tables bi bank).tag == bi.tableTags bank

def searchDown (found : Nat → Bool) : Nat → Nat
  | 0 => 0
  | n + 1 => if found (n + 1) then n + 1 else searchDown found n

def findBanks (tables : Tables) (bi : PredInfo) : PredInfo :=
  let hitBank := searchDown (bankMatches p tables bi) p.nHistoryTables
  let altBank := searchDown (bankMatches p tables bi) (hitBank - 1)
  { bi with
    hitBank, altBank
    hitBankIndex := if 0 < hitBank then bi.tableIndices hitBank else bi.hitBankIndex
    altBankIndex := if 0 < altBank then bi.tableIndices altBank else bi.altBankIndex }

/-- The prediction and the alternate prediction of the banks found. The index
`getUseAltIdx` is 0 in the base class. -/
def choosePrediction (tables : Tables) (bi : PredInfo) : PredInfo :=
  if 0 < bi.hitBank then
    let altTaken :=
      if 0 < bi.altBank then decide (0 ≤ (entryOf tables bi bi.altBank).ctr)
      else getBimodePred tables bi
    let ctr := (entryOf tables bi bi.hitBank).ctr
    let longestMatchPred := decide (0 ≤ ctr)
    let pseudoNewAlloc := decide ((2 * ctr + 1).natAbs ≤ 1)
    let bi := { bi with altTaken, longestMatchPred, pseudoNewAlloc }
    if tables.useAltPredForNewlyAllocated 0 < 0 || !pseudoNewAlloc then
      { bi with tagePred := longestMatchPred, provider := some .tageLongestMatch }
    else
      { bi with
        tagePred := altTaken
        provider := some (if 0 < bi.altBank then .tageAltMatch else .bimodalAltMatch) }
  else
    let altTaken := getBimodePred tables bi
    { bi with
      altTaken, tagePred := altTaken, longestMatchPred := altTaken
      provider := some .bimodalOnly }

/-- An unconditional branch is predicted taken and leaves the record as it is. -/
def tagePredict (tables : Tables) (t : ThreadHistory) (branch_pc : Addr) (cond_branch : Bool)
    (bi : PredInfo) : Bool × PredInfo :=
  if !cond_branch then (true, bi)
  else
    let bi :=
      { bi with
        toBranchInfo := calculateIndicesAndTags p.toParams t branch_pc bi.toBranchInfo
        bimodalIndex := bindex p branch_pc }
    let bi := choosePrediction tables (findBanks p tables bi)
    (bi.tagePred, bi)

def Tables.access (tables : Tables) (bank : Nat) (index : BitVec 32) : Tables :=
  { tables with
    inBounds := tables.inBounds &&
      decide (1 ≤ bank ∧ bank ≤ p.nHistoryTables ∧ index.toNat < 2 ^ p.logTagTableSizes bank) }

@[simp] theorem Tables.access_gtable (tables : Tables) (bank : Nat) (index : BitVec 32) :
    (tables.access p bank index).gtable = tables.gtable := rfl

def Tables.modify (tables : Tables) (bank : Nat) (index : BitVec 32)
    (f : TageEntry → TageEntry) : Tables :=
  let tables := tables.access p bank index
  { tables with
    gtable := Function.update tables.gtable bank
      (Function.update (tables.gtable bank) index.toNat (f (tables.gtable bank index.toNat))) }

/-- Update the bimodal predictor: a hysteresis bit is shared among several
prediction bits. -/
def baseUpdate (tables : Tables) (taken : Bool) (bi : PredInfo) : Tables :=
  let index := bi.bimodalIndex.toNat
  let shared := index >>> p.logRatioBiModalHystEntries
  let inter := (tables.btablePrediction index).toNat * 2 + (tables.btableHysteresis shared).toNat
  let inter :=
    if taken then if inter < 3 then inter + 1 else inter
    else if 0 < inter then inter - 1 else inter
  { tables with
    btablePrediction := Function.update tables.btablePrediction index (decide (inter / 2 = 1))
    btableHysteresis := Function.update tables.btableHysteresis shared (decide (inter % 2 = 1)) }

def banksAbove (bi : PredInfo) : List Nat :=
  (List.range' (bi.hitBank + 1) (p.nHistoryTables - bi.hitBank)).reverse

def minUseful (tables : Tables) (bi : PredInfo) : Tables × Nat :=
  (banksAbove p bi).foldl
    (fun (tables, min) i =>
      let u := (entryOf tables bi i).u
      (tables.access p i (bi.tableIndices i), if u < min then u else min))
    (tables, 1)

def startBank (bi : PredInfo) (nrand : BitVec 32) : Nat :=
  let Y := (nrand.signExtend 64 &&& lowMask64 (p.nHistoryTables - bi.hitBank - 1)).setWidth 32
  let X := bi.hitBank + 1
  if Y.getLsbD 0 then
    if Y.getLsbD 1 then X + 2 else X + 1
  else X

def allocEntry (taken : Bool) (tag : BitVec 16) (entry : TageEntry) : TageEntry :=
  { entry with tag, ctr := if taken then 0 else -1 }

def allocLoop (taken : Bool) (bi : PredInfo) : List Nat → Nat → Tables → Tables × List Nat
  | [], _, tables => (tables, [])
  | i :: rest, numAllocated, tables =>
      if (entryOf tables bi i).u = 0 then
        let tables := tables.modify p i (bi.tableIndices i) (allocEntry taken (bi.tableTags i))
        if numAllocated + 1 = p.maxNumAlloc then (tables, [i])
        else
          let (tables, written) := allocLoop taken bi rest (numAllocated + 1) tables
          (tables, i :: written)
      else allocLoop taken bi rest numAllocated (tables.access p i (bi.tableIndices i))

def allocate (tables : Tables) (taken : Bool) (bi : PredInfo) (nrand : BitVec 32) :
    Tables × List Nat :=
  let (tables, min) := minUseful p tables bi
  let X := startBank p bi nrand
  let banks := List.range' X (p.nHistoryTables + 1 - X)
  if 0 < min then
    -- no entry available, forces one to be available
    let tables := tables.modify p X (bi.tableIndices X) fun entry => { entry with u := 0 }
    let (tables, written) := allocLoop p taken bi banks 0 tables
    (tables, X :: written)
  else allocLoop p taken bi banks 0 tables

def handleUReset (tables : Tables) : Tables :=
  if tables.tCounter &&& lowMask64 p.logUResetPeriod = 0 then
    { tables with
      gtable := fun i j =>
        let entry := tables.gtable i j
        if 1 ≤ i ∧ i ≤ p.nHistoryTables ∧ j < 2 ^ p.logTagTableSizes i then
          { entry with u := resetUctr entry.u }
        else entry }
  else tables

def handleAllocAndUReset (tables : Tables) (alloc taken : Bool) (bi : PredInfo)
    (nrand : BitVec 32) : Tables :=
  let tables := if alloc then (allocate p tables taken bi nrand).1 else tables
  handleUReset p { tables with tCounter := tables.tCounter + 1 }

def trainCtr (taken : Bool) (entry : TageEntry) : TageEntry :=
  { entry with ctr := ctrUpdate entry.ctr taken p.tagTableCounterBits }

def trainAlternate (tables : Tables) (taken : Bool) (bi : PredInfo) : Tables :=
  if (tables.gtable bi.hitBank bi.hitBankIndex.toNat).u = 0 then
    if 0 < bi.altBank then tables.modify p bi.altBank bi.altBankIndex (trainCtr p taken)
    else baseUpdate p tables taken bi
  else tables

def handleTAGEUpdate (tables : Tables) (taken : Bool) (bi : PredInfo) : Tables :=
  if 0 < bi.hitBank then
    let tables := tables.modify p bi.hitBank bi.hitBankIndex (trainCtr p taken)
    let tables := trainAlternate p tables taken bi
    if bi.tagePred != bi.altTaken then
      tables.modify p bi.hitBank bi.hitBankIndex fun entry =>
        { entry with u := unsignedCtrUpdate entry.u (bi.tagePred == taken) p.tagTableUBits }
    else tables
  else baseUpdate p tables taken bi

/-- Whether a new entry is allocated: only if the prediction was wrong, and not
if a newly allocated entry was right. -/
def wantsAlloc (taken : Bool) (bi : PredInfo) : Bool :=
  (bi.tagePred != taken) && decide (bi.hitBank < p.nHistoryTables) &&
    !(decide (0 < bi.hitBank) && bi.pseudoNewAlloc && (bi.longestMatchPred == taken))

def trainUseAlt (tables : Tables) (taken : Bool) (bi : PredInfo) : Tables :=
  if decide (0 < bi.hitBank) && bi.pseudoNewAlloc && (bi.longestMatchPred != bi.altTaken) then
    { tables with
      useAltPredForNewlyAllocated := Function.update tables.useAltPredForNewlyAllocated 0
        (ctrUpdate (tables.useAltPredForNewlyAllocated 0) (bi.altTaken == taken)
          p.useAltOnNaBits) }
  else tables

/-- `adjustAlloc` does nothing in the base class, so it makes no difference
whether it is called before or after. -/
def condBranchUpdate (tables : Tables) (taken : Bool) (bi : PredInfo) (nrand : BitVec 32) :
    Tables :=
  let tables := trainUseAlt p tables taken bi
  let tables := handleAllocAndUReset p tables (wantsAlloc p taken bi) taken bi nrand
  handleTAGEUpdate p tables taken bi

end Gem5Core.Pred.TageTables
