import Gem5Core.O3.StoreSets

/-! The memory dependence unit of one thread (`cpu/o3/mem_dep_unit.cc`). -/
namespace Gem5Core.O3.MemDep
open Pred.Branch StoreSets

structure MemInst where
  seqNum : InstSeqNum
  pc : Addr := 0
  isLoad : Bool := false
  isStore : Bool := false
  isAtomic : Bool := false
  isReadBarrier : Bool := false
  isWriteBarrier : Bool := false
  isHtmCmd : Bool := false

namespace MemInst

variable (i : MemInst)

def isMemRef : Bool := i.isLoad || i.isStore || i.isAtomic

def barsLoads : Bool := i.isReadBarrier || i.isHtmCmd

def barsStores : Bool := i.isWriteBarrier || i.isHtmCmd

def wakes : Bool :=
  i.isStore || i.isAtomic || i.isReadBarrier || i.isWriteBarrier || i.isHtmCmd

end MemInst

/-- The last two fields are history: how the instruction was entered, and the store that the
predictor named then (0 if none). -/
structure MemDepEntry where
  inst : MemInst
  dependInsts : List InstSeqNum := []
  regsReady : Bool := false
  memDeps : Nat := 0
  squashed : Bool := false
  viaInsert : Bool := false
  predicted : InstSeqNum := 0

inductive Cause
  | dependences | nonSpec | replay
  deriving DecidableEq

structure Move where
  entry : MemDepEntry
  cause : Cause

/-- `entries` has every entry ever made, as dependents keep theirs alive. `memDepHash` has those of
`instList`. `moves` and `youngest` are history: what was moved to the ready list, and the last
instruction entered. -/
structure MemDepUnit (assoc : Nat) where
  entries : InstSeqNum → MemDepEntry := fun seqNum => { inst := { seqNum } }
  instList : List InstSeqNum := []
  instsToReplay : List InstSeqNum := []
  depPred : StoreSet assoc := {}
  loadBarrierSNs : List InstSeqNum := []
  storeBarrierSNs : List InstSeqNum := []
  moves : List Move := []
  youngest : InstSeqNum := 0
  asserted : Bool := true

namespace MemDepUnit

variable {assoc : Nat} (p : Params assoc) (u : MemDepUnit assoc)

def modifyEntry (sn : InstSeqNum) (f : MemDepEntry → MemDepEntry) : MemDepUnit assoc :=
  { u with entries := Function.update u.entries sn (f (u.entries sn)) }

def hasLoadBarrier : Bool := !u.loadBarrierSNs.isEmpty

def hasStoreBarrier : Bool := !u.storeBarrierSNs.isEmpty

def insertBarrierSN (barr_inst : MemInst) : MemDepUnit assoc :=
  { u with
    loadBarrierSNs :=
      if barr_inst.barsLoads then u.loadBarrierSNs.insert barr_inst.seqNum
      else u.loadBarrierSNs
    storeBarrierSNs :=
      if barr_inst.barsStores then u.storeBarrierSNs.insert barr_inst.seqNum
      else u.storeBarrierSNs }

def findInHash (sn : InstSeqNum) : MemDepUnit assoc :=
  { u with asserted := u.asserted && decide (sn ∈ u.instList) }

def moveToReady (sn : InstSeqNum) (cause : Cause) : MemDepUnit assoc :=
  { u with
    moves := u.moves ++ [⟨u.entries sn, cause⟩]
    asserted := u.asserted && !(u.entries sn).squashed }

def enter (inst : MemInst) (viaInsert : Bool) : MemDepUnit assoc :=
  { u with
    entries := Function.update u.entries inst.seqNum { inst, viaInsert }
    instList := u.instList ++ [inst.seqNum]
    youngest := inst.seqNum }

/-- The store that the predictor names, which is asked only if no barrier is in flight. -/
def predictedStore (inst : MemInst) : InstSeqNum :=
  if (inst.isLoad || inst.isAtomic) && u.hasLoadBarrier then 0
  else if (inst.isStore || inst.isAtomic) && u.hasStoreBarrier then 0
  else u.depPred.checkInst p inst.pc

def producingStores (inst : MemInst) : List InstSeqNum :=
  if (inst.isLoad || inst.isAtomic) && u.hasLoadBarrier then u.loadBarrierSNs
  else if (inst.isStore || inst.isAtomic) && u.hasStoreBarrier then u.storeBarrierSNs
  else
    let dep := u.depPred.checkInst p inst.pc
    if dep != 0 then [dep] else []

def addDependent (sn : InstSeqNum) (u : MemDepUnit assoc) (store_entry : InstSeqNum) :
    MemDepUnit assoc :=
  u.modifyEntry store_entry fun e => { e with dependInsts := e.dependInsts ++ [sn] }

/-- The end of `insert` and `insertNonSpec`: an instruction that is no memory reference panics. -/
def insertStore (inst : MemInst) : MemDepUnit assoc :=
  if inst.isStore || inst.isAtomic then
    { u with depPred := u.depPred.insertStore p inst.pc inst.seqNum }
  else { u with asserted := u.asserted && inst.isLoad }

/-- `readyToIssue` is the answer of the instruction, `clearCanIssue` concerns its owner. -/
def insert (inst : MemInst) (readyToIssue : Bool) : MemDepUnit assoc :=
  let predicted := u.predictedStore p inst
  let u := u.enter inst true
  let store_entries := (u.producingStores p inst).filter (· ∈ u.instList)
  let u := u.modifyEntry inst.seqNum fun e => { e with regsReady := readyToIssue, predicted }
  let u :=
    if store_entries.isEmpty then
      let u := { u with asserted := u.asserted && (u.entries inst.seqNum).memDeps == 0 }
      if readyToIssue then u.moveToReady inst.seqNum .dependences else u
    else
      let u := store_entries.foldl (addDependent inst.seqNum) u
      u.modifyEntry inst.seqNum fun e => { e with memDeps := store_entries.length }
  let u := u.insertBarrierSN inst
  u.insertStore p inst

def insertBarrier (barr_inst : MemInst) : MemDepUnit assoc :=
  (u.enter barr_inst false).insertBarrierSN barr_inst

def insertNonSpec (inst : MemInst) : MemDepUnit assoc :=
  (u.insertBarrier inst).insertStore p inst

def regsReady (sn : InstSeqNum) : MemDepUnit assoc :=
  let u := u.findInHash sn
  let u := u.modifyEntry sn fun e => { e with regsReady := true }
  if (u.entries sn).memDeps == 0 then u.moveToReady sn .dependences else u

def nonSpecInstReady (sn : InstSeqNum) : MemDepUnit assoc :=
  (u.findInHash sn).moveToReady sn .nonSpec

def reschedule (sn : InstSeqNum) : MemDepUnit assoc :=
  { u with instsToReplay := u.instsToReplay ++ [sn] }

def replay : MemDepUnit assoc :=
  let u := u.instsToReplay.foldl (fun u sn => (u.findInHash sn).moveToReady sn .replay) u
  { u with instsToReplay := [] }

def wakeOne (u : MemDepUnit assoc) (woken_inst : InstSeqNum) : MemDepUnit assoc :=
  let u := { u with asserted := u.asserted && decide (0 < (u.entries woken_inst).memDeps) }
  let u := u.modifyEntry woken_inst fun e => { e with memDeps := e.memDeps - 1 }
  let e := u.entries woken_inst
  if e.memDeps == 0 && e.regsReady && !e.squashed then u.moveToReady woken_inst .dependences
  else u

def wakeDependents (sn : InstSeqNum) : MemDepUnit assoc :=
  -- only stores, atomics and barriers have dependents
  if !(u.entries sn).inst.wakes then u
  else
    let u := u.findInHash sn
    let u := (u.entries sn).dependInsts.foldl wakeOne u
    u.modifyEntry sn fun e => { e with dependInsts := [] }

def completed (sn : InstSeqNum) : MemDepUnit assoc :=
  let u := u.findInHash sn
  { u with instList := u.instList.filter (· != sn) }

def completeInst (sn : InstSeqNum) : MemDepUnit assoc :=
  let inst := (u.entries sn).inst
  let u := (u.wakeDependents sn).completed sn
  let u :=
    if inst.barsStores then
      { u with
        asserted := u.asserted && u.hasStoreBarrier
        storeBarrierSNs := u.storeBarrierSNs.filter (· != sn) }
    else u
  if inst.barsLoads then
    { u with
      asserted := u.asserted && u.hasLoadBarrier
      loadBarrierSNs := u.loadBarrierSNs.filter (· != sn) }
  else u

def squashInst (sn : InstSeqNum) : MemDepUnit assoc :=
  let u := u.findInHash sn
  let u := u.modifyEntry sn fun e => { e with squashed := true }
  { u with
    instList := u.instList.filter (· != sn)
    loadBarrierSNs := u.loadBarrierSNs.filter (· != sn)
    storeBarrierSNs := u.storeBarrierSNs.filter (· != sn) }

def squashLoop (squashed_num : InstSeqNum) : List InstSeqNum → MemDepUnit assoc → MemDepUnit assoc
  | [], u => u
  | sn :: older, u =>
      if squashed_num < sn then squashLoop squashed_num older (u.squashInst sn) else u

def squash (squashed_num : InstSeqNum) : MemDepUnit assoc :=
  let u := { u with instsToReplay := u.instsToReplay.filter (· ≤ squashed_num) }
  let u := squashLoop squashed_num u.instList.reverse u
  { u with depPred := u.depPred.squash squashed_num }

def violation (store_PC load_PC : Addr) (storeVictim loadVictim : Fin assoc) : MemDepUnit assoc :=
  { u with depPred := u.depPred.violation p store_PC load_PC storeVictim loadVictim }

def issue (inst : MemInst) : MemDepUnit assoc :=
  { u with depPred := u.depPred.issued p inst.pc inst.seqNum inst.isStore }

end MemDepUnit

inductive Event (assoc : Nat)
  | insert (inst : MemInst) (readyToIssue : Bool)
  | insertNonSpec (inst : MemInst)
  | insertBarrier (barr_inst : MemInst)
  | regsReady (sn : InstSeqNum)
  | nonSpecInstReady (sn : InstSeqNum)
  | reschedule (sn : InstSeqNum)
  | replay
  | completeInst (sn : InstSeqNum)
  | squash (squashed_num : InstSeqNum)
  | violation (store_PC load_PC : Addr) (storeVictim loadVictim : Fin assoc)
  | issue (inst : MemInst)

variable {assoc : Nat}

def step (p : Params assoc) (u : MemDepUnit assoc) : Event assoc → MemDepUnit assoc
  | .insert inst readyToIssue => u.insert p inst readyToIssue
  | .insertNonSpec inst => u.insertNonSpec p inst
  | .insertBarrier barr_inst => u.insertBarrier barr_inst
  | .regsReady sn => u.regsReady sn
  | .nonSpecInstReady sn => u.nonSpecInstReady sn
  | .reschedule sn => u.reschedule sn
  | .replay => u.replay
  | .completeInst sn => u.completeInst sn
  | .squash squashed_num => u.squash squashed_num
  | .violation store_PC load_PC storeVictim loadVictim =>
      u.violation p store_PC load_PC storeVictim loadVictim
  | .issue inst => u.issue p inst

end Gem5Core.O3.MemDep
