import Gem5Core.Base.IntMath
import Gem5Core.Lib.Ledger
import Gem5Core.Pred.Branch

/-! `SimpleIndirectPredictor`: a target cache indexed by a hash of the branch address, the direction
history and the recent indirect targets. `rand()` is an argument. -/
namespace Gem5Core.Pred.Indirect
open Branch Base.IntMath Lib.Ledger

variable {PC : Type}

/-- The parameters, restricted by the constructor's two checks. -/
structure Params where
  hashGHR : Bool
  hashTargets : Bool
  numSets : Unsigned
  numWays : Nat
  tagBits : Nat
  pathLength : Nat
  speculativePathLength : Nat
  instShift : Nat
  ghrNumBits : Nat
  numSets_pow : isPowerOf2 numSets = true
  ghrNumBits_le : ghrNumBits ≤ 32

def Params.defaults : Params where
  hashGHR := true
  hashTargets := true
  numSets := 256
  numWays := 2
  tagBits := 16
  pathLength := 3
  speculativePathLength := 256
  instShift := 0
  ghrNumBits := 13
  numSets_pow := by decide
  ghrNumBits_le := by decide

def Params.ghrMask (p : Params) : Unsigned := (1 <<< p.ghrNumBits) - 1

structure IPredEntry (PC : Type) where
  tag : Addr := 0
  target : Option PC := none

structure HistoryEntry where
  pcAddr : Addr
  targetAddr : Addr
  seqNum : InstSeqNum
deriving DecidableEq

/-- `addr` is the address of the record itself. `set_index`, `tag` and `hit` start unset in the
source and are written before they are read. -/
structure IndirectHistory where
  addr : Nat
  pcAddr : Addr := -1
  set_index : Addr := 0
  tag : Addr := 0
  hit : Bool := false
  ghr : Unsigned
  was_indirect : Bool := false
deriving DecidableEq

/-- `pathHist` is oldest first, as the deque is. -/
structure ThreadInfo where
  pathHist : List HistoryEntry := []
  ghr : Unsigned := 0
deriving DecidableEq

structure Stats where
  lookups : Nat := 0
  hits : Nat := 0
  misses : Nat := 0
  targetRecords : Nat := 0
  indirectRecords : Nat := 0
  speculativeOverflows : Nat := 0
deriving DecidableEq

structure SimpleIndirectPredictor (PC : Type) where
  targetCache : Addr → List (IPredEntry PC)
  threadInfo : ThreadID → ThreadInfo
  heap : Heap
  stats : Stats
  asserted : Bool

namespace SimpleIndirectPredictor

def init (p : Params) : SimpleIndirectPredictor PC :=
  ⟨fun _ => List.replicate p.numWays {}, fun _ => {}, .empty, {}, true⟩

/-- The targets hashed into the index, youngest first, each shifted further. -/
def hashPath (p : Params) (pathHist : List HistoryEntry) (hash : Addr) : Addr :=
  let hash_shift := floorLog2 p.numSets / p.pathLength
  (pathHist.reverse.take p.pathLength).zipIdx.foldl
    (fun hash (entry, i) => hash ^^^ entry.targetAddr.ushiftRight (p.instShift + i * hash_shift))
    hash

def getSetIndex (p : Params) (info : ThreadInfo) (br_addr : Addr) : Addr :=
  let hash := br_addr >>> p.instShift
  let hash := if p.hashGHR then hash ^^^ info.ghr.setWidth 64 else hash
  let hash := if p.hashTargets then hashPath p info.pathHist hash else hash
  hash &&& (p.numSets - 1).setWidth 64

def getTag (p : Params) (br_addr : Addr) : Addr :=
  (br_addr >>> p.instShift) &&& ((1 <<< p.tagBits) - 1)

variable (iPred : SimpleIndirectPredictor PC)

def setInfo (tid : ThreadID) (info : ThreadInfo) : SimpleIndirectPredictor PC :=
  { iPred with threadInfo := Function.update iPred.threadInfo tid info }

def check (condition : Bool) : SimpleIndirectPredictor PC :=
  { iPred with asserted := iPred.asserted && condition }

def genIndirectInfo (tid : ThreadID) : SimpleIndirectPredictor PC × IndirectHistory :=
  ({ iPred with heap := iPred.heap.new },
    { addr := iPred.heap.next, ghr := (iPred.threadInfo tid).ghr })

def findTarget (ways : List (IPredEntry PC)) (tag : Addr) : Option PC :=
  (ways.find? fun way => way.tag == tag && way.target.isSome).bind IPredEntry.target

def lookup (p : Params) (tid : ThreadID) (pc : Addr) (i_history : Option IndirectHistory) :
    Option PC × SimpleIndirectPredictor PC × Option IndirectHistory :=
  let iPred := iPred.check i_history.isNone
  let (iPred, history) := iPred.genIndirectInfo tid
  let set_index := getSetIndex p (iPred.threadInfo tid) pc
  let tag := getTag p pc
  let iPred := iPred.check (set_index < p.numSets.setWidth 64)
  let target := findTarget (iPred.targetCache set_index) tag
  let history :=
    { history with pcAddr := pc, was_indirect := true, set_index, tag, hit := target.isSome }
  let stats := { iPred.stats with lookups := iPred.stats.lookups + 1 }
  let stats :=
    if target.isSome then { stats with hits := stats.hits + 1 }
    else { stats with misses := stats.misses + 1 }
  (target, { iPred with stats }, some history)

def commit (p : Params) (tid : ThreadID) (i_history : Option IndirectHistory) :
    SimpleIndirectPredictor PC × Option IndirectHistory :=
  match i_history with
  | none => (iPred, none)
  | some history =>
      let info := iPred.threadInfo tid
      -- drop the oldest entries until fewer remain than the `unsigned` sum of the two lengths
      let excess := info.pathHist.length + 1 - (p.pathLength + p.speculativePathLength) % 2 ^ 32
      let iPred := iPred.setInfo tid { info with pathHist := info.pathHist.drop excess }
      ({ iPred with heap := iPred.heap.delete history.addr }, none)

def isIndirectNoReturn : BranchType → Bool
  | .callIndirect | .indirectUncond | .indirectCond => true
  | _ => false

/-- The cache set after recording: the first way with the tag is overwritten,
else a random one is replaced. -/
def recordWays (ways : List (IPredEntry PC)) (tag : Addr) (target : PC) (way : Nat) :
    List (IPredEntry PC) :=
  match ways.findIdx? fun way => way.tag == tag with
  | some i => ways.modify i fun entry => { entry with target := some target }
  | none => ways.set way { tag, target := some target }

def recordTarget (p : Params) (tid : ThreadID) (target : PC) (history : IndirectHistory)
    (rand : Nat) : SimpleIndirectPredictor PC :=
  let iPred := iPred.check (!(iPred.threadInfo tid).pathHist.isEmpty)
  let iPred := iPred.check history.was_indirect
  let iPred := iPred.check (history.set_index < p.numSets.setWidth 64)
  { iPred with
    stats := { iPred.stats with targetRecords := iPred.stats.targetRecords + 1 }
    targetCache := Function.update iPred.targetCache history.set_index
      (recordWays (iPred.targetCache history.set_index) history.tag target (rand % p.numWays)) }

def updateDirectionInfo (p : Params) (info : ThreadInfo) (taken : Bool) : ThreadInfo :=
  { info with
    ghr := ((info.ghr <<< 1) ||| (if taken then 1 else 0)) &&& p.ghrMask }

def updateRecord [PCState PC] (p : Params) (tid : ThreadID) (sn : InstSeqNum)
    (squash taken : Bool) (target : PC) (br_type : BranchType) (history : IndirectHistory)
    (rand : Nat) : SimpleIndirectPredictor PC × IndirectHistory :=
  let info := iPred.threadInfo tid
  let history := { history with was_indirect := isIndirectNoReturn br_type }
  -- a squash first takes back what this branch did to the histories
  let info := if squash then { info with ghr := history.ghr } else info
  let info :=
    if squash && history.was_indirect then { info with pathHist := info.pathHist.dropLast }
    else info
  let history :=
    if squash && history.was_indirect then
      { history with
        set_index := getSetIndex p info history.pcAddr
        tag := getTag p history.pcAddr }
    else history
  let iPred :=
    if history.was_indirect then
      { iPred with
        stats := { iPred.stats with indirectRecords := iPred.stats.indirectRecords + 1 } }
    else iPred
  let info :=
    if history.was_indirect then
      { info with
        pathHist := info.pathHist ++ [⟨history.pcAddr, PCState.instAddr target, sn⟩] }
    else info
  let iPred := iPred.setInfo tid (updateDirectionInfo p info taken)
  if squash && history.was_indirect && taken then
    (iPred.recordTarget p tid target history rand, history)
  else (iPred, history)

def update [PCState PC] (p : Params) (tid : ThreadID) (sn : InstSeqNum)
    (squash taken : Bool) (target : PC) (br_type : BranchType)
    (i_history : Option IndirectHistory) (rand : Nat) :
    SimpleIndirectPredictor PC × Option IndirectHistory :=
  let (iPred, history) :=
    match i_history with
    | none => iPred.genIndirectInfo tid
    | some history => (iPred, history)
  let (iPred, history) :=
    iPred.updateRecord p tid sn squash taken target br_type history rand
  (iPred, some history)

def squash (p : Params) (tid : ThreadID) (i_history : Option IndirectHistory) :
    SimpleIndirectPredictor PC × Option IndirectHistory :=
  match i_history with
  | none => (iPred, none)
  | some history =>
      let info := { iPred.threadInfo tid with ghr := history.ghr }
      let iPred :=
        if history.was_indirect && decide (info.pathHist.length < p.pathLength) then
          { iPred with stats := { iPred.stats with
              speculativeOverflows := iPred.stats.speculativeOverflows + 1 } }
        else iPred
      let info :=
        if history.was_indirect then { info with pathHist := info.pathHist.dropLast } else info
      let iPred := iPred.setInfo tid info
      ({ iPred with heap := iPred.heap.delete history.addr }, none)

variable (p : Params)

theorem getSetIndex_lt (info : ThreadInfo) (br_addr : Addr) :
    getSetIndex p info br_addr < p.numSets.setWidth 64 := by
  rw [BitVec.lt_def]
  unfold getSetIndex
  exact and_sub_one_lt _ (isPowerOf2_pos p.numSets_pow)

variable (tid : ThreadID)

theorem lookup_none (pc : Addr) :
    ∃ target iPred' history, iPred.lookup p tid pc none = (target, iPred', some history) ∧
      iPred'.heap = iPred.heap.new ∧ iPred'.asserted = iPred.asserted ∧
      history.addr = iPred.heap.next := by
  refine ⟨_, _, _, rfl, rfl, ?_, rfl⟩
  simp [check, getSetIndex_lt]

section

variable [PCState PC] (sn : InstSeqNum) (squash taken : Bool) (target : PC) (br_type : BranchType)

theorem updateRecord_spec (history : IndirectHistory) (rand : Nat) :
    (iPred.updateRecord p tid sn squash taken target br_type history rand).1.heap = iPred.heap ∧
      (iPred.updateRecord p tid sn squash taken target br_type history rand).1.asserted =
        iPred.asserted ∧
      (iPred.updateRecord p tid sn squash taken target br_type history rand).2.addr =
        history.addr := by
  unfold updateRecord
  cases squash <;> cases taken <;> cases isIndirectNoReturn br_type <;>
    simp [setInfo, recordTarget, check, updateDirectionInfo, getSetIndex_lt]

theorem update_none (rand : Nat) :
    ∃ iPred' history, iPred.update p tid sn squash taken target br_type none rand =
      (iPred', some history) ∧ iPred'.heap = iPred.heap.new ∧
      iPred'.asserted = iPred.asserted ∧ history.addr = iPred.heap.next := by
  have h := (iPred.genIndirectInfo tid).1.updateRecord_spec p tid sn squash taken target br_type
    (iPred.genIndirectInfo tid).2 rand
  exact ⟨_, _, rfl, h.1, h.2.1, h.2.2⟩

theorem update_some (history : IndirectHistory) (rand : Nat) :
    ∃ iPred' history', iPred.update p tid sn squash taken target br_type (some history) rand =
      (iPred', some history') ∧ iPred'.heap = iPred.heap ∧
      iPred'.asserted = iPred.asserted ∧ history'.addr = history.addr := by
  have h := iPred.updateRecord_spec p tid sn squash taken target br_type history rand
  exact ⟨_, _, rfl, h.1, h.2.1, h.2.2⟩

end

theorem commit_some (history : IndirectHistory) :
    ∃ iPred', iPred.commit p tid (some history) = (iPred', none) ∧
      iPred'.heap = iPred.heap.delete history.addr ∧ iPred'.asserted = iPred.asserted :=
  ⟨_, rfl, rfl, rfl⟩

theorem squash_some (history : IndirectHistory) :
    ∃ iPred', iPred.squash p tid (some history) = (iPred', none) ∧
      iPred'.heap = iPred.heap.delete history.addr ∧ iPred'.asserted = iPred.asserted := by
  refine ⟨_, rfl, ?_, ?_⟩ <;>
  · split <;> rfl

end SimpleIndirectPredictor

end Gem5Core.Pred.Indirect
