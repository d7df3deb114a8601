import Gem5Core.Lib.Indexed
import Gem5Core.Pred.Branch

/-! The load queue and the store queue of one thread (`cpu/o3/lsq_unit.cc`). -/
namespace Gem5Core.O3.Lsq
open Pred.Branch

abbrev Byte := BitVec 8

/-- The `mainReq` of an access; `paddrs` has the physical address of each of its parts. -/
structure Request where
  vaddr : Addr
  size : Nat
  paddrs : List Addr := []
  isLLSC : Bool := false
  isRelease : Bool := false
  isMasked : Bool := false
  isCacheMaintenance : Bool := false
  isStrictlyOrdered : Bool := false
  isLocalAccess : Bool := false
  storeNoData : Bool := false
  cacheBlockZero : Bool := false

def Request.isCacheBlockHit (r : Request) (blockAddr cacheBlockMask : Addr) : Bool :=
  r.paddrs.any fun a => a &&& cacheBlockMask == blockAddr

/-- `request` and `data` are what its `initiateAcc` will compute. -/
structure DynInst where
  seqNum : InstSeqNum
  request : Request
  data : Nat → Byte := fun _ => 0
  isAtomic : Bool := false
  isStoreConditional : Bool := false
  isDataPrefetch : Bool := false

namespace DynInst

variable (inst : DynInst)

def effAddr : Addr := inst.request.vaddr
def effSize : Nat := inst.request.size
def strictlyOrdered : Bool := inst.request.isStrictlyOrdered

def lastAddr : Addr := inst.effAddr + BitVec.ofNat 64 inst.effSize - 1

def granulesOverlap (depCheckShift : Nat) (ld_inst : DynInst) : Bool :=
  ld_inst.effAddr >>> depCheckShift ≤ inst.lastAddr >>> depCheckShift &&
    inst.effAddr >>> depCheckShift ≤ ld_inst.lastAddr >>> depCheckShift

end DynInst

/-- `outstanding`: the cache took a packet of the current request. `memData` has the bytes that this
request, or a store that was forwarded, has supplied so far. `reExec`: the fault of the instruction
is `ReExec`. -/
structure LQEntry where
  inst : DynInst
  sqIt : Nat
  hasRequest : Bool := false
  outstanding : Bool := false
  effAddrValid : Bool := false
  isExecuted : Bool := false
  possibleLoadViolation : Bool := false
  hitExternalSnoop : Bool := false
  reExec : Bool := false
  memData : Nat → Option Byte := fun _ => none

def LQEntry.reschedule (ld : LQEntry) : LQEntry :=
  { ld with hasRequest := false, outstanding := false, effAddrValid := false, memData := fun _ => none }

/-- A store with its entry; `size` is 0 until `write`. -/
structure SQEntry where
  inst : DynInst
  lqIt : Nat
  size : Nat := 0
  data : Nat → Byte := fun _ => 0
  isAllZeros : Bool := false
  canWB : Bool := false
  committed : Bool := false
  completed : Bool := false

namespace SQEntry

def byte (st : SQEntry) (i : Nat) : Byte := if st.isAllZeros then 0 else st.data i

def write (st : SQEntry) : SQEntry :=
  let req := st.inst.request
  { st with
    size := req.size
    isAllZeros := req.storeNoData
    data :=
      if req.cacheBlockZero || req.isCacheMaintenance || st.inst.isAtomic then st.data
      else st.inst.data }

end SQEntry

structure Params where
  depCheckShift : Nat
  checkLoads : Bool := true
  needsTSO : Bool := false
  cacheBlockMask : Addr := ~~~63#64
  lqEntries : Nat
  sqEntries : Nat

inductive AddrRangeCoverage
  | partialAddrRangeCoverage | fullAddrRangeCoverage | noAddrRangeCoverage
  deriving DecidableEq

/-- How far `initiateAcc` comes: a translation is pending, the instruction faults or is
predicated false, or `read` or `write` is called. -/
inductive Outcome
  | delayed | notAccessed | accessed
  deriving DecidableEq

inductive ReadResult
  | strictlyOrdered
  | localAccess
  | forwarded (store_it : Nat) (bytes : Nat → Byte)
  | rescheduled (store_it : Nat)
  | panicked
  | memory

/-- What an iteration of `writebackStores` finds: whether a store conditional succeeds and
whether the cache takes the packets. -/
structure Answer where
  success : Bool := true
  sent : Bool := true

/-- Both queues hold their entries from the oldest on. The fields from `replays` on are history: the
loads passed to `replayMemInst`, the stores passed to `completeStore`, the stores sent, the
violators found and not squashed yet, and the loads committed. -/
structure LSQUnit where
  loadQueue : List LQEntry := []
  loadHead : Nat := 1
  storeQueue : List SQEntry := []
  storeHead : Nat := 1
  storeWBIt : Nat := 1
  storesToWB : Int := 0
  memDepViolator : Option InstSeqNum := none
  stalled : Bool := false
  stallingStoreIsn : InstSeqNum := 0
  stallingLoadIdx : Nat := 0
  isStoreBlocked : Bool := false
  storeInFlight : Bool := false
  asserted : Bool := true
  replays : List Nat := []
  completions : List InstSeqNum := []
  sent : List SQEntry := []
  violators : List InstSeqNum := []
  retired : List LQEntry := []

namespace LSQUnit

variable (p : Params) (u : LSQUnit)

def loadEnd : Nat := u.loadHead + u.loadQueue.length

def storeEnd : Nat := u.storeHead + u.storeQueue.length

def loadAt (idx : Nat) : Option LQEntry := Lib.Indexed.lookup u.loadHead u.loadQueue idx

def storeAt (idx : Nat) : Option SQEntry := Lib.Indexed.lookup u.storeHead u.storeQueue idx

def modifyLoad (idx : Nat) (f : LQEntry → LQEntry) : LSQUnit :=
  { u with loadQueue := u.loadQueue.modify (idx - u.loadHead) f }

def modifyStore (idx : Nat) (f : SQEntry → SQEntry) : LSQUnit :=
  { u with storeQueue := u.storeQueue.modify (idx - u.storeHead) f }

def insertLoad (load_inst : DynInst) : LSQUnit :=
  { u with
    asserted := u.asserted && decide (u.loadQueue.length < p.lqEntries)
    loadQueue := u.loadQueue ++ [{ inst := load_inst, sqIt := u.storeEnd }] }

def insertStore (store_inst : DynInst) : LSQUnit :=
  { u with
    asserted := u.asserted && decide (u.storeQueue.length < p.sqEntries)
    storeQueue := u.storeQueue ++ [{ inst := store_inst, lqIt := u.loadEnd }] }

def getMemDepViolator : LSQUnit := { u with memDepViolator := none }

def snoopLoads (invalidate_addr : Addr) : Bool → List LQEntry → List LQEntry
  | _, [] => []
  | force_squash, ld :: rest =>
      if !ld.effAddrValid || ld.inst.strictlyOrdered || !ld.hasRequest then
        ld :: snoopLoads invalidate_addr force_squash rest
      else if force_squash || ld.inst.request.isCacheBlockHit invalidate_addr p.cacheBlockMask then
        let force_squash := force_squash || p.needsTSO
        let ld :=
          if ld.possibleLoadViolation || force_squash then { ld with reExec := true }
          else { ld with hitExternalSnoop := true }
        ld :: snoopLoads invalidate_addr force_squash rest
      else ld :: snoopLoads invalidate_addr force_squash rest

/-- The load at the head is not looked at. -/
def checkSnoop (addr : Addr) : LSQUnit :=
  match u.loadQueue with
  | [] => u
  | head :: rest =>
      { u with loadQueue := head :: snoopLoads p (addr &&& p.cacheBlockMask) false rest }

def checkLoop (inst : DynInst) (isLoad : Bool) (memDepViolator : Option InstSeqNum) :
    List LQEntry → List LQEntry × Option InstSeqNum
  | [] => ([], none)
  | ld :: rest =>
      let next := checkLoop inst isLoad memDepViolator rest
      if !ld.effAddrValid || ld.inst.strictlyOrdered ||
          !inst.granulesOverlap p.depCheckShift ld.inst then
        (ld :: next.1, next.2)
      else if isLoad then
        if ld.hitExternalSnoop && memDepViolator.all (ld.inst.seqNum < ·) then
          (ld :: rest, some ld.inst.seqNum)
        else ({ ld with possibleLoadViolation := true } :: next.1, next.2)
      else if memDepViolator.any (· < ld.inst.seqNum) then (ld :: rest, none)
      else (ld :: rest, some ld.inst.seqNum)

def checkViolations (loadIt : Nat) (inst : DynInst) (isLoad : Bool) : LSQUnit :=
  let r := checkLoop p inst isLoad u.memDepViolator (u.loadQueue.drop (loadIt - u.loadHead))
  { u with
    loadQueue := u.loadQueue.take (loadIt - u.loadHead) ++ r.1
    memDepViolator := r.2.or u.memDepViolator
    violators := u.violators ++ r.2.toList }

def coverage (request : Request) (st : SQEntry) : AddrRangeCoverage :=
  let req_s := request.vaddr
  let req_e := req_s + BitVec.ofNat 64 request.size
  let st_s := st.inst.effAddr
  let st_e := st_s + BitVec.ofNat 64 st.size
  let store_has_lower_limit : Bool := st_s ≤ req_s
  let store_has_upper_limit : Bool := req_e ≤ st_e
  let lower_load_has_store_part : Bool := req_s < st_e
  let upper_load_has_store_part : Bool := st_s < req_e
  if !st.inst.isAtomic && store_has_lower_limit && store_has_upper_limit && !request.isLLSC then
    if st.inst.request.isMasked then .partialAddrRangeCoverage else .fullAddrRangeCoverage
  else if
      (!request.isLLSC &&
        ((store_has_lower_limit && lower_load_has_store_part) ||
          (store_has_upper_limit && upper_load_has_store_part) ||
          (lower_load_has_store_part && upper_load_has_store_part))) ||
      (request.isLLSC &&
        ((store_has_lower_limit || upper_load_has_store_part) &&
          (store_has_upper_limit || lower_load_has_store_part))) ||
      (st.inst.isAtomic &&
        ((store_has_lower_limit || upper_load_has_store_part) &&
          (store_has_upper_limit || lower_load_has_store_part))) then
    .partialAddrRangeCoverage
  else .noAddrRangeCoverage

/-- A store that carries data for loads: it has executed, and is neither strictly ordered
nor cache maintenance. -/
def mayForward (st : SQEntry) : Bool :=
  st.size != 0 && !st.inst.strictlyOrdered && !st.inst.request.isCacheMaintenance

def searchStores (request : Request) : Nat → ReadResult
  | 0 => .memory
  | n + 1 =>
      match u.storeAt (u.storeWBIt + n) with
      | none => .panicked
      | some st =>
        if mayForward st then
          match coverage request st with
          | .fullAddrRangeCoverage =>
              .forwarded (u.storeWBIt + n) fun i => st.byte ((request.vaddr - st.inst.effAddr).toNat + i)
          | .partialAddrRangeCoverage =>
              if st.completed then .panicked else .rescheduled (u.storeWBIt + n)
          | .noAddrRangeCoverage => searchStores request n
        else searchStores request n

def readResult (load_idx : Nat) (ld : LQEntry) (isAtCommit : Bool) : ReadResult :=
  let request := ld.inst.request
  if request.isStrictlyOrdered && (load_idx != u.loadHead || !isAtCommit) then .strictlyOrdered
  else if request.isLocalAccess then .localAccess
  else if ld.sqIt < u.storeWBIt then .panicked
  else if ld.inst.isDataPrefetch then .memory
  else u.searchStores request (ld.sqIt - u.storeWBIt)

def stall (load_idx : Nat) (load_inst : DynInst) (store_it : Nat) : LSQUnit :=
  let older := !u.stalled || (u.loadAt u.stallingLoadIdx).any (load_inst.seqNum < ·.inst.seqNum)
  { u with
    stalled := true
    stallingStoreIsn :=
      if older then ((u.storeAt store_it).map (·.inst.seqNum)).getD 0 else u.stallingStoreIsn
    stallingLoadIdx := if older then load_idx else u.stallingLoadIdx }

/-- `accepted`: the cache takes a packet, if the load goes there. -/
def read (load_idx : Nat) (isAtCommit accepted : Bool) : LSQUnit :=
  match u.loadAt load_idx with
  | none => u
  | some ld =>
    match u.readResult load_idx ld isAtCommit with
    | .strictlyOrdered =>
        u.modifyLoad load_idx fun ld => { ld.reschedule with isExecuted := isAtCommit }
    | .localAccess =>
        u.modifyLoad load_idx fun ld => { ld with hasRequest := true, outstanding := true }
    | .forwarded _ bytes =>
        -- packets that are on their way belong to a request that is dropped
        u.modifyLoad load_idx fun ld =>
          { ld with
            hasRequest := !ld.outstanding
            outstanding := false
            memData := fun i => some (bytes i) }
    | .rescheduled store_it =>
        (u.stall load_idx ld.inst store_it).modifyLoad load_idx LQEntry.reschedule
    | .panicked => { u with asserted := false }
    | .memory =>
        u.modifyLoad load_idx fun ld =>
          { ld with hasRequest := true, outstanding := ld.outstanding || accepted }

def executeLoad (load_idx : Nat) (outcome : Outcome) (isAtCommit accepted : Bool) : LSQUnit :=
  match u.loadAt load_idx with
  | none => u
  | some ld =>
    if ld.isExecuted then u
    else
      match outcome with
      | .delayed => u
      | .notAccessed => u.modifyLoad load_idx fun ld => { ld with isExecuted := true }
      | .accessed =>
        -- a request in the state `Fault` is not sent again
        if ld.reExec then u.modifyLoad load_idx fun ld => { ld with isExecuted := true }
        else
          let u := u.modifyLoad load_idx fun ld => { ld with effAddrValid := true }
          let u := u.read load_idx isAtCommit accepted
          if p.checkLoads && (u.loadAt load_idx).any (·.effAddrValid) then
            u.checkViolations p (load_idx + 1) ld.inst true
          else u

def recvData (load_idx offset : Nat) (byte : Byte) : LSQUnit :=
  u.modifyLoad load_idx fun ld =>
    if ld.hasRequest && ld.outstanding then
      { ld with memData := Function.update ld.memData offset (some byte) }
    else ld

def writeback (load_idx : Nat) : LSQUnit :=
  u.modifyLoad load_idx fun ld => { ld with isExecuted := true }

/-- Store conditionals and atomics may write back as soon as they have executed. -/
def allowWB (store_idx : Nat) : LSQUnit :=
  { u with
    storeQueue := u.storeQueue.modify (store_idx - u.storeHead) ({ · with canWB := true })
    storesToWB := u.storesToWB + 1 }

def executeStore (store_idx : Nat) (outcome : Outcome) : LSQUnit :=
  match outcome with
  | .delayed | .notAccessed => u
  | .accessed =>
    let u := u.modifyStore store_idx SQEntry.write
    match u.storeAt store_idx with
    | none => u
    | some st =>
      if st.size == 0 then u
      else
        let u := if st.inst.isStoreConditional || st.inst.isAtomic then u.allowWB store_idx else u
        u.checkViolations p st.lqIt st.inst false

def commitLoads (youngest_inst : InstSeqNum) : LSQUnit :=
  let committed := u.loadQueue.takeWhile (·.inst.seqNum ≤ youngest_inst)
  { u with
    loadQueue := u.loadQueue.dropWhile (·.inst.seqNum ≤ youngest_inst)
    loadHead := u.loadHead + committed.length
    retired := u.retired ++ committed }

def markStores (youngest_inst : InstSeqNum) : List SQEntry → List SQEntry × Nat
  | [] => ([], 0)
  | x :: rest =>
      let next := markStores youngest_inst rest
      if x.canWB then (x :: next.1, next.2)
      else if youngest_inst < x.inst.seqNum then (x :: rest, 0)
      else ({ x with canWB := true } :: next.1, next.2 + 1)

def commitStores (youngest_inst : InstSeqNum) : LSQUnit :=
  let r := markStores youngest_inst u.storeQueue
  { u with storeQueue := r.1, storesToWB := u.storesToWB + r.2 }

def unstall (store_isn : InstSeqNum) : LSQUnit :=
  let stalls := u.stalled && store_isn == u.stallingStoreIsn
  { u with
    stalled := u.stalled && !stalls
    stallingStoreIsn := if stalls then 0 else u.stallingStoreIsn
    replays := if stalls then u.replays ++ [u.stallingLoadIdx] else u.replays }

/-- If the store is the head it leaves, and every completed store behind it. -/
def popCompleted (store_idx : Nat) : LSQUnit :=
  let gone :=
    if store_idx == u.storeHead then 1 + (u.storeQueue.tail.takeWhile (·.completed)).length else 0
  { u with storeQueue := u.storeQueue.drop gone, storeHead := u.storeHead + gone }

def completeStore (store_idx : Nat) : LSQUnit :=
  match u.storeAt store_idx with
  | none => { u with asserted := false }
  | some st =>
    let u := u.modifyStore store_idx ({ · with completed := true })
    let u := { u with storesToWB := u.storesToWB - 1, completions := u.completions ++ [st.inst.seqNum] }
    let u := (u.popCompleted store_idx).unstall st.inst.seqNum
    { u with storeInFlight := u.storeInFlight && !p.needsTSO }

def storePostSend : LSQUnit :=
  match u.storeAt u.storeWBIt with
  | none => u
  | some st =>
    let u := u.unstall st.inst.seqNum
    { u with
      storeInFlight := u.storeInFlight || p.needsTSO
      storeWBIt := u.storeWBIt + 1
      sent := u.sent ++ [st] }

def setBlocked (b : Bool) : LSQUnit := { u with isStoreBlocked := b }

def sendStore (a : Answer) : LSQUnit :=
  if a.sent then (u.setBlocked false).storePostSend p else u.setBlocked true

/-- `writebackBlockedStore`, also the effect of `recvRetry`. -/
def writebackBlockedStore (a : Answer) : LSQUnit :=
  if u.isStoreBlocked then u.sendStore p a else u

def moveWBIt (it : Nat) : LSQUnit := { u with storeWBIt := it }

/-- The loop of `writebackStores`: one answer for each iteration for which
`cachePortAvailable` holds. -/
def writebackLoop : LSQUnit → List Answer → LSQUnit
  | u, [] => u
  | u, a :: answers =>
      match u.storeAt u.storeWBIt with
      | none => u
      | some st =>
        if !(decide (0 < u.storesToWB) && st.canWB && (!p.needsTSO || !u.storeInFlight)) ||
            u.isStoreBlocked then u
        else if st.size == 0 then
          writebackLoop ((u.moveWBIt (u.storeWBIt + 1)).completeStore p u.storeWBIt) answers
        else if st.inst.isDataPrefetch then writebackLoop (u.moveWBIt (u.storeWBIt + 1)) answers
        else if (st.inst.request.isLLSC || st.inst.request.isRelease) &&
            u.storeWBIt != u.storeHead then u
        else
          let u := { u with asserted := u.asserted && !st.committed }
          let u := u.modifyStore u.storeWBIt ({ · with committed := true })
          if st.inst.isStoreConditional && !a.success then
            let u := u.completeStore p u.storeWBIt
            let next := if u.storeQueue.isEmpty then u.storeEnd else u.storeWBIt + 1
            writebackLoop (u.moveWBIt next) answers
          else if st.inst.request.isLocalAccess then
            let u := u.completeStore p u.storeWBIt
            writebackLoop (u.moveWBIt (u.storeWBIt + 1)) answers
          else writebackLoop (u.sendStore p a) answers

/-- `blocked` answers for the store that was blocked before. -/
def writebackStores (blocked : Answer) (answers : List Answer) : LSQUnit :=
  writebackLoop p (u.writebackBlockedStore p blocked) answers

def popLoad : LSQUnit :=
  let stalls := u.stalled && u.stallingLoadIdx == u.loadHead + u.loadQueue.length - 1
  { u with
    loadQueue := u.loadQueue.dropLast
    stalled := u.stalled && !stalls
    stallingStoreIsn := if stalls then 0 else u.stallingStoreIsn
    stallingLoadIdx := if stalls then 0 else u.stallingLoadIdx }

def squashLoads (squashed_num : InstSeqNum) : List LQEntry → LSQUnit → LSQUnit
  | [], u => u
  | ld :: older, u =>
      if squashed_num < ld.inst.seqNum then squashLoads squashed_num older u.popLoad else u

def popStore (st : SQEntry) : LSQUnit :=
  { u with
    storeQueue := u.storeQueue.dropLast
    asserted := u.asserted && !(u.stalled && st.inst.seqNum == u.stallingStoreIsn) }

def squashStores (squashed_num : InstSeqNum) : List SQEntry → LSQUnit → LSQUnit
  | [], u => u
  | st :: older, u =>
      if squashed_num < st.inst.seqNum && !st.canWB then
        squashStores squashed_num older (u.popStore st)
      else u

def squash (squashed_num : InstSeqNum) : LSQUnit :=
  let u := squashLoads squashed_num u.loadQueue.reverse u
  let u := { u with
    memDepViolator := u.memDepViolator.filter (· ≤ squashed_num)
    violators := u.violators.filter (· ≤ squashed_num) }
  squashStores squashed_num u.storeQueue.reverse u

end LSQUnit

/-- A call of the unit; `commit` is `commitStores` followed by `commitLoads`. -/
inductive Event
  | insertLoad (load_inst : DynInst)
  | insertStore (store_inst : DynInst)
  | executeLoad (load_idx : Nat) (outcome : Outcome) (isAtCommit accepted : Bool)
  | executeStore (store_idx : Nat) (outcome : Outcome)
  | recvData (load_idx offset : Nat) (byte : Byte)
  | writeback (load_idx : Nat)
  | getMemDepViolator
  | checkSnoop (addr : Addr)
  | commit (youngest_inst : InstSeqNum)
  | writebackStores (blocked : Answer) (answers : List Answer)
  | recvRetry (blocked : Answer)
  | completeStore (store_idx : Nat)
  | squash (squashed_num : InstSeqNum)

def step (p : Params) (u : LSQUnit) : Event → LSQUnit
  | .insertLoad load_inst => u.insertLoad p load_inst
  | .insertStore store_inst => u.insertStore p store_inst
  | .executeLoad load_idx outcome isAtCommit accepted =>
      u.executeLoad p load_idx outcome isAtCommit accepted
  | .executeStore store_idx outcome => u.executeStore p store_idx outcome
  | .recvData load_idx offset byte => u.recvData load_idx offset byte
  | .writeback load_idx => u.writeback load_idx
  | .getMemDepViolator => u.getMemDepViolator
  | .checkSnoop addr => u.checkSnoop p addr
  | .commit youngest_inst => (u.commitStores youngest_inst).commitLoads youngest_inst
  | .writebackStores blocked answers => u.writebackStores p blocked answers
  | .recvRetry blocked => u.writebackBlockedStore p blocked
  | .completeStore store_idx => u.completeStore p store_idx
  | .squash squashed_num => u.squash squashed_num

end Gem5Core.O3.Lsq
