import Mathlib.Algebra.Group.Int.Defs
import Gem5Core.Pred.Branch

/-! Register renaming: the rename maps, the free list and the history buffers of the
rename stage (`cpu/o3/rename.cc`, `rename_map.{hh,cc}`, `free_list.hh`). -/
namespace Gem5Core.O3.Rename
open Pred.Branch Function

inductive RegClassType where
  | int
  | float
  | vec
  | vecElem
  | vecPred
  | mat
  | cc
  | misc
  | invalid
deriving DecidableEq

namespace RegClassType

def isRenameable (c : RegClassType) : Bool := c != .misc && c != .invalid

def renameMaps : List RegClassType := [.int, .float, .vec, .vecElem, .vecPred, .mat, .cc]

end RegClassType

structure RegId where
  classValue : RegClassType
  index : Nat
  numPinnedWrites : Int := 0
deriving DecidableEq

/-- The counters of the source's `PhysRegId` are kept apart, so that two registers are equal when
the pointers to them are. -/
structure PhysRegId where
  classValue : RegClassType
  index : Nat
deriving DecidableEq

structure RenameHistory where
  instSeqNum : InstSeqNum
  archReg : RegId
  newPhysReg : PhysRegId
  prevPhysReg : PhysRegId
deriving DecidableEq

def RenameHistory.changed (e : RenameHistory) : Bool := e.newPhysReg != e.prevPhysReg

abbrev RenameMap := RegClassType → Nat → PhysRegId

namespace RenameMap

variable (m : RenameMap)

/-- Registers that are not renamed keep their mapping: misc registers have one each, and
there is one invalid register. -/
def lookup (arch_reg : RegId) : PhysRegId :=
  match arch_reg.classValue with
  | .invalid => ⟨.invalid, 0⟩
  | .misc => ⟨.misc, arch_reg.index⟩
  | c => m c arch_reg.index

def setEntry (arch_reg : RegId) (phys_reg : PhysRegId) : RenameMap :=
  if arch_reg.classValue.isRenameable then
    update m arch_reg.classValue
      (update (m arch_reg.classValue) arch_reg.index phys_reg)
  else m

end RenameMap

structure ThreadRename where
  renameMap : RenameMap
  historyBuffer : List RenameHistory := []
  freeingInProgress : List PhysRegId := []

/-- `getRegFailed` says that a register was taken from an empty free list, `asserted`
that no other `assert` failed. -/
structure RenameState where
  threads : ThreadID → ThreadRename
  freeLists : RegClassType → List PhysRegId
  numPinnedWrites : PhysRegId → Int := fun _ => 0
  numPinnedWritesToComplete : PhysRegId → Int := fun _ => 0
  pinned : PhysRegId → Bool := fun _ => false
  scoreboard : PhysRegId → Bool := fun _ => true
  getRegFailed : Bool := false
  asserted : Bool := true

/-- `isAlwaysReady` tells the registers of serializing classes. -/
structure Params where
  numThreads : Nat
  numArchRegs : RegClassType → Nat
  numPhysRegs : RegClassType → Nat
  isAlwaysReady : PhysRegId → Bool

namespace RenameState

variable (p : Params) (s : RenameState)

def modify (tid : ThreadID) (f : ThreadRename → ThreadRename) : RenameState :=
  { s with threads := update s.threads tid (f (s.threads tid)) }

def setPins (reg : PhysRegId) (numWrites : Int) : RenameState :=
  { s with
    pinned := update s.pinned reg (numWrites != 0)
    numPinnedWrites := update s.numPinnedWrites reg numWrites
    numPinnedWritesToComplete :=
      update s.numPinnedWritesToComplete reg (numWrites + 1) }

def addReg (freed_reg : PhysRegId) : RenameState :=
  { s with
    freeLists := update s.freeLists freed_reg.classValue
      (s.freeLists freed_reg.classValue ++ [freed_reg]) }

/-- `SimpleRenameMap::rename`: a pinned register is renamed to itself. -/
def renameSimple (tid : ThreadID) (arch_reg : RegId) : RenameState × PhysRegId × PhysRegId :=
  let prev_reg := (s.threads tid).renameMap arch_reg.classValue arch_reg.index
  if 0 < s.numPinnedWrites prev_reg then
    ({ s with
        numPinnedWrites :=
          update s.numPinnedWrites prev_reg (s.numPinnedWrites prev_reg - 1)
        asserted := s.asserted && arch_reg.numPinnedWrites == 0 }, prev_reg, prev_reg)
  else
    match s.freeLists arch_reg.classValue with
    | [] => ({ s with getRegFailed := true }, prev_reg, prev_reg)
    | renamed_reg :: rest =>
        let s :=
          { s with freeLists := update s.freeLists arch_reg.classValue rest }
        let s := s.modify tid fun t =>
          { t with renameMap := t.renameMap.setEntry arch_reg renamed_reg }
        (s.setPins renamed_reg arch_reg.numPinnedWrites, renamed_reg, prev_reg)

def rename (tid : ThreadID) (arch_reg : RegId) : RenameState × PhysRegId × PhysRegId :=
  if arch_reg.classValue.isRenameable then s.renameSimple tid arch_reg
  else
    let phys_reg := (s.threads tid).renameMap.lookup arch_reg
    (if p.isAlwaysReady phys_reg then s else s.setPins phys_reg arch_reg.numPinnedWrites,
      phys_reg, phys_reg)

def renameDestReg (tid : ThreadID) (seqNum : InstSeqNum) (arch_reg : RegId) : RenameState :=
  let (s, new_reg, prev_reg) := s.rename p tid arch_reg
  let s := { s with scoreboard := update s.scoreboard new_reg false }
  s.modify tid fun t =>
    { t with historyBuffer := ⟨seqNum, arch_reg, new_reg, prev_reg⟩ :: t.historyBuffer }

def renameDestRegs (tid : ThreadID) (seqNum : InstSeqNum) (destRegs : List RegId) : RenameState :=
  destRegs.foldl (fun s reg => s.renameDestReg p tid seqNum reg) s

def canRename (destRegs : List RegId) : Bool :=
  RegClassType.renameMaps.all fun c =>
    destRegs.countP (fun reg => reg.classValue == c) ≤ (s.freeLists c).length

def undoEntry (tid : ThreadID) (e : RenameHistory) (rest : List RenameHistory) : RenameState :=
  let s :=
    if e.changed then
      { s.modify tid fun t =>
          { t with
            renameMap := t.renameMap.setEntry e.archReg e.prevPhysReg
            freeingInProgress := t.freeingInProgress ++ [e.newPhysReg] } with
        asserted := s.asserted && e.prevPhysReg.classValue == e.archReg.classValue }
    else s
  { s.modify tid fun t => { t with historyBuffer := rest } with
    scoreboard := update s.scoreboard e.newPhysReg true }

def doSquashLoop (squashed_seq_num : InstSeqNum) (tid : ThreadID) :
    List RenameHistory → RenameState → RenameState
  | [], s => s
  | e :: rest, s =>
      if squashed_seq_num < e.instSeqNum then
        doSquashLoop squashed_seq_num tid rest (s.undoEntry tid e rest)
      else s

def doSquash (squashed_seq_num : InstSeqNum) (tid : ThreadID) : RenameState :=
  doSquashLoop squashed_seq_num tid (s.threads tid).historyBuffer s

def commitEntry (tid : ThreadID) (e : RenameHistory) (rest : List RenameHistory) : RenameState :=
  let s := if e.changed then s.addReg e.prevPhysReg else s
  s.modify tid fun t => { t with historyBuffer := rest.reverse }

def removeLoop (inst_seq_num : InstSeqNum) (tid : ThreadID) :
    List RenameHistory → RenameState → RenameState
  | [], s => s
  | e :: rest, s =>
      if e.instSeqNum ≤ inst_seq_num then
        removeLoop inst_seq_num tid rest (s.commitEntry tid e rest)
      else s

/-- From the oldest entry on. The early returns of the source do what the loop does. -/
def removeFromHistory (inst_seq_num : InstSeqNum) (tid : ThreadID) : RenameState :=
  removeLoop inst_seq_num tid (s.threads tid).historyBuffer.reverse s

/-- The part of `checkSignalsAndUpdate` that releases the registers of squashed
instructions. -/
def releaseRegs (tid : ThreadID) : RenameState :=
  ((s.threads tid).freeingInProgress.foldl addReg s).modify tid fun t =>
    { t with freeingInProgress := [] }

def incrPins (pinnedRegsWritten : Bool) (reg : PhysRegId) : RenameState :=
  if s.pinned reg then
    { s with
      numPinnedWrites := update s.numPinnedWrites reg (s.numPinnedWrites reg + 1)
      numPinnedWritesToComplete :=
        if pinnedRegsWritten then
          update s.numPinnedWritesToComplete reg (s.numPinnedWritesToComplete reg + 1)
        else s.numPinnedWritesToComplete }
  else s

def setSquashed (dests : List PhysRegId) (pinnedRegsWritten : Bool) : RenameState :=
  dests.foldl (fun s reg => s.incrPins pinnedRegsWritten reg) s

end RenameState

/-- The registers that the constructor of the CPU gives to the threads come first; the rest are
free. -/
def start (p : Params) : RenameState where
  threads := fun tid => { renameMap := fun c i => ⟨c, tid * p.numArchRegs c + i⟩ }
  freeLists := fun c =>
    (List.range (p.numPhysRegs c - p.numThreads * p.numArchRegs c)).map fun i =>
      ⟨c, p.numThreads * p.numArchRegs c + i⟩

inductive Event where
  | rename (tid : ThreadID) (seqNum : InstSeqNum) (destRegs : List RegId)
  | commit (tid : ThreadID) (inst_seq_num : InstSeqNum)
  | squash (tid : ThreadID) (squashed_seq_num : InstSeqNum)
  | release (tid : ThreadID)
  | setSquashed (dests : List PhysRegId) (pinnedRegsWritten : Bool)

def step (p : Params) (s : RenameState) : Event → RenameState
  | .rename tid seqNum destRegs => s.renameDestRegs p tid seqNum destRegs
  | .commit tid inst_seq_num => s.removeFromHistory inst_seq_num tid
  | .squash tid squashed_seq_num => s.doSquash squashed_seq_num tid
  | .release tid => s.releaseRegs tid
  | .setSquashed dests written => s.setSquashed dests written

def twoThreads : Params where
  numThreads := 2
  numArchRegs := fun c => if c = .int then 2 else 0
  numPhysRegs := fun c => if c = .int then 10 else 0
  isAlwaysReady := fun _ => false

end Gem5Core.O3.Rename
