import Mathlib.Algebra.Group.Int.Defs
import Gem5Core.Pred.Branch

/-! Dependences between the instructions of the instruction queue (`cpu/o3/inst_queue.cc`,
`cpu/o3/dep_graph.hh`). -/
namespace Gem5Core.O3.InstQueue
open Pred.Branch Function

/-- The head `inst` is the producer of a register, `next` the instructions that wait for
it, newest first. -/
structure DependencyEntry (α : Type) where
  inst : Option α := none
  next : List α := []

abbrev DependencyGraph (α : Type) := Nat → DependencyEntry α

namespace DependencyGraph

variable {α : Type} [DecidableEq α] (g : DependencyGraph α) (idx : Nat)

def setNext (next : List α) : DependencyGraph α := update g idx { g idx with next }

def insert (new_inst : α) : DependencyGraph α := g.setNext idx (new_inst :: (g idx).next)

def setInst (new_inst : α) : DependencyGraph α :=
  update g idx { g idx with inst := some new_inst }

def clearInst : DependencyGraph α := update g idx { g idx with inst := none }

def empty : Bool := (g idx).next.isEmpty

/-- The first node of the instruction is unlinked; the answer tells whether it was found, as is
asserted. An empty list is left alone. -/
def remove (inst_to_remove : α) : DependencyGraph α × Bool :=
  if g.empty idx then (g, true)
  else (g.setNext idx ((g idx).next.erase inst_to_remove), (g idx).next.contains inst_to_remove)

end DependencyGraph

/-- Registers with a fixed mapping are always ready and are not in the graph. -/
structure PhysReg where
  flatIndex : Nat
  isAlwaysReady : Bool := false

structure Src where
  reg : PhysReg
  ready : Bool := false

structure RenamedInst where
  threadNumber : ThreadID := 0
  srcs : List Src := []
  dests : List PhysReg := []
  isLoad : Bool := false
  isStore : Bool := false
  isAtomic : Bool := false
  isStoreConditional : Bool := false
  isReadBarrier : Bool := false
  isWriteBarrier : Bool := false
  isNonSpeculative : Bool := false
  fault : Bool := false

/-- Its state in the queue. `viaInsert` is history: it was entered through `insert`. -/
structure DynInst extends RenamedInst where
  readyRegs : Nat := 0
  canIssue : Bool := false
  issued : Bool := false
  inIQ : Bool := false
  squashedInIQ : Bool := false
  memOpDone : Bool := false
  atCommit : Bool := false
  viaInsert : Bool := false

namespace RenamedInst

variable (i : RenamedInst)

def isMemRef : Bool := i.isLoad || i.isStore || i.isAtomic

def isFullMemBarrier : Bool := i.isReadBarrier && i.isWriteBarrier

def isAcqRel : Bool :=
  i.isFullMemBarrier && (i.isLoad || (i.isStore && !i.isStoreConditional))

def hasNodes : Bool :=
  i.isAcqRel ||
    (!i.isNonSpeculative && !i.isStoreConditional && !i.isAtomic && !i.isReadBarrier &&
      !i.isWriteBarrier)

def destRegs : List Nat := (i.dests.filter (!·.isAlwaysReady)).map (·.flatIndex)

/-- Rename has counted the sources that it marked; an instruction without sources can issue since
decode. -/
def arrive (viaInsert : Bool) : DynInst :=
  { i with
    readyRegs := i.srcs.countP (·.ready) % 256
    canIssue := i.srcs.all (·.ready)
    viaInsert }

end RenamedInst

/-- A `size_t` count as the `int8_t` that some of the loops keep it in. -/
def int8 (n : Nat) : Int := (BitVec.ofNat 8 n).toInt

/-- `insts` has every instruction ever entered. `entered` and `ready` are history: the instructions
entered, and those found ready to issue, handed to a ready list or to the memory dependence unit.
`asserted` stays true as long as no `assert` or `panic` was hit. -/
structure InstructionQueue where
  insts : InstSeqNum → DynInst := fun _ => {}
  instList : ThreadID → List InstSeqNum := fun _ => []
  dependGraph : DependencyGraph InstSeqNum := fun _ => {}
  regScoreboard : Nat → Bool := fun _ => false
  numPinnedWritesToComplete : Nat → Int := fun _ => 0
  nonSpecInsts : List InstSeqNum := []
  ready : List InstSeqNum := []
  entered : List InstSeqNum := []
  asserted : Bool := true

namespace InstructionQueue

variable (q : InstructionQueue)

def modifyInst (sn : InstSeqNum) (f : DynInst → DynInst) : InstructionQueue :=
  { q with insts := update q.insts sn (f (q.insts sn)) }

def markSrcRegReady (sn : InstSeqNum) : InstructionQueue :=
  q.modifyInst sn fun i =>
    let readyRegs := (i.readyRegs + 1) % 256
    { i with readyRegs, canIssue := i.canIssue || readyRegs == i.srcs.length }

def addIfReady (sn : InstSeqNum) : InstructionQueue :=
  if (q.insts sn).canIssue then { q with ready := q.ready ++ [sn] } else q

def addSrc (sn : InstSeqNum) (src : Src) : Src × InstructionQueue :=
  if src.ready || src.reg.isAlwaysReady then (src, q)
  else if !q.regScoreboard src.reg.flatIndex then
    (src, { q with dependGraph := q.dependGraph.insert src.reg.flatIndex sn })
  else ({ src with ready := true }, q.markSrcRegReady sn)

def addSrcs (sn : InstSeqNum) : List Src → InstructionQueue → List Src × InstructionQueue
  | [], q => ([], q)
  | src :: rest, q =>
      let (src, q) := q.addSrc sn src
      let (rest, q) := addSrcs sn rest q
      (src :: rest, q)

def addToDependents (sn : InstSeqNum) : InstructionQueue :=
  let srcs := (q.insts sn).srcs
  let total_src_regs := (int8 srcs.length).toNat
  let (marked, q) := addSrcs sn (srcs.take total_src_regs) q
  q.modifyInst sn fun i => { i with srcs := marked ++ srcs.drop total_src_regs }

def addProducer (sn : InstSeqNum) (q : InstructionQueue) (dest_reg : PhysReg) : InstructionQueue :=
  if dest_reg.isAlwaysReady then q
  else
    { q with
      asserted := q.asserted && q.dependGraph.empty dest_reg.flatIndex
      dependGraph := q.dependGraph.setInst dest_reg.flatIndex sn
      regScoreboard := update q.regScoreboard dest_reg.flatIndex false }

def addToProducers (sn : InstSeqNum) : InstructionQueue :=
  let dests := (q.insts sn).dests
  (dests.take (int8 dests.length).toNat).foldl (addProducer sn) q

def enter (sn : InstSeqNum) (i : DynInst) : InstructionQueue :=
  { q with
    insts := update q.insts sn { i with inIQ := true }
    instList := update q.instList i.threadNumber (q.instList i.threadNumber ++ [sn])
    entered := q.entered ++ [sn] }

/-- `memDeps`: the memory dependence unit found something to wait for, and took back that the
instruction can issue. -/
def insert (sn : InstSeqNum) (new_inst : RenamedInst) (memDeps : Bool) : InstructionQueue :=
  let q := q.enter sn (new_inst.arrive true)
  let q := (q.addToDependents sn).addToProducers sn
  let q := q.addIfReady sn
  if new_inst.isMemRef && memDeps then q.modifyInst sn fun i => { i with canIssue := false } else q

def insertNonSpec (sn : InstSeqNum) (new_inst : RenamedInst) : InstructionQueue :=
  let q := { q with nonSpecInsts := q.nonSpecInsts ++ [sn] }
  (q.enter sn (new_inst.arrive false)).addToProducers sn

def scheduleNonSpec (sn : InstSeqNum) : InstructionQueue :=
  let q := { q with asserted := q.asserted && q.nonSpecInsts.contains sn }
  let q := q.modifyInst sn fun i => { i with atCommit := true, canIssue := true }
  let q := if (q.insts sn).isMemRef then q else q.addIfReady sn
  { q with nonSpecInsts := q.nonSpecInsts.erase sn }

def clearInIQ (sn : InstSeqNum) : InstructionQueue :=
  let q := { q with asserted := q.asserted && (q.insts sn).inIQ }
  q.modifyInst sn fun i => { i with inIQ := false }

/-- What `scheduleReadyInsts` does to an instruction that it issues. Memory references stay
in the queue until they complete. -/
def issue (sn : InstSeqNum) : InstructionQueue :=
  let q := q.modifyInst sn fun i => { i with issued := true }
  if (q.insts sn).isMemRef then q else q.clearInIQ sn

def commit (sn : InstSeqNum) (tid : ThreadID) : InstructionQueue :=
  { q with instList := update q.instList tid ((q.instList tid).dropWhile (· ≤ sn)) }

def wakeLoop (idx : Nat) : List InstSeqNum → InstructionQueue → InstructionQueue
  | [], q => q
  | dep_inst :: rest, q =>
      let q := { q with dependGraph := q.dependGraph.setNext idx rest }
      wakeLoop idx rest ((q.markSrcRegReady dep_inst).addIfReady dep_inst)

/-- One iteration of `wakeDependents`. A pinned register is skipped until its last write. -/
def wakeReg (q : InstructionQueue) (dest_reg : PhysReg) : InstructionQueue :=
  if dest_reg.isAlwaysReady then q
  else
    let idx := dest_reg.flatIndex
    let left := q.numPinnedWritesToComplete idx - 1
    let q := { q with
      numPinnedWritesToComplete := update q.numPinnedWritesToComplete idx left }
    if left ≠ 0 then q
    else
      let q := wakeLoop idx (q.dependGraph idx).next q
      { q with
        asserted := q.asserted && q.dependGraph.empty idx
        dependGraph := q.dependGraph.clearInst idx
        regScoreboard := update q.regScoreboard idx true }

def wakeDependents (sn : InstSeqNum) : InstructionQueue :=
  let completed_inst := q.insts sn
  let q := { q with asserted := q.asserted && !completed_inst.squashedInIQ }
  let q :=
    if completed_inst.isMemRef then
      (q.clearInIQ sn).modifyInst sn fun i => { i with memOpDone := true }
    else q
  completed_inst.dests.foldl wakeReg q

def removeSrc (sn : InstSeqNum) (q : InstructionQueue) (src : Src) : InstructionQueue :=
  if src.ready || src.reg.isAlwaysReady then q
  else
    let (dependGraph, found) := q.dependGraph.remove src.reg.flatIndex sn
    { q with dependGraph, asserted := q.asserted && found }

def clearDest (q : InstructionQueue) (dest_reg : PhysReg) : InstructionQueue :=
  if dest_reg.isAlwaysReady then q
  else
    { q with
      asserted := q.asserted && q.dependGraph.empty dest_reg.flatIndex
      dependGraph := q.dependGraph.clearInst dest_reg.flatIndex }

/-- An instruction that has not left the queue is taken out of the graph or of
`nonSpecInsts`, and out of the queue. -/
def squashQueued (sn : InstSeqNum) : InstructionQueue :=
  let squashed_inst := q.insts sn
  let q :=
    if squashed_inst.hasNodes then squashed_inst.srcs.foldl (removeSrc sn) q
    else if q.nonSpecInsts.contains sn then { q with nonSpecInsts := q.nonSpecInsts.erase sn }
    else { q with asserted := q.asserted && (squashed_inst.fault || squashed_inst.isMemRef) }
  (q.clearInIQ sn).modifyInst sn fun i => { i with squashedInIQ := true, issued := true }

def squashInst (sn : InstSeqNum) (tid : ThreadID) : InstructionQueue :=
  let squashed_inst := q.insts sn
  let q :=
    if !squashed_inst.issued || (squashed_inst.isMemRef && !squashed_inst.memOpDone) then
      q.squashQueued sn
    else q
  let q := squashed_inst.dests.foldl clearDest q
  { q with instList := update q.instList tid ((q.instList tid).erase sn) }

def squashLoop (squashedSeqNum : InstSeqNum) (tid : ThreadID) :
    List InstSeqNum → InstructionQueue → InstructionQueue
  | [], q => q
  | sn :: older, q =>
      if squashedSeqNum < sn then
        squashLoop squashedSeqNum tid older
          (if (q.insts sn).threadNumber != tid || (q.insts sn).squashedInIQ then q
          else q.squashInst sn tid)
      else q

def doSquash (squashedSeqNum : InstSeqNum) (tid : ThreadID) : InstructionQueue :=
  squashLoop squashedSeqNum tid (q.instList tid).reverse q

end InstructionQueue

/-- A call of the queue; `setPins` stands for what rename does to the counter of a register. -/
inductive Event
  | insert (sn : InstSeqNum) (new_inst : RenamedInst) (memDeps : Bool)
  | insertNonSpec (sn : InstSeqNum) (new_inst : RenamedInst)
  | scheduleNonSpec (sn : InstSeqNum)
  | issue (sn : InstSeqNum)
  | wakeDependents (sn : InstSeqNum)
  | commit (sn : InstSeqNum) (tid : ThreadID)
  | squash (squashedSeqNum : InstSeqNum) (tid : ThreadID)
  | setPins (idx : Nat) (writes : Int)

def step (q : InstructionQueue) : Event → InstructionQueue
  | .insert sn new_inst memDeps => q.insert sn new_inst memDeps
  | .insertNonSpec sn new_inst => q.insertNonSpec sn new_inst
  | .scheduleNonSpec sn => q.scheduleNonSpec sn
  | .issue sn => q.issue sn
  | .wakeDependents sn => q.wakeDependents sn
  | .commit sn tid => q.commit sn tid
  | .squash squashedSeqNum tid => q.doSquash squashedSeqNum tid
  | .setPins idx writes =>
      { q with
        numPinnedWritesToComplete := update q.numPinnedWritesToComplete idx writes }

end Gem5Core.O3.InstQueue
