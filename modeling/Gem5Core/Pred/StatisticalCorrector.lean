import Mathlib.Algebra.GroupWithZero.Nat
import Gem5Core.Pred.Branch

/-! The histories of `StatisticalCorrector` (`cpu/pred/statistical_corrector.cc`) and of its
subclasses for TAGE-SC-L: how a branch updates them, what its record saves and what it restores. -/
namespace Gem5Core.Pred.StatisticalCorrector
open Branch

inductive Variant where
  | kb64 (numEntriesSecondLocalHistories numEntriesThirdLocalHistories logTnb : Nat)
  | kb8

/-- `im0` is `im[0]`. `TAGE` takes `speculativeHistUpdate` from the same
parameter. -/
structure Params where
  variant : Variant
  instShiftAmt : Nat
  numEntriesFirstLocalHistories : Nat
  im0 : Nat
  speculativeHistUpdate : Bool

def Params.defaults64KB : Params where
  variant := .kb64 16 16 10
  instShiftAmt := 2
  numEntriesFirstLocalHistories := 256
  im0 := 8
  speculativeHistUpdate := true

abbrev Register := BitVec 64

/-- `localHistories` is indexed by the ordinal, from 1. `imHist` belongs to the
64KB corrector, `globalHist` to the 8KB one. `imliCount` saturates. -/
@[ext]
structure SCThreadHistory where
  bwHist : Register := 0
  imliCount : Nat := 0
  pHist : Register := 0
  localHistories : Nat → Nat → Register := fun _ _ => 0
  imHist : Nat → Register := fun _ => 0
  globalHist : Register := 0

/-- What `BranchInfo` holds of the histories; `modified` says that the branch has
updated them. -/
structure BranchInfo where
  modified : Bool := false
  pc : Addr := 0
  bwHist : Register := 0
  imliCount : Nat := 0
  pHist : Register := 0
  localHistories : Nat → Register := fun _ => 0
  globalHist : Register := 0
  imHist : Register := 0

structure Inst where
  isDirectCtrl : Bool
  isUncondCtrl : Bool

section

variable (p : Params)

/-- The number of local histories of an ordinal and the shift of its hash, as
`makeThreadHistory` sets them. -/
def localTable : Nat → Nat × Nat
  | 1 => (p.numEntriesFirstLocalHistories, 2)
  | ordinal =>
      match p.variant with
      | .kb8 => (0, 0)
      | .kb64 second third logTnb => if ordinal = 2 then (second, 5) else (third, logTnb)

def getEntry (pc : Addr) (ordinal : Nat) : Nat :=
  let shifted_pc := pc >>> p.instShiftAmt
  ((shifted_pc ^^^ (shifted_pc >>> (localTable p ordinal).2)) &&&
    BitVec.ofNat 64 ((localTable p ordinal).1 - 1)).toNat

def getLocalHistory (h : SCThreadHistory) (ordinal : Nat) (pc : Addr) : Register :=
  h.localHistories ordinal (getEntry p pc ordinal)

def setLocalHistory (h : SCThreadHistory) (ordinal : Nat) (pc : Addr) (value : Register) :
    SCThreadHistory :=
  { h with
    localHistories := Function.update h.localHistories ordinal
      (Function.update (h.localHistories ordinal) (getEntry p pc ordinal) value) }

def shiftIn (x : Register) (bit : Bool) : Register := (x <<< 1) + if bit then 1 else 0

def updateLocalHistory (h : SCThreadHistory) (ordinal : Nat) (branch_pc : Addr) (taken : Bool)
    (extraXor : Addr) : SCThreadHistory :=
  let hist := shiftIn (getLocalHistory p h ordinal branch_pc) taken
  setLocalHistory p h ordinal branch_pc (if extraXor ≠ 0 then hist ^^^ extraXor else hist)

end

section

variable (p : Params)

def brtype (inst : Inst) : Nat :=
  (if inst.isDirectCtrl then 0 else 2) + if inst.isUncondCtrl then 0 else 1

/-- The count of a loop's iterations; a backward branch is taken for a loop. -/
def nextImliCount (imliCount : Nat) (branch_pc : Addr) (taken : Bool) (target : Addr) : Nat :=
  if target < branch_pc then
    if !taken then 0
    else if imliCount < 2 ^ p.im0 - 1 then imliCount + 1 else imliCount
  else imliCount

def baseHistoryUpdate (h : SCThreadHistory) (branch_pc : Addr) (inst : Inst) (taken : Bool)
    (target : Addr) (phist : Register) : SCThreadHistory :=
  let h := { h with pHist := phist }
  if brtype inst &&& 1 ≠ 0 then
    let h :=
      { h with
        imliCount := nextImliCount p h.imliCount branch_pc taken target
        bwHist := shiftIn h.bwHist (taken && decide (target < branch_pc)) }
    updateLocalHistory p h 1 branch_pc taken 0
  else h

def variantHistoryUpdate (h : SCThreadHistory) (branch_pc : Addr) (taken : Bool) :
    SCThreadHistory :=
  match p.variant with
  | .kb64 .. =>
      let h :=
        { h with
          imHist := Function.update h.imHist h.imliCount (shiftIn (h.imHist h.imliCount) taken) }
      let h := updateLocalHistory p h 2 branch_pc taken (branch_pc &&& 15)
      updateLocalHistory p h 3 branch_pc taken 0
  | .kb8 => { h with globalHist := shiftIn h.globalHist taken }

def scHistoryUpdate (h : SCThreadHistory) (branch_pc : Addr) (inst : Inst) (taken : Bool)
    (target : Addr) (phist : Register) : SCThreadHistory :=
  let h := if brtype inst &&& 1 ≠ 0 then variantHistoryUpdate p h branch_pc taken else h
  baseHistoryUpdate p h branch_pc inst taken target phist

end

section

variable (p : Params)

def baseRecordHistState (h : SCThreadHistory) (branch_pc : Addr) (bi : BranchInfo) : BranchInfo :=
  { bi with
    pc := branch_pc
    bwHist := h.bwHist
    imliCount := h.imliCount
    pHist := h.pHist
    localHistories := Function.update bi.localHistories 1 (getLocalHistory p h 1 branch_pc) }

def scRecordHistState (h : SCThreadHistory) (branch_pc : Addr) (bi : BranchInfo) : BranchInfo :=
  let bi := baseRecordHistState p h branch_pc bi
  match p.variant with
  | .kb64 .. =>
      { bi with
        imHist := h.imHist h.imliCount
        localHistories :=
          Function.update (Function.update bi.localHistories 2 (getLocalHistory p h 2 branch_pc))
            3 (getLocalHistory p h 3 branch_pc) }
  | .kb8 => { bi with globalHist := h.globalHist }

def baseRestoreHistState (h : SCThreadHistory) (bi : BranchInfo) : SCThreadHistory :=
  setLocalHistory p { h with bwHist := bi.bwHist, imliCount := bi.imliCount } 1 bi.pc
    (bi.localHistories 1)

def scRestoreHistState (h : SCThreadHistory) (bi : BranchInfo) : SCThreadHistory :=
  if !bi.modified then h
  else
    let h := baseRestoreHistState p h bi
    match p.variant with
    | .kb64 .. =>
        let h := { h with imHist := Function.update h.imHist h.imliCount bi.imHist }
        let h := setLocalHistory p h 2 bi.pc (bi.localHistories 2)
        setLocalHistory p h 3 bi.pc (bi.localHistories 3)
    | .kb8 => { h with globalHist := bi.globalHist }

def updateHistories (h : SCThreadHistory) (branch_pc : Addr) (speculative : Bool) (inst : Inst)
    (taken : Bool) (bi : BranchInfo) (target : Addr) (phist : Register) :
    SCThreadHistory × BranchInfo :=
  if speculative ≠ p.speculativeHistUpdate then (h, bi)
  else
    let bi :=
      if p.speculativeHistUpdate && !bi.modified then scRecordHistState p h branch_pc bi else bi
    -- the previous update of the branch is reverted first
    let h := if bi.modified then scRestoreHistState p h bi else h
    (scHistoryUpdate p h branch_pc inst taken target phist, { bi with modified := true })

end

end Gem5Core.Pred.StatisticalCorrector
