import Mathlib.Algebra.Group.Int.Defs
import Mathlib.Algebra.GroupWithZero.Nat
import Gem5Core.Pred.Branch

/-! The histories of `TAGEBase`: the global history in a buffer that is filled downwards and rolled
over, the path history, and the folded histories of each table, with the record that lets a branch
be undone. -/
namespace Gem5Core.Pred.TageBase
open Branch

/-- The parameters that the histories, indices and tags depend on.
`histLengths` is what `calculateParameters` computes. -/
structure Params where
  nHistoryTables : Nat
  histBufferSize : Nat
  maxHist : Nat
  pathHistBits : Nat
  histLengths : Nat → Nat
  tagTableTagWidths : Nat → Nat
  logTagTableSizes : Nat → Nat
  takenOnlyHistory : Bool
  speculativeHistUpdate : Bool
  instShiftAmt : Nat

def Params.defaults (takenOnlyHistory : Bool) : Params where
  nHistoryTables := 7
  histBufferSize := 2097152
  maxHist := 130
  pathHistBits := 16
  histLengths := fun i => [0, 5, 9, 15, 25, 44, 76, 130].getD i 0
  tagTableTagWidths := fun i => [0, 9, 9, 10, 10, 11, 11, 12].getD i 0
  logTagTableSizes := fun i => [13, 9, 9, 9, 9, 9, 9, 9].getD i 0
  takenOnlyHistory
  speculativeHistUpdate := true
  instShiftAmt := 2

def ofBit (bit : Bool) : BitVec 32 := (BitVec.ofBool bit).setWidth 32

def lowMask (length : Nat) : BitVec 32 := BitVec.ofNat 32 (2 ^ length - 1)

/-- The value that an `int` keeps of `x`. -/
def toInt (x : Int) : Int := x.bmod (2 ^ 32)

structure FoldedHistory where
  comp : BitVec 32
  compLength : Nat
  origLength : Nat
  outpoint : Nat

namespace FoldedHistory

def init (original_length compressed_length : Nat) : FoldedHistory where
  comp := 0
  compLength := compressed_length
  origLength := original_length
  outpoint := original_length % compressed_length

/-- `h` is read from the pointer onwards. -/
def update (f : FoldedHistory) (h : Nat → Bool) : FoldedHistory :=
  let comp := (f.comp <<< 1) ||| ofBit (h 0)
  let comp := comp ^^^ (ofBit (h f.origLength) <<< f.outpoint)
  let comp := comp ^^^ (comp >>> f.compLength)
  { f with comp := comp &&& lowMask f.compLength }

def restore (f : FoldedHistory) (h : Nat → Bool) : FoldedHistory :=
  let comp := f.comp ^^^ (ofBit (h f.origLength) <<< f.outpoint)
  let tmp := (comp &&& 1) ^^^ ofBit (h 0)
  { f with comp := (tmp <<< (f.compLength - 1)) ||| (comp >>> 1) }

end FoldedHistory

/-- Arrays are indexed from 1. `ptGhist` is an `int`. `asserted` stays true as long as no `assert`
has failed, `inBounds` as long as every access of `globalHist` was inside the vector. -/
structure ThreadHistory where
  pathHist : BitVec 32
  nonSpecPathHist : BitVec 32
  globalHist : Int → Bool
  ptGhist : Int
  computeIndices : Nat → FoldedHistory
  computeTags0 : Nat → FoldedHistory
  computeTags1 : Nat → FoldedHistory
  asserted : Bool := true
  inBounds : Bool := true

/-- The part of `BranchInfo` that the histories, indices and tags use. -/
structure BranchInfo where
  branchPC : Addr
  condBranch : Bool
  pathHist : BitVec 32 := 0
  tableIndices : Nat → BitVec 32 := fun _ => 0
  tableTags : Nat → BitVec 16 := fun _ => 0
  ci : Nat → BitVec 32 := fun _ => 0
  ct0 : Nat → BitVec 32 := fun _ => 0
  ct1 : Nat → BitVec 32 := fun _ => 0
  ghist : BitVec 64 := 0
  nGhist : Nat := 0
  modified : Bool := false
  valid : Bool := false

def makeBranchInfo (pc : Addr) (conditional : Bool) : BranchInfo :=
  { branchPC := pc, condBranch := conditional }

variable (p : Params)

def forTables {α : Type} (f : Nat → α) (old : Nat → α) (i : Nat) : α :=
  if 1 ≤ i ∧ i ≤ p.nHistoryTables then f i else old i

def ThreadHistory.init : ThreadHistory where
  pathHist := 0
  nonSpecPathHist := 0
  globalHist := fun _ => false
  ptGhist := 0
  computeIndices := fun i => .init (p.histLengths i) (p.logTagTableSizes i)
  computeTags0 := fun i => .init (p.histLengths i) (p.tagTableTagWidths i)
  computeTags1 := fun i => .init (p.histLengths i) (p.tagTableTagWidths i - 1)

def ThreadHistory.check (t : ThreadHistory) (condition : Bool) : ThreadHistory :=
  { t with asserted := t.asserted && condition }

/-- The vector takes a `size_t`, for which a negative index is too large. -/
def access (index : Int) (t : ThreadHistory) : ThreadHistory :=
  { t with inBounds := t.inBounds && decide (0 ≤ index ∧ index < p.histBufferSize) }

def rollbackBuffer : Nat := 1000

/-- `histBufferSize - maxHist - rollbackBuffer`, in `unsigned` arithmetic. -/
def rolloverPoint : Nat :=
  (BitVec.ofNat 32 p.histBufferSize - BitVec.ofNat 32 p.maxHist -
    BitVec.ofNat 32 rollbackBuffer).toNat

def copyEntry (t : ThreadHistory) (i : Nat) : ThreadHistory :=
  let target : Nat := (rolloverPoint p + i) % 2 ^ 32
  let t := access p target (access p (t.ptGhist + i) t)
  { t with globalHist := Function.update t.globalHist target (t.globalHist (t.ptGhist + i)) }

def rollover (t : ThreadHistory) : ThreadHistory :=
  let t := (List.range ((p.maxHist + rollbackBuffer) % 2 ^ 32)).foldl (copyEntry p) t
  { t with ptGhist := toInt (rolloverPoint p) }

/-- Every folded history through `f`, which reads its own entries from the
pointer `gh_ptr` onwards. -/
def mapFolded (f : FoldedHistory → (Nat → Bool) → FoldedHistory) (t : ThreadHistory) :
    ThreadHistory :=
  let gh_ptr := fun (k : Nat) => t.globalHist (t.ptGhist + k)
  let reads := (List.range p.nHistoryTables).all fun i =>
    decide (t.ptGhist + (t.computeIndices (i + 1)).origLength < p.histBufferSize) &&
      decide (t.ptGhist + (t.computeTags0 (i + 1)).origLength < p.histBufferSize) &&
      decide (t.ptGhist + (t.computeTags1 (i + 1)).origLength < p.histBufferSize)
  { t with
    computeIndices := forTables p (fun i => f (t.computeIndices i) gh_ptr) t.computeIndices
    computeTags0 := forTables p (fun i => f (t.computeTags0 i) gh_ptr) t.computeTags0
    computeTags1 := forTables p (fun i => f (t.computeTags1 i) gh_ptr) t.computeTags1
    inBounds := t.inBounds && reads }

def shiftIn (t : ThreadHistory) (bit : Bool) : ThreadHistory :=
  let t := { t with ptGhist := toInt (t.ptGhist - 1) }
  let t := access p t.ptGhist t
  mapFolded p .update { t with globalHist := Function.update t.globalHist t.ptGhist bit }

def shiftLoop (bv : BitVec 64) : Nat → ThreadHistory → ThreadHistory
  | 0, t => t
  | n + 1, t => shiftLoop (bv >>> 1) n (shiftIn p t (bv.getLsbD 0))

def updateGHist (t : ThreadHistory) (bv : BitVec 64) (n : Nat) : ThreadHistory :=
  if n = 0 then t
  else
    let t := if t.ptGhist < n then rollover p t else t
    shiftLoop p bv n t

def shiftOut (t : ThreadHistory) : ThreadHistory :=
  let t := mapFolded p .restore (access p t.ptGhist t)
  let t := { t with ptGhist := toInt (t.ptGhist + 1) }
  -- `maxHist` is `unsigned`, so the sum is too
  t.check (decide ((t.ptGhist + p.maxHist) % 2 ^ 32 < p.histBufferSize))

def asr (a : BitVec 32) (k : Int) : BitVec 32 := a.sshiftRight k.toNat

def F (A : BitVec 32) (size bank : Nat) : BitVec 32 :=
  let log := p.logTagTableSizes bank
  let A := A &&& lowMask size
  let A1 := A &&& lowMask log
  let A2 := asr A log
  let A2 := ((A2 <<< bank) &&& lowMask log) + asr A2 ((log : Int) - bank)
  let A := A1 ^^^ A2
  ((A <<< bank) &&& lowMask log) + asr A ((log : Int) - bank)

def gindex (t : ThreadHistory) (pc : Addr) (bank : Nat) : BitVec 32 :=
  let log := p.logTagTableSizes bank
  let hlen := if p.histLengths bank > p.pathHistBits then p.pathHistBits else p.histLengths bank
  let shiftedPc := (pc >>> p.instShiftAmt).setWidth 32
  let index := shiftedPc ^^^ (shiftedPc >>> (((log : Int) - bank).natAbs + 1)) ^^^
    (t.computeIndices bank).comp ^^^ F p t.pathHist hlen bank
  index &&& lowMask log

def gtag (t : ThreadHistory) (pc : Addr) (bank : Nat) : BitVec 16 :=
  let tag := (pc >>> p.instShiftAmt).setWidth 32 ^^^ (t.computeTags0 bank).comp ^^^
    ((t.computeTags1 bank).comp <<< 1)
  (tag &&& lowMask (p.tagTableTagWidths bank)).setWidth 16

def calculateIndicesAndTags (t : ThreadHistory) (branch_pc : Addr) (bi : BranchInfo) :
    BranchInfo :=
  { bi with
    tableIndices := forTables p (gindex p t branch_pc) bi.tableIndices
    tableTags := forTables p (gtag p t branch_pc) bi.tableTags
    valid := true }

def calcNewPathHist (pc : Addr) (cur_phist : BitVec 32) (taken : Bool) : BitVec 32 :=
  if p.takenOnlyHistory && !taken then cur_phist
  else
    let pathbit := ofBit ((pc >>> p.instShiftAmt).getLsbD 0)
    ((cur_phist <<< 1) + pathbit) &&& lowMask p.pathHistBits

def updatePathAndGlobalHistory (t : ThreadHistory) (taken : Bool) (branch_pc target : Addr)
    (bi : BranchInfo) : ThreadHistory × BranchInfo :=
  let t := { t with pathHist := calcNewPathHist p branch_pc t.pathHist taken }
  let bi :=
    if p.takenOnlyHistory then
      if taken then
        { bi with
          ghist := ((branch_pc >>> p.instShiftAmt) >>> 2) ^^^ ((target >>> p.instShiftAmt) >>> 3)
          nGhist := 2 }
      else bi
    else { bi with ghist := if taken then 1 else 0, nGhist := 1 }
  (updateGHist p t bi.ghist bi.nGhist, bi)

def recordHistState (t : ThreadHistory) (bi : BranchInfo) : BranchInfo :=
  { bi with
    pathHist := t.pathHist
    ci := forTables p (fun i => (t.computeIndices i).comp) bi.ci
    ct0 := forTables p (fun i => (t.computeTags0 i).comp) bi.ct0
    ct1 := forTables p (fun i => (t.computeTags1 i).comp) bi.ct1 }

def restoreHistState (t : ThreadHistory) (bi : BranchInfo) : ThreadHistory × BranchInfo :=
  if !p.speculativeHistUpdate then (t, bi)
  else if !bi.modified then (t, bi)
  else
    let t := { t with pathHist := bi.pathHist }
    if bi.nGhist = 0 then (t, bi)
    else ((shiftOut p)^[bi.nGhist] t, { bi with nGhist := 0, modified := false })

/-- The first part of `updateHistories`: the state is recorded the first time,
and a previous update of the branch is reverted otherwise. -/
def rewind (t : ThreadHistory) (bi : BranchInfo) : ThreadHistory × BranchInfo :=
  let bi := if p.speculativeHistUpdate && !bi.modified then recordHistState p t bi else bi
  if bi.modified then restoreHistState p t bi else (t, bi)

def advance (t : ThreadHistory) (branch_pc : Addr) (taken : Bool) (target : Addr)
    (bi : BranchInfo) : ThreadHistory × BranchInfo :=
  let bi := if !bi.valid && bi.condBranch then calculateIndicesAndTags p t branch_pc bi else bi
  let t := t.check (decide (bi.nGhist = 0))
  let (t, bi) := updatePathAndGlobalHistory p t taken branch_pc target bi
  (t, { bi with modified := true })

def updateHistories (t : ThreadHistory) (branch_pc : Addr) (speculative taken : Bool)
    (target : Addr) (bi : BranchInfo) : ThreadHistory × BranchInfo :=
  if speculative ≠ p.speculativeHistUpdate then
    if !speculative then
      ({ t with nonSpecPathHist := calcNewPathHist p branch_pc bi.pathHist taken }, bi)
    else (t, bi)
  else
    let (t, bi) := rewind p t bi
    advance p t branch_pc taken target bi

def squash (t : ThreadHistory) (taken : Bool) (target : Addr) (bi : BranchInfo) :
    ThreadHistory × BranchInfo :=
  updateHistories p t bi.branchPC true taken target bi

end Gem5Core.Pred.TageBase
