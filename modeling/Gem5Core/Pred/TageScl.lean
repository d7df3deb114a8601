import Gem5Core.Base.IntMath
import Gem5Core.Pred.TageTables

/-! `TAGE_SC_L_TAGE` (`cpu/pred/tage_sc_l.cc`) with its two subclasses. A lookup gives every enabled
table of a group its own bank of one array of entries. The tables come in pairs that are indexed
alike but for their tags. -/
namespace Gem5Core.Pred.TageScl
open Branch TageBase
open TageTables (TageEntry)
open Base.IntMath (ones)

inductive Variant where
  | kb64
  | kb8
deriving DecidableEq

/-- `histLengths` is what `calculateParameters` computes. -/
structure SclParams where
  variant : Variant
  nHistoryTables : Nat
  pathHistBits : Nat
  histLengths : Nat → Nat
  noSkip : List Bool
  instShiftAmt : Nat
  logTagTableSize : Nat
  shortTagsTageFactor : Nat
  longTagsTageFactor : Nat
  shortTagsSize : Nat
  longTagsSize : Nat
  firstLongTagTable : Nat
  maxNumAlloc : Nat
  logUResetPeriod : Nat

def SclParams.defaults64KB : SclParams where
  variant := .kb64
  nHistoryTables := 36
  pathHistBits := 27
  histLengths := fun i =>
    [0, 6, 9, 12, 18, 26, 37, 54, 78, 112, 161, 232, 335, 482, 695, 1002, 1444, 2081, 3000].getD
      ((i + 1) / 2) 0
  noSkip :=
    [false, false, true, false, false, false, true, false, false, true, true, true, true, true,
      true, true, true, true, true, true, true, true, true, false, true, false, true, false, true,
      false, false, false, true, false, false, false, true]
  instShiftAmt := 2
  logTagTableSize := 10
  shortTagsTageFactor := 10
  longTagsTageFactor := 20
  shortTagsSize := 8
  longTagsSize := 12
  firstLongTagTable := 13
  maxNumAlloc := 2
  logUResetPeriod := 10

def SclParams.defaults8KB : SclParams where
  variant := .kb8
  nHistoryTables := 30
  pathHistBits := 27
  histLengths := fun i =>
    [0, 4, 6, 9, 13, 19, 29, 43, 63, 94, 139, 206, 306, 454, 674, 1000].getD ((i + 1) / 2) 0
  noSkip :=
    [false, false, true, false, true, false, true, true, true, true, true, true, true, true, true,
      true, true, true, true, true, true, false, true, false, true, false, true, false, true, false,
      true]
  instShiftAmt := 2
  logTagTableSize := 7
  shortTagsTageFactor := 9
  longTagsTageFactor := 17
  shortTagsSize := 8
  longTagsSize := 12
  firstLongTagTable := 11
  maxNumAlloc := 2
  logUResetPeriod := 10

variable (p : SclParams)

def enabled (i : Nat) : Bool :=
  if p.noSkip.isEmpty then decide (i ≤ p.nHistoryTables) else p.noSkip.getD i false

def tagTableTagWidths (i : Nat) : Nat :=
  if i < p.firstLongTagTable then p.shortTagsSize else p.longTagsSize

/-- The two arrays of entries: `gtable[1]` and `gtable[firstLongTagTable]`. -/
inductive Group where
  | short
  | long
deriving DecidableEq

def group (i : Nat) : Group := if i < p.firstLongTagTable then .short else .long

def factor : Group → Nat
  | .short => p.shortTagsTageFactor
  | .long => p.longTagsTageFactor

/-- `factor * (1 << logTagTableSize)` in `unsigned`: what is allocated for a group. -/
def arraySize (g : Group) : Nat := factor p g * 2 ^ p.logTagTableSize % 2 ^ 32

def tablesOf : Group → List Nat
  | .short => List.range' 1 (p.firstLongTagTable - 1)
  | .long => List.range' p.firstLongTagTable (p.nHistoryTables + 1 - p.firstLongTagTable)

/-- A rotation, left out for the banks that would shift by a negative amount. -/
def rotateBank (bank : Nat) (a : BitVec 32) : BitVec 32 :=
  if bank < p.logTagTableSize then
    ((a <<< bank) &&& lowMask p.logTagTableSize) + asr a ((p.logTagTableSize : Int) - bank)
  else a

def F (a : BitVec 32) (size bank : Nat) : BitVec 32 :=
  let a := a &&& lowMask size
  let a1 := a &&& lowMask p.logTagTableSize
  let a2 := rotateBank p bank (asr a p.logTagTableSize)
  rotateBank p bank (a1 ^^^ a2)

def gindexExt (index : BitVec 32) : BitVec 32 :=
  match p.variant with
  | .kb64 => index
  | .kb8 => index ^^^ asr index p.logTagTableSize ^^^ asr index (2 * p.logTagTableSize)

def pathHash (t : ThreadHistory) (bank : Nat) : BitVec 32 :=
  let hlen := if p.histLengths bank > p.pathHistBits then p.pathHistBits else p.histLengths bank
  F p t.pathHist hlen bank

def gindex (t : ThreadHistory) (pc : Addr) (bank : Nat) : BitVec 32 :=
  let shifted_pc := (pc >>> p.instShiftAmt).setWidth 32
  let index := shifted_pc ^^^
    (shifted_pc >>> (((p.logTagTableSize : Int) - bank).natAbs + 1)) ^^^
    (t.computeIndices bank).comp ^^^ pathHash p t bank
  gindexExt p index &&& lowMask p.logTagTableSize

def gtag (t : ThreadHistory) (pc : Addr) (bank : Nat) : BitVec 16 :=
  let shifted_pc := pc >>> p.instShiftAmt
  let width := tagTableTagWidths p bank
  match p.variant with
  | .kb64 =>
      let tag := shifted_pc.setWidth 32 ^^^ (t.computeTags0 bank).comp ^^^
        ((t.computeTags1 bank).comp <<< 1)
      (tag &&& lowMask width).setWidth 16
  | .kb8 =>
      let tag := ((t.computeIndices (bank - 1)).comp <<< 2) ^^^
        (shifted_pc ^^^ (shifted_pc >>> 2)).setWidth 32 ^^^ (t.computeIndices bank).comp
      let tag := asr tag 1 ^^^ ((tag &&& 1) <<< 10) ^^^ pathHash p t bank
      let tag := tag ^^^ (t.computeTags0 bank).comp ^^^ ((t.computeTags1 bank).comp <<< 1)
      ((tag ^^^ asr tag width) &&& lowMask width).setWidth 16

structure Lookup where
  tableIndices : Nat → BitVec 32 := fun _ => 0
  tableTags : Nat → BitVec 16 := fun _ => 0

def indexPair (t : ThreadHistory) (pc : Addr) (l : Lookup) (i : Nat) : Lookup :=
  let index := gindex p t pc i
  let tag := gtag p t pc i
  let twin := index ^^^ (tag.setWidth 32 &&& ones p.logTagTableSize)
  { tableIndices := Function.update (Function.update l.tableIndices i index) (i + 1) twin
    tableTags := Function.update (Function.update l.tableTags i tag) (i + 1) tag }

/-- `for (int i = 1; i <= nHistoryTables; i += 2)`. With an odd number of tables
the source writes the last twin behind its arrays. -/
def indexPairs (t : ThreadHistory) (pc : Addr) (l : Lookup) : Lookup :=
  (List.range ((p.nHistoryTables + 1) / 2)).foldl (fun l k => indexPair p t pc l (2 * k + 1)) l

def firstBank (t : ThreadHistory) (pc : Addr) (g : Group) : BitVec 64 :=
  let first := match g with
    | .short => 1
    | .long => p.firstLongTagTable
  ((pc >>> p.instShiftAmt) ^^^ (t.pathHist &&& ones (p.histLengths first)).signExtend 64) %
    BitVec.ofNat 64 (factor p g)

def assignBank (g : Group) (s : (Nat → BitVec 32) × BitVec 64) (i : Nat) :
    (Nat → BitVec 32) × BitVec 64 :=
  if enabled p i then
    (Function.update s.1 i (s.1 i + (s.2 <<< p.logTagTableSize).setWidth 32),
      (s.2 + 1) % BitVec.ofNat 64 (factor p g))
  else s

def assignBanks (t : ThreadHistory) (pc : Addr) (g : Group) (indices : Nat → BitVec 32) :
    Nat → BitVec 32 :=
  ((tablesOf p g).foldl (assignBank p g) (indices, firstBank p t pc g)).1

/-- The arrays after a lookup. The record of the branch gets the tags of all tables
and the indices of the enabled ones. -/
def lookup (t : ThreadHistory) (pc : Addr) (l : Lookup) : Lookup :=
  let l := indexPairs p t pc l
  { l with
    tableIndices := assignBanks p t pc .short (assignBanks p t pc .long l.tableIndices) }

def calculateIndicesAndTags (t : ThreadHistory) (pc : Addr) (l : Lookup) (bi : BranchInfo) :
    Lookup × BranchInfo :=
  let l := lookup p t pc l
  let listed := fun i => tablesOf p .long ++ tablesOf p .short |>.contains i
  (l,
    { bi with
      tableIndices := fun i =>
        if listed i && enabled p i then l.tableIndices i else bi.tableIndices i
      tableTags := fun i =>
        if decide (1 ≤ i ∧ i ≤ 2 * ((p.nHistoryTables + 1) / 2)) then l.tableTags i
        else bi.tableTags i })

/-- The two arrays, and the counter of the periodic reset. -/
structure Entries where
  gtable : Group → Nat → TageEntry := fun _ _ => {}
  tCounter : Int := 0

/-- The loop of `tagePredict` for the longest match, from the table `i` downwards;
0 if there is none. -/
def hitBank (e : Entries) (l : Lookup) : Nat → Nat
  | 0 => 0
  | i + 1 =>
      if enabled p (i + 1) &&
          (e.gtable (group p (i + 1)) (l.tableIndices (i + 1)).toNat).tag == l.tableTags (i + 1)
      then i + 1
      else hitBank e l i

def Entries.modify (e : Entries) (g : Group) (index : BitVec 32) (f : TageEntry → TageEntry) :
    Entries :=
  { e with
    gtable := Function.update e.gtable g
      (Function.update (e.gtable g) index.toNat (f (e.gtable g index.toNat))) }

/-- The state of the loop. `rand` are the numbers that are drawn, in order. -/
structure Alloc where
  entries : Entries
  I : Nat
  penalty : Int := 0
  truePen : Int := 0
  numAllocated : Nat := 0
  maxAllocReached : Bool := false
  rand : List (BitVec 32)

def Alloc.draw (s : Alloc) (mask : BitVec 32) : BitVec 32 × Alloc :=
  (s.rand.headD 0 &&& mask, { s with rand := s.rand.tail })

def calcDep (hitBank : Nat) (first second : BitVec 32) : Nat :=
  let a := if first &&& 127 < 32 then 2 else 1
  ((hitBank + 2 * a - 1) &&& 0xffe) ^^^ (second &&& 1).toNat

/-- The body of the inner loop of the 64KB predictor for the table `i`, and whether
the loop is left. -/
def tryTable64KB (taken : Bool) (bi : BranchInfo) (s : Alloc) (i : Nat) : Alloc × Bool :=
  if enabled p i then
    let entry := s.entries.gtable (group p i) (bi.tableIndices i).toNat
    if entry.u = 0 then
      if (2 * entry.ctr + 1).natAbs ≤ 3 then
        ({ s with
            entries := s.entries.modify (group p i) (bi.tableIndices i) fun entry =>
              { entry with tag := bi.tableTags i, ctr := if taken then 0 else -1 }
            numAllocated := s.numAllocated + 1
            maxAllocReached := decide (s.numAllocated + 1 = p.maxNumAlloc)
            I := s.I + 2 }, true)
      else
        ({ s with
            entries := s.entries.modify (group p i) (bi.tableIndices i) fun entry =>
              { entry with ctr := if entry.ctr > 0 then entry.ctr - 1 else entry.ctr + 1 } },
          false)
    else ({ s with penalty := s.penalty + 1 }, false)
  else (s, false)

def tryTable8KB (taken : Bool) (bi : BranchInfo) (s : Alloc) (i : Nat) : Alloc × Bool :=
  if i > p.nHistoryTables then (s, true)
  else if enabled p i then
    let entry := s.entries.gtable (group p i) (bi.tableIndices i).toNat
    if entry.u = 0 then
      let (r, s) := s.draw 31
      let s :=
        { s with
          entries := s.entries.modify (group p i) (bi.tableIndices i) fun _ =>
            { tag := bi.tableTags i, ctr := if taken then 0 else -1, u := if r = 0 then 1 else 0 }
          numAllocated := s.numAllocated + 1 }
      if s.numAllocated = p.maxNumAlloc then ({ s with maxAllocReached := true }, true)
      else ({ s with I := s.I + 2 }, false)
    else if entry.u = 1 ∧ (2 * entry.ctr + 1).natAbs = 1 then
      let (r, s) := s.draw 7
      let s :=
        if r = 0 then
          { s with
            entries := s.entries.modify (group p i) (bi.tableIndices i) fun entry =>
              { entry with u := 0 } }
        else s
      ({ s with penalty := s.penalty + 1 }, false)
    else ({ s with truePen := s.truePen + 1, penalty := s.penalty + 1 }, false)
  else (s, true)

def tryTable (taken : Bool) (bi : BranchInfo) (s : Alloc) (i : Nat) : Alloc × Bool :=
  match p.variant with
  | .kb64 => tryTable64KB p taken bi s i
  | .kb8 => tryTable8KB p taken bi s i

/-- The inner loop: the table of `I` and its twin. The second is computed from the
`I` that the first may have advanced. -/
def tryPair (taken : Bool) (bi : BranchInfo) (s : Alloc) : Alloc :=
  let (s, left) := tryTable p taken bi s (s.I + 1)
  if left then s else (tryTable p taken bi s ((s.I ^^^ 1) + 1)).1

/-- The outer loop. `I` grows by two in every round, so that `nHistoryTables`
rounds are enough. -/
def allocLoop (taken : Bool) (bi : BranchInfo) : Nat → Alloc → Alloc
  | 0, s => s
  | rounds + 1, s =>
      if s.I < p.nHistoryTables then
        let s := tryPair p taken bi s
        if s.maxAllocReached then s else allocLoop taken bi rounds { s with I := s.I + 2 }
      else s

def resetUctr (u : Nat) : Nat :=
  match p.variant with
  | .kb64 => u / 2
  | .kb8 => u - 1

def handleUReset (e : Entries) : Entries :=
  let e := if e.tCounter < 0 then { e with tCounter := 0 } else e
  if e.tCounter ≥ 2 ^ p.logUResetPeriod then
    { gtable := fun g j =>
        if j < arraySize p g then
          { e.gtable g j with u := resetUctr p (e.gtable g j).u }
        else e.gtable g j
      tCounter := 0 }
  else e

def handleAllocAndUReset (e : Entries) (alloc taken : Bool) (bi : BranchInfo) (hitBank : Nat)
    (rand : List (BitVec 32)) : Entries :=
  if !alloc then e
  else
    let start : Alloc :=
      { entries := e, I := calcDep hitBank (rand.getD 0 0) (rand.getD 1 0), rand := rand.drop 2 }
    let s := allocLoop p taken bi p.nHistoryTables start
    let change := match p.variant with
      | .kb64 => s.penalty - 2 * (s.numAllocated : Int)
      | .kb8 => s.truePen + s.penalty - 5 * (s.numAllocated : Int)
    handleUReset p { s.entries with tCounter := s.entries.tCounter + change }

end Gem5Core.Pred.TageScl
