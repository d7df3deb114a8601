import Mathlib.Algebra.Group.Int.Defs
import Gem5Core.Base.IntMath
import Gem5Core.Pred.StatisticalCorrector

/-! The GEHL components of `StatisticalCorrector`: tables of counters that are indexed by a hash of
the branch address and a history. Prediction and training return, beside their result, the entries
they selected. -/
namespace Gem5Core.Pred.Gehl
open Branch StatisticalCorrector
open Base.IntMath (ones)

inductive GehlId where
  | bwgehl
  | pgehl
  | lgehl
  | sgehl
  | tgehl
  | imgehl
  | igehl
  | ggehl
deriving DecidableEq

/-- The parameters of one component: `nbr` tables of `2 ^ logs` counters, each
with its own history length. -/
structure Component where
  nbr : Nat
  length : Nat → Nat
  logs : Nat

structure GehlParams extends Params where
  component : GehlId → Component
  weightInitValue : GehlId → Int
  logSizeUp : Nat
  scCountersWidth : Nat
  extraWeightsWidth : Nat
  initialUpdateThresholdValue : Int

/-- The defaults of `TAGE_SC_L_64KB_StatisticalCorrector`, for instructions aligned to `2 ^
instShiftAmt` bytes. -/
def GehlParams.defaults64KB (instShiftAmt : Nat) : GehlParams where
  toParams := { Params.defaults64KB with instShiftAmt }
  component
    | .bwgehl => ⟨3, fun i => [40, 24, 10].getD i 0, 10⟩
    | .pgehl => ⟨3, fun i => [25, 16, 9].getD i 0, 9⟩
    | .lgehl => ⟨3, fun i => [11, 6, 3].getD i 0, 10⟩
    | .sgehl => ⟨3, fun i => [16, 11, 6].getD i 0, 9⟩
    | .tgehl => ⟨2, fun i => [9, 4].getD i 0, 10⟩
    | .imgehl => ⟨2, fun i => [10, 4].getD i 0, 9⟩
    | .igehl => ⟨1, fun i => [8].getD i 0, 8⟩
    | .ggehl => ⟨0, fun _ => 0, 0⟩
  -- for four of the components the constructor passes the value itself
  weightInitValue
    | .imgehl => 0
    | _ => 7
  logSizeUp := 6
  scCountersWidth := 6
  extraWeightsWidth := 6
  initialUpdateThresholdValue := 0

structure Info extends BranchInfo where
  predBeforeSC : Bool := false
  lsum : Int := 0

structure GehlTable where
  tab : Nat → Register → Int
  w : BitVec 32 → Int

structure Tables where
  gehl : GehlId → GehlTable
  wb : BitVec 32 → Int
  updateThreshold : Int
  pUpdateThreshold : BitVec 32 → Int

def Tables.init (p : GehlParams) : Tables where
  gehl := fun g =>
    { tab := fun _ j =>
        if j.toNat < 2 ^ (p.component g).logs - 1 ∧ j.toNat % 2 = 0 then -1 else 0
      w := fun _ => p.weightInitValue g }
  wb := fun _ => 4
  updateThreshold := 35 * 2 ^ 3
  pUpdateThreshold := fun _ => p.initialUpdateThresholdValue

inductive Entry where
  | counter (g : GehlId) (i : Nat) (index : Register)
  | weight (g : GehlId) (index : BitVec 32)
deriving DecidableEq

section

def lengthMask (length : Nat) : Register := (ones length).signExtend 64

def asr (x : Register) (k : Int) : Register := x.sshiftRight (k % 64).toNat

variable (p : GehlParams)

def gIndexLogsSubstr (nbr i : Nat) : Nat :=
  match p.variant with
  | .kb64 .. => if (i : Int) ≥ (nbr : Int) - 2 then 1 else 0
  | .kb8 => 0

def gIndex (branch_pc : Addr) (bhist : Register) (logs nbr i : Nat) : Register :=
  (asr branch_pc p.instShiftAmt ^^^ bhist ^^^ asr bhist (8 - i) ^^^ asr bhist (16 - 2 * i) ^^^
      asr bhist (24 - 3 * i) ^^^ asr bhist (32 - 3 * i) ^^^ asr bhist (40 - 4 * i)) &&&
    (ones ((logs : Int) - gIndexLogsSubstr p nbr i)).signExtend 64

/-- `(shifted_pc ^ (shifted_pc >> 2)) & ((1 << log) - 1)`, which both indices of
the update tables are. -/
def pcHash (branch_pc : Addr) (log : Nat) : BitVec 32 :=
  let shifted_pc := branch_pc >>> p.instShiftAmt
  ((shifted_pc ^^^ (shifted_pc >>> 2)) &&& (ones log).signExtend 64).setWidth 32

def getIndUpd (branch_pc : Addr) : BitVec 32 := pcHash p branch_pc p.logSizeUp

def getIndUpds (branch_pc : Addr) : BitVec 32 := pcHash p branch_pc (p.logSizeUp / 2)

def select (c : Component) (branch_pc : Addr) (hist : Register) (i : Nat) : Register :=
  gIndex p branch_pc (hist &&& lengthMask (c.length i)) c.logs c.nbr i

end

def ctrUpdate (ctr : Int) (taken : Bool) (nbits : Nat) : Int :=
  if nbits > 0 then
    if taken then
      if ctr < 2 ^ (nbits - 1) - 1 then ctr + 1 else ctr
    else if ctr > -2 ^ (nbits - 1) then ctr - 1
    else ctr
  else ctr

section

variable (p : GehlParams)

structure Call where
  gehl : GehlId
  branch_pc : Addr
  hist : Register

def readCounter (t : GehlTable) (c : Call) (sum : Int × List Entry) (i : Nat) :
    Int × List Entry :=
  let index := select p (p.component c.gehl) c.branch_pc c.hist i
  let ctr := t.tab i index
  (sum.1 + (2 * ctr + 1), sum.2 ++ [.counter c.gehl i index])

def gPredict (t : GehlTable) (c : Call) : Int × List Entry :=
  let sum := (List.range (p.component c.gehl).nbr).foldl (readCounter p t c) (0, [])
  let ind := getIndUpds p c.branch_pc
  ((1 + if t.w ind ≥ 0 then 1 else 0) * sum.1, sum.2 ++ [.weight c.gehl ind])

/-- One iteration of the loop in `gUpdate`: the sum is over the counters before
they are trained. -/
def trainCounter (c : Call) (taken : Bool) (s : GehlTable × Int × List Entry) (i : Nat) :
    GehlTable × Int × List Entry :=
  let index := select p (p.component c.gehl) c.branch_pc c.hist i
  let ctr := s.1.tab i index
  ({ s.1 with
      tab := Function.update s.1.tab i
        (Function.update (s.1.tab i) index (ctrUpdate ctr taken p.scCountersWidth)) },
    s.2.1 + (2 * ctr + 1), s.2.2 ++ [.counter c.gehl i index])

def decides (lsum percsum weight : Int) : Bool :=
  let xsum := lsum - if weight ≥ 0 then percsum else 0
  decide (xsum + percsum ≥ 0) != decide (xsum ≥ 0)

def gUpdate (t : GehlTable) (c : Call) (taken : Bool) (bi : Info) : GehlTable × List Entry :=
  let (t', percsum, trained) :=
    (List.range (p.component c.gehl).nbr).foldl (trainCounter p c taken) (t, 0, [])
  let ind := getIndUpds p c.branch_pc
  let weight :=
    if decides bi.lsum percsum (t'.w ind) then
      ctrUpdate (t'.w ind) (decide (percsum ≥ 0) == taken) p.extraWeightsWidth
    else t'.w ind
  ({ t' with w := Function.update t'.w ind weight }, trained ++ [.weight c.gehl ind])

end

section

variable (p : GehlParams)

def readCalls (branch_pc : Addr) (bi : Info) : List Call :=
  let pred : Addr := if bi.predBeforeSC then 1 else 0
  match p.variant with
  | .kb64 .. =>
      [⟨.bwgehl, ((branch_pc >>> p.instShiftAmt) <<< 1) + pred, bi.bwHist⟩,
        ⟨.pgehl, branch_pc, bi.pHist⟩,
        ⟨.lgehl, branch_pc, bi.localHistories 1⟩,
        ⟨.sgehl, branch_pc, bi.localHistories 2⟩,
        ⟨.tgehl, branch_pc, bi.localHistories 3⟩,
        ⟨.imgehl, branch_pc, bi.imHist⟩,
        ⟨.igehl, branch_pc, BitVec.ofNat 64 bi.imliCount⟩]
  | .kb8 =>
      [⟨.ggehl, branch_pc, bi.globalHist⟩,
        ⟨.bwgehl, branch_pc, bi.bwHist⟩,
        ⟨.lgehl, branch_pc, bi.localHistories 1⟩,
        ⟨.igehl, branch_pc, BitVec.ofNat 64 bi.imliCount⟩]

def trainCalls (pc : Addr) (bi : Info) : List Call :=
  let pred : Addr := if bi.predBeforeSC then 1 else 0
  match p.variant with
  | .kb64 .. =>
      [⟨.bwgehl, (pc <<< 1) + pred, bi.bwHist⟩,
        ⟨.pgehl, pc, bi.pHist⟩,
        ⟨.lgehl, pc, bi.localHistories 1⟩,
        ⟨.sgehl, pc, bi.localHistories 2⟩,
        ⟨.tgehl, pc, bi.localHistories 3⟩,
        ⟨.imgehl, pc, bi.imHist⟩,
        ⟨.igehl, pc, BitVec.ofNat 64 bi.imliCount⟩]
  | .kb8 =>
      [⟨.ggehl, pc, bi.globalHist⟩,
        ⟨.bwgehl, pc, bi.bwHist⟩,
        ⟨.lgehl, pc, bi.localHistories 1⟩,
        ⟨.igehl, pc, BitVec.ofNat 64 bi.imliCount⟩]

def sign (weight : Int) : Int := if weight ≥ 0 then 1 else 0

def weightThreshold (tables : Tables) (ind : BitVec 32) : Int :=
  match p.variant with
  | .kb64 .. =>
      12 * (sign (tables.wb ind) + sign ((tables.gehl .pgehl).w ind) +
        sign ((tables.gehl .sgehl).w ind) + sign ((tables.gehl .tgehl).w ind) +
        sign ((tables.gehl .lgehl).w ind) + sign ((tables.gehl .bwgehl).w ind) +
        sign ((tables.gehl .igehl).w ind))
  | .kb8 => 0

def gPredictions (tables : Tables) (branch_pc : Addr) (bi : Info) (lsum : Int) :
    Int × Int × List Entry :=
  let sums := (readCalls p branch_pc bi).map fun c => gPredict p (tables.gehl c.gehl) c
  (sums.foldl (fun lsum sum => lsum + sum.1) lsum,
    tables.updateThreshold / 8 + tables.pUpdateThreshold (getIndUpd p branch_pc) +
      weightThreshold p tables (getIndUpds p branch_pc),
    sums.flatMap Prod.snd)

def trainCall (taken : Bool) (bi : Info) (s : Tables × List Entry) (c : Call) :
    Tables × List Entry :=
  let (t, trained) := gUpdate p (s.1.gehl c.gehl) c taken bi
  ({ s.1 with gehl := Function.update s.1.gehl c.gehl t }, s.2 ++ trained)

def gUpdates (tables : Tables) (pc : Addr) (taken : Bool) (bi : Info) : Tables × List Entry :=
  (trainCalls p pc bi).foldl (trainCall p taken bi) (tables, [])

end

end Gem5Core.Pred.Gehl
