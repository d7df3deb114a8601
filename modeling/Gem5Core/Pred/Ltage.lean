import Gem5Core.Pred.LoopPredictor

/-! `TAGE` and its subclass `LTAGE` as whole predictors, with every call that `BPredUnit` makes on
them. -/
namespace Gem5Core.Pred.Ltage
open Branch TageBase TageTables

/-- `loopPredictor` is `none` for `TAGE`. -/
structure Params where
  tage : TableParams
  loopPredictor : Option LoopPredictor.Params
  instShiftAmt : Nat

def Params.defaults : Params where
  tage := .defaults
  loopPredictor := some .defaults
  instShiftAmt := 2

structure State where
  history : ThreadID → ThreadHistory
  tables : Tables
  loop : LoopPredictor.State := {}

structure Record where
  tage : PredInfo
  loop : LoopPredictor.BranchInfo := {}

structure Draws where
  nrand : BitVec 32
  loopChoice : BitVec 32
  loopWay : BitVec 32

variable (p : Params)

def State.init : State where
  history := fun _ => .init p.tage.toParams
  tables := .init p.tage

def State.setHistory (s : State) (tid : ThreadID) (t : ThreadHistory) : State :=
  { s with history := Function.update s.history tid t }

def State.noRecord (s : State) (tid : ThreadID) : State :=
  s.setHistory tid ((s.history tid).check false)

def branchPlaceholder (pc : Addr) (uncond : Bool) : Record := { tage := newPredInfo pc !uncond }

def predict (s : State) (tid : ThreadID) (branch_pc : Addr) (cond_branch : Bool) :
    Bool × State × Record :=
  let (pred_taken, bi) := tagePredict p.tage s.tables (s.history tid) branch_pc cond_branch
    (newPredInfo branch_pc cond_branch)
  match p.loopPredictor with
  | none => (pred_taken, s, { tage := bi })
  | some lp =>
      let (pred_taken, loop, loopInfo) := LoopPredictor.loopPredict lp s.loop branch_pc
        cond_branch {} pred_taken p.instShiftAmt
      let bi := if cond_branch && loopInfo.loopPredUsed then { bi with provider := some .loop }
        else bi
      (pred_taken, { s with loop },
        { tage := bi, loop := { loopInfo with predTaken := pred_taken } })

def lookup (s : State) (tid : ThreadID) (pc : Addr) : Bool × State × Record :=
  predict p s tid pc true

def shiftHistory (s : State) (tid : ThreadID) (branch_pc : Addr) (speculative taken : Bool)
    (target : Addr) (bi : Record) : State × Record :=
  let (t, info) := TageBase.updateHistories p.tage.toParams (s.history tid) branch_pc speculative
    taken target bi.tage.toBranchInfo
  (s.setHistory tid t, { bi with tage.toBranchInfo := info })

def updateHistories (s : State) (tid : ThreadID) (pc : Addr) (uncond taken : Bool) (target : Addr)
    (bp_history : Option Record) : State × Option Record :=
  let (s, bi) :=
    match bp_history with
    | some bi => (s, bi)
    | none => ((if uncond then s else s.noRecord tid), (predict p s tid pc false).2.2)
  let (s, bi) := shiftHistory p s tid pc true taken target bi
  (s, some bi)

def correct (s : State) (tid : ThreadID) (taken : Bool) (target : Addr) (bi : Record) :
    State × Record :=
  if p.tage.speculativeHistUpdate then
    let (s, bi) := shiftHistory p s tid bi.tage.branchPC true taken target bi
    match p.loopPredictor with
    | some lp =>
        (if bi.tage.condBranch then { s with loop := LoopPredictor.squashLoop lp s.loop bi.loop }
          else s, bi)
    | none => (s, bi)
  else (s, bi)

def train (s : State) (pc : Addr) (taken : Bool) (bi : Record) (draws : Draws) : State :=
  if bi.tage.condBranch then
    let loop :=
      match p.loopPredictor with
      | some lp => LoopPredictor.condBranchUpdate lp s.loop pc taken bi.tage.tagePred bi.loop
          p.instShiftAmt draws.loopChoice draws.loopWay
      | none => s.loop
    { s with
      loop, tables := condBranchUpdate p.tage s.tables taken bi.tage (draws.nrand &&& 3) }
  else s

def update (s : State) (tid : ThreadID) (pc : Addr) (taken : Bool) (bp_history : Option Record)
    (squashed : Bool) (target : Addr) (draws : Draws) : State × Option Record :=
  match bp_history with
  | none => (s.noRecord tid, none)
  | some bi =>
      if squashed then
        let (s, bi) := correct p s tid taken target bi
        (s, some bi)
      else
        let s := train p s pc taken bi draws
        -- optional non speculative update of the histories
        ((shiftHistory p s tid pc false taken target bi).1, none)

def squash (s : State) (tid : ThreadID) (bp_history : Option Record) : State × Option Record :=
  match bp_history with
  | none => (s.noRecord tid, none)
  | some bi =>
      let s :=
        match p.loopPredictor with
        | some lp =>
            if bi.tage.condBranch then { s with loop := LoopPredictor.squash lp s.loop bi.loop }
            else s
        | none => s
      (s.setHistory tid
        (restoreHistState p.tage.toParams (s.history tid) bi.tage.toBranchInfo).1, none)

end Gem5Core.Pred.Ltage
