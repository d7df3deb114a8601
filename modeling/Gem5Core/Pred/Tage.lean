import Gem5Core.Lib.Speculation
import Gem5Core.Pred.TageBase

/-! `TAGE` of `cpu/pred/tage.cc`, as far as it drives the histories of `TAGEBase`, and the runs of
its calls on one thread. -/
namespace Gem5Core.Pred.Tage
open Branch Lib.Speculation TageBase

variable (p : Params)

def update (t : ThreadHistory) (pc : Addr) (taken : Bool) (bp_history : Option BranchInfo)
    (squashed : Bool) (target : Addr) : ThreadHistory × Option BranchInfo :=
  match bp_history with
  | none => (t.check false, none)
  | some bi =>
      if squashed then
        let (t, bi) := TageBase.squash p t taken target bi
        (t, some bi)
      else ((TageBase.updateHistories p t pc false taken target bi).1, none)

def squash (t : ThreadHistory) (bp_history : Option BranchInfo) :
    ThreadHistory × Option BranchInfo :=
  match bp_history with
  | none => (t.check false, none)
  | some bi => ((restoreHistState p t bi).1, none)

def lookup (t : ThreadHistory) (pc : Addr) : BranchInfo :=
  calculateIndicesAndTags p t pc (makeBranchInfo pc true)

def branchPlaceholder (pc : Addr) (uncond : Bool) : BranchInfo := makeBranchInfo pc !uncond

def updateHistories (t : ThreadHistory) (pc : Addr) (uncond taken : Bool) (target : Addr)
    (bp_history : Option BranchInfo) : ThreadHistory × Option BranchInfo :=
  let (t, bi) :=
    match bp_history with
    | none => (t.check uncond, makeBranchInfo pc false)
    | some bi => (t, bi)
  let (t, bi) := TageBase.updateHistories p t pc true taken target bi
  (t, some bi)

/-- How the record of a branch came about before its first history update. -/
inductive Origin where
  | lookup
  | placeholder (uncond : Bool)
  | unconditional

def Origin.uncond : Origin → Bool
  | .lookup => false
  | .placeholder uncond => uncond
  | .unconditional => true

structure Branch where
  pc : Addr
  taken : Bool
  target : Addr
  origin : Origin

def newRecord (t : ThreadHistory) (b : Branch) : Option BranchInfo :=
  match b.origin with
  | .lookup => some (lookup p t b.pc)
  | .placeholder uncond => some (branchPlaceholder b.pc uncond)
  | .unconditional => none

/-- An outcome is a direction and a target. -/
def machine : Machine ThreadHistory Branch (Option BranchInfo) (Bool × Addr) Empty where
  enter := fun t b =>
    updateHistories p t b.pc b.origin.uncond b.taken b.target (newRecord p t b)
  amend := fun b outcome => { b with taken := outcome.1, target := outcome.2 }
  correct := fun t b bp_history outcome => update p t b.pc outcome.1 bp_history true outcome.2
  undo := fun t _ bp_history => (squash p t bp_history).1
  retire := fun t b bp_history => (update p t b.pc b.taken bp_history false b.target).1
  other := fun t _ => t

end Gem5Core.Pred.Tage
