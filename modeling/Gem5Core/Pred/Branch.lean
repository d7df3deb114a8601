import Mathlib.Data.Fintype.Basic

/-! Branch instructions as the branch predictors see them, and the interfaces of the conditional
predictor and the branch target buffer. -/
namespace Gem5Core.Pred.Branch

abbrev Addr := BitVec 64
abbrev ThreadID := Nat
abbrev InstSeqNum := Nat

/-- `PCStateBase`: the predictors only read `instAddr` and redirect with `set`. -/
class PCState (PC : Type) where
  instAddr : PC → Addr
  set : PC → Addr → PC

instance : PCState Addr := ⟨id, fun _ a => a⟩

/-- `size` is `_size`, 0 when the decoder never set it. Only the front end reads the last four
flags. -/
structure StaticInst (PC : Type) where
  isCall : Bool
  isReturn : Bool
  isDirectCtrl : Bool
  isIndirectCtrl : Bool
  isCondCtrl : Bool
  size : Nat
  advancePC : PC → PC
  buildRetPC : PC → PC → PC
  isControl : Bool := true
  isUncondCtrl : Bool := !isCondCtrl
  isMicroop : Bool := false
  isLastMicroop : Bool := false

inductive BranchType where
  | noBranch
  | «return»
  | callDirect
  | callIndirect
  | directCond
  | directUncond
  | indirectCond
  | indirectUncond
deriving DecidableEq

instance : Fintype BranchType where
  elems := {.noBranch, .return, .callDirect, .callIndirect, .directCond, .directUncond,
    .indirectCond, .indirectUncond}
  complete := by
    intro type
    cases type <;> decide

inductive TargetProvider where
  | noTarget
  | btb
  | ras
  | indirect
deriving DecidableEq

variable {PC : Type}

def getBranchType (inst : StaticInst PC) : BranchType :=
  if inst.isReturn then .return
  else if inst.isCall then
    if inst.isDirectCtrl then .callDirect else .callIndirect
  else if inst.isDirectCtrl then
    if inst.isCondCtrl then .directCond else .directUncond
  else if inst.isIndirectCtrl then
    if inst.isCondCtrl then .indirectCond else .indirectUncond
  else .noBranch

def BranchType.usesRas : BranchType → Bool
  | .return | .callDirect | .callIndirect => true
  | _ => false

theorem getBranchType_usesRas (inst : StaticInst PC) :
    (getBranchType inst).usesRas = (inst.isCall || inst.isReturn) := by
  unfold getBranchType
  cases inst.isReturn <;> cases inst.isCall <;> cases inst.isDirectCtrl <;>
    cases inst.isIndirectCtrl <;> cases inst.isCondCtrl <;> rfl

theorem getBranchType_return (inst : StaticInst PC) :
    getBranchType inst = .return ↔ inst.isReturn = true := by
  unfold getBranchType
  cases inst.isReturn <;> cases inst.isCall <;> cases inst.isDirectCtrl <;>
    cases inst.isIndirectCtrl <;> cases inst.isCondCtrl <;> decide

/-- `ConditionalPredictor`. Each function takes and returns the predictor's
state `σ`; the record behind `void *&bp_history` is an `Option η`. -/
structure ConditionalPredictor (PC σ η : Type) where
  lookup : σ → ThreadID → Addr → Option η → Bool × σ × Option η
  updateHistories : σ → ThreadID → Addr → (uncond taken : Bool) → (target : Addr) →
    StaticInst PC → Option η → σ × Option η
  squash : σ → ThreadID → Option η → σ × Option η
  update : σ → ThreadID → Addr → (taken : Bool) → Option η → (squashed : Bool) →
    StaticInst PC → (target : Addr) → σ × Option η

/-- The predictor releases its record when the branch is squashed or committed. -/
structure ConditionalPredictor.Releases {PC σ η : Type} (cPred : ConditionalPredictor PC σ η) :
    Prop where
  squash : ∀ s tid h, (cPred.squash s tid h).2 = none
  commit : ∀ s tid pc taken h inst target,
    (cPred.update s tid pc taken h false inst target).2 = none

/-- `BranchTargetBuffer`. A lookup may change the buffer's state (replacement). -/
structure BranchTargetBuffer (PC β : Type) where
  lookup : β → ThreadID → Addr → BranchType → Option PC × β
  update : β → ThreadID → Addr → PC → BranchType → StaticInst PC → β
  incorrectTarget : β → Addr → BranchType → β

def ConditionalPredictor.static (taken : Bool) : ConditionalPredictor PC Unit Unit where
  lookup := fun _ _ _ _ => (taken, (), some ())
  updateHistories := fun _ _ _ _ _ _ _ h => ((), h)
  squash := fun _ _ _ => ((), none)
  update := fun _ _ _ _ h squashed _ _ => ((), if squashed then h else none)

theorem ConditionalPredictor.static_releases (taken : Bool) :
    (ConditionalPredictor.static taken : ConditionalPredictor PC Unit Unit).Releases :=
  ⟨fun _ _ _ => rfl, fun _ _ _ _ _ _ _ => rfl⟩

def BranchTargetBuffer.none : BranchTargetBuffer PC Unit where
  lookup := fun _ _ _ _ => (Option.none, ())
  update := fun _ _ _ _ _ _ => ()
  incorrectTarget := fun _ _ _ => ()

def fourByteInst (isCall isReturn isCondCtrl : Bool) : StaticInst Addr where
  isCall
  isReturn
  isDirectCtrl := !isReturn
  isIndirectCtrl := isReturn
  isCondCtrl
  size := 4
  advancePC := (· + 4)
  buildRetPC := fun cur _ => cur + 4

end Gem5Core.Pred.Branch
