import Gem5Core.Pred.Branch

/-! The fetch target queue of the decoupled front end (`cpu/o3/ftq.cc`), for its only thread. -/
namespace Gem5Core.O3.Ftq
open Pred.Branch

abbrev FTSeqNum := InstSeqNum

/-- `bpuHistory` points to a record of type `ρ`. -/
structure FetchTarget (PC ρ : Type) where
  startPC : PC
  endPC : Option PC := none
  predPC : Option PC := none
  ftSeqNum : FTSeqNum
  is_branch : Bool := false
  taken : Bool := false
  bpuHistory : Option ρ := none

variable {PC ρ : Type}

namespace FetchTarget

def finalize (ft : FetchTarget PC ρ) (exit_pc : PC) (is_branch pred_taken : Bool)
    (pred_pc : PC) : FetchTarget PC ρ :=
  { ft with endPC := some exit_pc, predPC := some pred_pc, taken := pred_taken, is_branch }

def withHistory (ft : FetchTarget PC ρ) (bpuHistory : Option ρ) : FetchTarget PC ρ :=
  { ft with bpuHistory }

variable [PCState PC] (ft : FetchTarget PC ρ)

def startAddress : Addr := PCState.instAddr ft.startPC

def endAddress : Addr := ft.endPC.elim (BitVec.allOnes 64) PCState.instAddr

def inRange (addr : Addr) : Bool := ft.startAddress ≤ addr && addr ≤ ft.endAddress

def isExitInst (addr : Addr) : Bool := addr == ft.endAddress

def isExitBranch (addr : Addr) : Bool := addr == ft.endAddress && ft.is_branch

end FetchTarget

inductive Status where
  | invalid
  | valid
  | full
  | locked
deriving DecidableEq

/-- `ftq` is listed from the head to the tail. `asserted` stays true as long as
no `assert` of the class failed. -/
structure FTQ (PC ρ : Type) where
  ftq : List (FetchTarget PC ρ) := []
  ftqStatus : Status := .valid
  asserted : Bool := true

namespace FTQ

variable (q : FTQ PC ρ)

def isFull (numEntries : Nat) : Bool := numEntries ≤ q.ftq.length

def invalidate : FTQ PC ρ :=
  if q.ftq.isEmpty then q else { q with ftqStatus := .invalid }

def isReady : Bool := q.ftqStatus != .invalid

def lock : FTQ PC ρ := { q with ftqStatus := .locked }

def isLocked : Bool := q.ftqStatus == .locked

def insert (numEntries : Nat) (fetchTarget : FetchTarget PC ρ) : FTQ PC ρ :=
  { q with
    ftq := q.ftq ++ [fetchTarget]
    asserted := q.asserted && decide (q.ftq.length < numEntries) }

def squash : FTQ PC ρ :=
  { ftq := [], ftqStatus := .valid, asserted := q.asserted && q.ftq.all (·.bpuHistory.isNone) }

def readHead : Option (FetchTarget PC ρ) :=
  if q.ftqStatus = .invalid then none else q.ftq.head?

/-- A head that still has its record stays, and the queue becomes invalid; a locked queue becomes
invalid too. -/
def popHead : Bool × FTQ PC ρ :=
  match q.ftq with
  | [] => (false, { q with asserted := false })
  | ft :: rest =>
      if ft.bpuHistory.isSome then (false, { q with ftqStatus := .invalid })
      else if q.ftqStatus = .locked then
        (false, { q with ftq := rest, ftqStatus := .invalid })
      else (true, { q with ftq := rest })

def modifyHead (f : FetchTarget PC ρ → FetchTarget PC ρ) : FTQ PC ρ :=
  { q with ftq := q.ftq.modifyHead f }

end FTQ

/-- Iterates from the tail to the head and applies `f`, which threads a state. -/
def forAllBackward {σ : Type} (f : σ → FetchTarget PC ρ → σ × FetchTarget PC ρ) (s : σ) :
    List (FetchTarget PC ρ) → σ × List (FetchTarget PC ρ)
  | [] => (s, [])
  | ft :: rest =>
      let (s, rest) := forAllBackward f s rest
      let (s, ft) := f s ft
      (s, ft :: rest)

end Gem5Core.O3.Ftq
