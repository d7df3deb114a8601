import Gem5Core.O3.Bac

/-! The decoupled front end as a system: the cycles of the branch address
calculation stage and the instructions that fetch takes from the fetch target at
the head of the queue, in any order. -/
namespace Gem5Core.O3.FrontEnd
open Gem5Core.Pred Pred.Branch Ftq Bac

variable {PC σ η β : Type} {n : Nat}

structure Fetched (PC : Type) where
  seqNum : InstSeqNum
  inst : StaticInst PC
  pc : PC
  isQuiesce : Bool := false

/-- `bacResteer`. The squash signal arrives with a later cycle. -/
def bacResteer (s : BAC PC σ η β n) : BAC PC σ η β n := { s with ftq := s.ftq.invalidate }

def nextFetchTarget (s : BAC PC σ η β n) : BAC PC σ η β n :=
  let (popped, ftq) := s.ftq.popHead
  if popped then { s with ftq } else bacResteer { s with ftq }

variable [PCState PC] [NeZero n] (p : Bac.Params PC σ η β) (tid : ThreadID)

/-- One instruction of the loop in `Fetch::fetch`. Fetch waits while the queue has
no head to offer. -/
def fetchInst (f : Fetched PC) (s : BAC PC σ η β n) : BAC PC σ η β n :=
  match s.ftq.readHead with
  | none => s
  | some curFT =>
      if curFT.inRange (PCState.instAddr f.pc) then
        let (_, next_pc, finished, s) := updatePC p tid f.seqNum f.inst f.pc curFT s
        let finished := finished || !curFT.inRange (PCState.instAddr next_pc)
        if finished && !f.isQuiesce then nextFetchTarget s else s
      else bacResteer s

inductive Event (PC : Type) where
  | tick (signals : Signals PC)
  | fetch (fetched : Fetched PC)

def step (s : BAC PC σ η β n) : Event PC → BAC PC σ η β n
  | .tick signals => tick p tid signals s
  | .fetch fetched => fetchInst p tid fetched s

def start (cPred : σ) (btb : β) (hasRas hasIPred : Bool) (pc : PC) : BAC PC σ η β n :=
  { bpu := BPredUnit.start p.bpu cPred btb hasRas hasIPred, bacPC := pc }

def run (s : BAC PC σ η β n) (events : List (Event PC)) : BAC PC σ η β n :=
  events.foldl (step p tid) s

/-- A static direction predictor and a fixed branch target buffer: the branches it knows, with their
targets. -/
def fixedTargets (taken : Bool) (known : List (Addr × StaticInst Addr × Addr)) :
    Bac.Params Addr Unit Unit Unit where
  bpu :=
    { requiresBTBHit := true
      updateBTBAtSquash := true
      cPred := .static taken
      btb :=
        { lookup := fun _ _ addr _ => ((known.lookup addr).map (·.2), ())
          update := fun _ _ _ _ _ _ => ()
          incorrectTarget := fun _ _ _ => () }
      iPred := .defaults }
  branchPlaceholder := fun _ _ _ _ _ => ((), some ())
  btbValid := fun _ _ addr => (known.lookup addr).isSome
  btbGetInst := fun _ _ addr => (known.lookup addr).map (·.1)
  numFTQEntries := 8
  fetchTargetWidth := 32
  minInstSize := 4
  maxFTPerCycle := 4
  maxTakenPredPerCycle := 1

def quiet : Signals Addr where
  fromCommit := ⟨false, 0, 0, none, false⟩
  fromDecode := ⟨false, 0, 0, false, false⟩
  fromFetch := ⟨false, 0⟩
  stalls := ⟨false, false, false⟩
  rand := 0

end Gem5Core.O3.FrontEnd
