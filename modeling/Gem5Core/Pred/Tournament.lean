import Gem5Core.Base.IntMath
import Gem5Core.Lib.ShiftRegister
import Gem5Core.Pred.Branch

/-! `TournamentBP`: a local predictor over a table of branch histories, a global predictor over one
history register, and a choice between the two. -/
namespace Gem5Core.Pred.Tournament
open Branch Base.IntMath Lib.ShiftRegister Function

structure Params where
  localPredictorSize : Unsigned
  localCtrBits : Nat
  localHistoryTableSize : Unsigned
  globalPredictorSize : Unsigned
  globalCtrBits : Nat
  choicePredictorSize : Unsigned
  choiceCtrBits : Nat
  instShiftAmt : Nat
  localPredictorSize_pow : isPowerOf2 localPredictorSize = true
  localHistoryTableSize_pow : isPowerOf2 localHistoryTableSize = true
  globalPredictorSize_pow : isPowerOf2 globalPredictorSize = true
  choicePredictorSize_pow : isPowerOf2 choicePredictorSize = true

def Params.defaults : Params where
  localPredictorSize := 2048
  localCtrBits := 2
  localHistoryTableSize := 2048
  globalPredictorSize := 8192
  globalCtrBits := 2
  choicePredictorSize := 8192
  choiceCtrBits := 2
  instShiftAmt := 2
  localPredictorSize_pow := by decide
  localHistoryTableSize_pow := by decide
  globalPredictorSize_pow := by decide
  choicePredictorSize_pow := by decide

def increment (bits counter : Nat) : Nat := if counter < 2 ^ bits - 1 then counter + 1 else counter

def decrement (counter : Nat) : Nat := if 0 < counter then counter - 1 else counter

/-- The flag for branches that have no local history, `-1` as an `unsigned`. -/
def invalidPredictorIndex : Unsigned := BitVec.allOnes 32

structure BPHistory where
  globalHistory : Unsigned
  localHistoryIdx : Unsigned
  localHistory : Unsigned
  localPredTaken : Bool
  globalPredTaken : Bool
  globalUsed : Bool
deriving DecidableEq

structure State where
  localCtrs : Nat → Nat := fun _ => 0
  localHistoryTable : Nat → Unsigned := fun _ => 0
  globalCtrs : Nat → Nat := fun _ => 0
  globalHistory : ThreadID → Unsigned := fun _ => 0
  choiceCtrs : Nat → Nat := fun _ => 0
  asserted : Bool := true

def State.check (s : State) (condition : Bool) : State :=
  { s with asserted := s.asserted && condition }

variable (p : Params)

def localHistoryBits : Nat := ceilLog2 p.localPredictorSize

def globalHistoryBits : Nat :=
  if ceilLog2 p.globalPredictorSize > ceilLog2 p.choicePredictorSize then
    ceilLog2 p.globalPredictorSize
  else ceilLog2 p.choicePredictorSize

def localPredictorMask : Unsigned := mask 32 (localHistoryBits p)

def globalHistoryMask : Unsigned := p.globalPredictorSize - 1

def choiceHistoryMask : Unsigned := p.choicePredictorSize - 1

def historyRegisterMask : Unsigned := mask 32 (globalHistoryBits p)

def localThreshold : Nat := 2 ^ (p.localCtrBits - 1) - 1

def globalThreshold : Nat := 2 ^ (p.globalCtrBits - 1) - 1

def choiceThreshold : Nat := 2 ^ (p.choiceCtrBits - 1) - 1

def calcLocHistIdx (branch_addr : Addr) : Unsigned :=
  (branch_addr >>> p.instShiftAmt).setWidth 32 &&& (p.localHistoryTableSize - 1)

def updateGlobalHist (s : State) (tid : ThreadID) (taken : Bool) : State :=
  { s with
    globalHistory := update s.globalHistory tid
      (push (s.globalHistory tid) taken &&& historyRegisterMask p) }

def updateLocalHist (s : State) (local_history_idx : Unsigned) (taken : Bool) : State :=
  { s with
    localHistoryTable := update s.localHistoryTable local_history_idx.toNat
      (push (s.localHistoryTable local_history_idx.toNat) taken) }

structure Reads where
  localCtr : Unsigned
  globalCtr : Unsigned
  choiceCtr : Unsigned

def reads (s : State) (tid : ThreadID) (pc : Addr) : Reads where
  localCtr := s.localHistoryTable (calcLocHistIdx p pc).toNat &&& localPredictorMask p
  globalCtr := s.globalHistory tid &&& globalHistoryMask p
  choiceCtr := s.globalHistory tid &&& choiceHistoryMask p

def lookup (s : State) (tid : ThreadID) (pc : Addr) : Bool × State × BPHistory :=
  let local_history_idx := calcLocHistIdx p pc
  let read := reads p s tid pc
  let local_prediction := decide (s.localCtrs read.localCtr.toNat > localThreshold p)
  let global_prediction := decide (globalThreshold p < s.globalCtrs read.globalCtr.toNat)
  let choice_prediction := decide (choiceThreshold p < s.choiceCtrs read.choiceCtr.toNat)
  (if choice_prediction then global_prediction else local_prediction,
    s.check (decide (local_history_idx < p.localHistoryTableSize)),
    { globalHistory := s.globalHistory tid
      localPredTaken := local_prediction
      globalPredTaken := global_prediction
      globalUsed := choice_prediction
      localHistoryIdx := local_history_idx
      localHistory := read.localCtr })

def uncondHistory (s : State) (tid : ThreadID) : BPHistory where
  globalHistory := s.globalHistory tid
  localPredTaken := true
  globalPredTaken := true
  globalUsed := true
  localHistoryIdx := invalidPredictorIndex
  localHistory := invalidPredictorIndex

def updateHistories (s : State) (tid : ThreadID) (uncond taken : Bool)
    (bp_history : Option BPHistory) : State × Option BPHistory :=
  let s := s.check (uncond || bp_history.isSome)
  if uncond then (updateGlobalHist p s tid taken, some (uncondHistory s tid))
  else
    match bp_history with
    | none => (updateGlobalHist p s tid taken, none)
    | some history =>
        (updateLocalHist (updateGlobalHist p s tid taken) history.localHistoryIdx taken,
          some history)

def correct (s : State) (tid : ThreadID) (pc : Addr) (taken : Bool) (history : BPHistory) : State :=
  let s :=
    { s with
      globalHistory := update s.globalHistory tid
        (push history.globalHistory taken &&& historyRegisterMask p) }
  if history.localHistory ≠ invalidPredictorIndex then
    { s with
      localHistoryTable := update s.localHistoryTable (calcLocHistIdx p pc).toNat
        (push history.localHistory taken) }
  else s

def trainChoice (s : State) (taken : Bool) (history : BPHistory) : State :=
  if history.localPredTaken ≠ history.globalPredTaken ∧
      history.localHistory ≠ invalidPredictorIndex then
    let idx := (history.globalHistory &&& choiceHistoryMask p).toNat
    if history.localPredTaken = taken then
      { s with choiceCtrs := update s.choiceCtrs idx (decrement (s.choiceCtrs idx)) }
    else if history.globalPredTaken = taken then
      { s with
        choiceCtrs := update s.choiceCtrs idx
          (increment p.choiceCtrBits (s.choiceCtrs idx)) }
    else s
  else s

def count (bits : Nat) (taken : Bool) (counter : Nat) : Nat :=
  if taken then increment bits counter else decrement counter

def train (s : State) (taken : Bool) (history : BPHistory) : State :=
  let old_local_pred_index := (history.localHistory &&& localPredictorMask p).toNat
  let s := s.check (decide (old_local_pred_index < p.localPredictorSize.toNat))
  let s := trainChoice p s taken history
  let global_predictor_idx := (history.globalHistory &&& globalHistoryMask p).toNat
  let s :=
    { s with
      globalCtrs := update s.globalCtrs global_predictor_idx
        (count p.globalCtrBits taken (s.globalCtrs global_predictor_idx)) }
  if history.localHistory ≠ invalidPredictorIndex then
    { s with
      localCtrs := update s.localCtrs old_local_pred_index
        (count p.localCtrBits taken (s.localCtrs old_local_pred_index)) }
  else s

def update (s : State) (tid : ThreadID) (pc : Addr) (taken : Bool)
    (bp_history : Option BPHistory) (squashed : Bool) : State × Option BPHistory :=
  match bp_history with
  | none => (s.check false, none)
  | some history =>
      let s := s.check (decide (calcLocHistIdx p pc < p.localHistoryTableSize))
      if squashed then (correct p s tid pc taken history, some history)
      else (train p s taken history, none)

def squash (s : State) (tid : ThreadID) (bp_history : Option BPHistory) :
    State × Option BPHistory :=
  match bp_history with
  | none => (s.check false, none)
  | some history =>
      let s :=
        { s with
          globalHistory := Function.update s.globalHistory tid history.globalHistory }
      (if history.localHistoryIdx ≠ invalidPredictorIndex then
        { s with
          localHistoryTable := Function.update s.localHistoryTable
            history.localHistoryIdx.toNat history.localHistory }
      else s, none)

end Gem5Core.Pred.Tournament
