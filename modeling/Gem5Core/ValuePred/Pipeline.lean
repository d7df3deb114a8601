import Gem5Core.Lib.Protocol
import Gem5Core.ValuePred.Pending
import Gem5Core.ValuePred.Training

/-! The three hooks of the out-of-order pipeline on the value predictor. A run is any interleaving
of their events over any number of in-flight loads. -/
namespace Gem5Core.ValuePred.Pipeline
open MarkovLVP Training

/-- The fields of a load's `DynInst` that the hooks read. `instResult` is the front of the result
queue; `predictedValue` joins `_hasPredictedValue` and `_predictedValue`. -/
structure DynInst where
  pc : Addr
  isMicroop : Bool
  isNonSpeculative : Bool
  squashed : Bool := false
  executed : Bool := false
  fault : Bool := false
  memData : Option (List (BitVec 8)) := none
  effSize : Nat := 0
  instResult : Option Word := none
  predictedValue : Option Word := none
deriving DecidableEq

/-- `memcpy` of the first bytes into a zeroed `uint64_t`, little endian. -/
def readBytes : List (BitVec 8) → Word
  | [] => 0
  | b :: rest => (readBytes rest <<< 8) ||| b.setWidth 64

def DynInst.memValue (inst : DynInst) (data : List (BitVec 8)) : Word :=
  readBytes (data.take (if 0 < inst.effSize ∧ inst.effSize ≤ 8 then inst.effSize else 8))

def DynInst.peekIntResult (inst : DynInst) : Option Word :=
  match inst.memData with
  | some data => some (inst.memValue data)
  | none => inst.instResult

structure UpdateCall where
  pc : Addr
  actualVal : Word
  wasPredicted : Bool
  predVal : Word
deriving DecidableEq

def DynInst.updateCall (inst : DynInst) (actualVal : Word) : UpdateCall :=
  ⟨inst.pc, actualVal, inst.predictedValue.isSome, inst.predictedValue.getD 0⟩

def DynInst.writebackCall (inst : DynInst) : Option UpdateCall :=
  if !inst.squashed && inst.executed && !inst.fault && !inst.isMicroop then
    inst.peekIntResult.map inst.updateCall
  else none

def DynInst.commitCall (inst : DynInst) : Option UpdateCall :=
  inst.memData.map fun data => inst.updateCall (inst.memValue data)

inductive Event where
  | rename (sn : Nat) (pc : Addr) (isMicroop isNonSpeculative : Bool)
  | dispatch (sn : Nat)
  | execute (sn : Nat) (memData : Option (List (BitVec 8))) (effSize : Nat)
      (instResult : Option Word) (fault : Bool)
  | writeback (sn : Nat)
  | squash (sn : Nat)
  | commitLoad (sn : Nat)
deriving DecidableEq

/-- What an observer of the predictor's interface sees. -/
inductive Observed where
  | update (call : UpdateCall)
  | predict (pc : Addr) (answer : Option Word)
deriving DecidableEq

/-- `observed` and `retired` are history: the interface calls so far, and the
loads committed so far with the values they read. -/
structure Machine where
  lvp : State
  insts : Nat → Option DynInst
  observed : List Observed
  retired : List (Addr × Word)

def start (p : Params) : Machine :=
  ⟨init p, fun _ => none, [], []⟩

def Machine.setInst (st : Machine) (sn : Nat) (inst : Option DynInst) : Machine :=
  { st with insts := Function.update st.insts sn inst }

def Machine.callUpdate (p : Params) (st : Machine) (c : UpdateCall) : Machine :=
  { st with
    lvp := update p st.lvp c.pc c.actualVal c.wasPredicted c.predVal
    observed := st.observed ++ [.update c] }

def Machine.callPredict (p : Params) (st : Machine) (sn : Nat) (inst : DynInst) : Machine :=
  let answer := (predict p st.lvp inst.pc).2
  { st with
    lvp := (predict p st.lvp inst.pc).1
    observed := st.observed ++ [.predict inst.pc answer]
    insts := Function.update st.insts sn
      (some { inst with predictedValue := answer.or inst.predictedValue }) }

def step (p : Params) (st : Machine) : Event → Machine
  | .rename sn pc isMicroop isNonSpeculative =>
      st.setInst sn (some { pc, isMicroop, isNonSpeculative })
  | .dispatch sn =>
      match st.insts sn with
      | none => st
      | some inst =>
          -- a squashed or non-speculative load never reaches the hook
          if inst.squashed || inst.isNonSpeculative || inst.isMicroop then st
          else st.callPredict p sn inst
  | .execute sn memData effSize instResult fault =>
      match st.insts sn with
      | none => st
      | some inst => st.setInst sn
          (some { inst with executed := true, memData, effSize, instResult, fault })
  | .writeback sn =>
      match (st.insts sn).bind DynInst.writebackCall with
      | none => st
      | some c => st.callUpdate p c
  | .squash sn =>
      match st.insts sn with
      | none => st
      | some inst => st.setInst sn (some { inst with squashed := true })
  | .commitLoad sn =>
      match st.insts sn with
      | none => st
      | some inst =>
          match inst.commitCall with
          | none => st.setInst sn none
          | some c =>
              let committed := (st.callUpdate p c).callPredict p sn inst
              { committed.setInst sn none with
                retired := committed.retired ++ [(c.pc, c.actualVal)] }

def run (p : Params) (events : List Event) : Machine :=
  Lib.Protocol.run (step p) (start p) events

theorem run_concat (p : Params) (events : List Event) (ev : Event) :
    run p (events ++ [ev]) = step p (run p events) ev := by
  simp [run, Lib.Protocol.run]

def updateOf (st : Machine) : Event → Option UpdateCall
  | .writeback sn => (st.insts sn).bind DynInst.writebackCall
  | .commitLoad sn => (st.insts sn).bind DynInst.commitCall
  | _ => none

def replay (p : Params) (retired : List (Addr × Word)) : State :=
  retired.foldl (fun s load => update p s load.1 load.2 false 0) (init p)

private theorem of_replay_concat (p : Params) (retired : List (Addr × Word)) (load : Addr × Word) :
    of (replay p (retired ++ [load])) =
      learn p (of (replay p retired)) load.1 load.2 := by
  simp only [replay, List.foldl_append, List.foldl_cons, List.foldl_nil, of_update]

/-- The event trains the predictor before the load commits. -/
def trainsEarly (st : Machine) : Event → Bool
  | .writeback sn => ((st.insts sn).bind DynInst.writebackCall).isSome
  | _ => false

def Quiet (st : Machine) (ev : Event) : Prop := trainsEarly st ev = false

instance (st : Machine) (ev : Event) : Decidable (Quiet st ev) := inferInstanceAs (Decidable (_ = _))

def TrainedAtCommit (p : Params) (st : Machine) : Prop :=
  of st.lvp = of (replay p st.retired)

theorem step_trainedAtCommit (p : Params) (st : Machine) (ev : Event)
    (hquiet : Quiet st ev) (h : TrainedAtCommit p st) :
    TrainedAtCommit p (step p st ev) := by
  unfold TrainedAtCommit at h ⊢
  cases ev with
  | rename sn pc isMicroop isNonSpeculative => exact h
  | dispatch sn =>
    simp only [step]
    split
    · exact h
    · split
      · exact h
      · simpa [Machine.callPredict] using h
  | execute sn memData effSize instResult fault =>
    simp only [step]
    split <;> exact h
  | writeback sn =>
    simp only [Quiet, trainsEarly, Option.isSome_eq_false_iff, Option.isNone_iff_eq_none] at hquiet
    simpa only [step, hquiet] using h
  | squash sn =>
    simp only [step]
    split <;> exact h
  | commitLoad sn =>
    simp only [step]
    split
    · exact h
    · split
      · exact h
      · rename_i c _
        rw [of_replay_concat]
        simp only [Machine.setInst, Machine.callPredict, Machine.callUpdate,
          of_predict, of_update, h]

/-- In every run whose writebacks all leave the predictor alone, the training
state is the one obtained from the retired loads alone. -/
theorem training_pure (p : Params) (events : List Event)
    (hquiet : Lib.Protocol.Legal (step p) Quiet (start p) events) :
    of (run p events).lvp = of (replay p (run p events).retired) :=
  Lib.Protocol.run_inv (TrainedAtCommit p) (fun st ev h hev => step_trainedAtCommit p st ev hev h)
    events rfl hquiet

def load (sn : Nat) (pc : Addr) (isMicroop : Bool) (value : BitVec 8) : List Event :=
  [.rename sn pc isMicroop false, .dispatch sn, .execute sn (some [value]) 1 none false]

/-- Microops at two PCs, and an ordinary load that is squashed before it writes back. -/
theorem training_pure_microop :
    let events := load 0 64 true 7 ++ load 1 128 false 9 ++ [.squash 1, .writeback 1] ++
      load 2 128 true 3 ++ [.writeback 0, .commitLoad 0, .writeback 2, .commitLoad 2]
    (run Params.defaults events).retired = [(64, 7), (128, 3)] ∧
      of (run Params.defaults events).lvp =
        of (replay Params.defaults (run Params.defaults events).retired) :=
  ⟨by decide, training_pure Params.defaults _ (by decide)⟩

def oneLoad (isMicroop : Bool) : List Event := load 0 64 isMicroop 7 ++ [.writeback 0, .commitLoad 0]

/-- A load that is not a microop trains at writeback and again at commit: one
retired load, but a stride is already recorded for its PC. -/
theorem training_twice :
    (run Params.defaults (oneLoad false)).retired = [(64, 7)] ∧
      of (run Params.defaults (oneLoad false)).lvp ≠
        of (replay Params.defaults (run Params.defaults (oneLoad false)).retired) := by
  refine ⟨by decide, ?_⟩
  intro h
  have hstride := congrArg (fun k => (k.vht 64).map Entry.strideValid) h
  exact absurd hstride (by decide +kernel)

end Gem5Core.ValuePred.Pipeline
