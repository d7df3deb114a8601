import Gem5Core.Base.IntMath
import Mathlib.Data.BitVec

/-! The Markov load value predictor of `cpu/markov_lvp.cc`: a per-PC value history table whose
recent strides index a shared table of stride entries. -/
namespace Gem5Core.ValuePred.MarkovLVP
open Base.IntMath

abbrev Addr := BitVec 64
abbrev Word := BitVec 64

/-- The parameters of `MarkovLVP.py`, restricted by the two constructor
assertions. The confidence parameters are unchecked there and here. -/
structure Params where
  tableSize : Unsigned
  contextDepth : Unsigned
  confThreshold : Unsigned
  maxConf : Unsigned
  tableSize_pow : isPowerOf2 tableSize = true
  contextDepth_pos : 1 ≤ contextDepth.toNat

namespace Params

def depth (p : Params) : Nat := p.contextDepth.toNat

theorem depth_lt (p : Params) : p.depth < 2 ^ 32 := p.contextDepth.isLt

theorem tableSize_pos (p : Params) : 0 < p.tableSize.toNat := isPowerOf2_pos p.tableSize_pow

def withThreshold (p : Params) (threshold : Unsigned) : Params :=
  { p with confThreshold := threshold }

def withDepth (p : Params) (contextDepth : Unsigned) (h : 1 ≤ contextDepth.toNat) : Params :=
  { p with contextDepth, contextDepth_pos := h }

def defaults : Params where
  tableSize := 4096
  contextDepth := 1
  confThreshold := 1
  maxConf := 15
  tableSize_pow := by decide
  contextDepth_pos := by decide

end Params

structure VHTEntry where
  strides : List Word := []
  lastVal : Word := 0
  writePtr : Nat := 0
  valid : Bool := false
  strideValid : Bool := false
  hasPending : Bool := false
  pendingPred : Word := 0
deriving DecidableEq

structure MarkovEntry where
  predictedStride : Word := 0
  confidence : BitVec 8 := 0
  valid : Bool := false
deriving DecidableEq

structure LVPStats where
  totalLoads : Nat := 0
  predicted : Nat := 0
  correct : Nat := 0
  incorrect : Nat := 0
  noHistory : Nat := 0
  noStride : Nat := 0
  lowConfidence : Nat := 0
  pendingChecked : Nat := 0
deriving DecidableEq

/-- `vht` is the `unordered_map`; a key that was never touched is `none`. -/
structure State where
  vht : Addr → Option VHTEntry
  markovTable : List MarkovEntry
  stats : LVPStats

def init (p : Params) : State where
  vht := fun _ => none
  markovTable := List.replicate p.tableSize.toNat {}
  stats := {}

/-- Ring slot visited by iteration `i` of the loop in `hashContext`; the sum is `unsigned`. -/
def contextSlot (depth writePtr i : Nat) : Nat :=
  (writePtr + depth - 1 - i) % 2 ^ 32 % depth

def hashStep (depth writePtr : Nat) (strides : List Word) (h : Word) (i : Nat) : Word :=
  let mixed := h ^^^ (strides.getD (contextSlot depth writePtr i) 0 * 2654435761#64)
  (mixed <<< 5) ||| (mixed >>> 59)

def contextHash (depth writePtr : Nat) (strides : List Word) (pc : Addr) : Word :=
  (List.range depth).foldl (hashStep depth writePtr strides) (pc ^^^ (pc >>> 32))

def hashContext (p : Params) (pc : Addr) (entry : VHTEntry) : Nat :=
  ((contextHash p.depth entry.writePtr entry.strides pc).truncate 32 &&&
    (p.tableSize - 1)).toNat

variable (p : Params)

theorem hashContext_lt (pc : Addr) (entry : VHTEntry) :
    hashContext p pc entry < p.tableSize.toNat := by
  unfold hashContext
  exact and_sub_one_lt _ p.tableSize_pos

def consulted (p : Params) (s : State) (pc : Addr) (vEntry : VHTEntry) : MarkovEntry :=
  s.markovTable.getD (hashContext p pc vEntry) {}

/-- `none` is the return value `false`; `some v` is `true` with `predVal = v`. -/
def predict (p : Params) (s : State) (pc : Addr) : State × Option Word :=
  match s.vht pc with
  | none => ({ s with stats := { s.stats with noHistory := s.stats.noHistory + 1 } }, none)
  | some vEntry =>
    if !vEntry.valid then
      ({ s with stats := { s.stats with noHistory := s.stats.noHistory + 1 } }, none)
    else if !vEntry.strideValid then
      ({ s with stats := { s.stats with noStride := s.stats.noStride + 1 } }, none)
    else
      let mEntry := consulted p s pc vEntry
      if !mEntry.valid || mEntry.confidence.toNat < p.confThreshold.toNat then
        ({ s with stats := { s.stats with lowConfidence := s.stats.lowConfidence + 1 } }, none)
      else
        let predVal := vEntry.lastVal + mEntry.predictedStride
        ({ s with
            vht := Function.update s.vht pc
              (some { vEntry with hasPending := true, pendingPred := predVal })
            stats := { s.stats with predicted := s.stats.predicted + 1 } },
          some predVal)

variable (s : State)

theorem predict_cases (pc : Addr) :
    ((∀ e, s.vht pc = some e → e.valid = false) ∧ predict p s pc =
      ({ s with stats := { s.stats with noHistory := s.stats.noHistory + 1 } }, none)) ∨
    (∃ e, s.vht pc = some e ∧ e.valid = true ∧ e.strideValid = false ∧ predict p s pc =
      ({ s with stats := { s.stats with noStride := s.stats.noStride + 1 } }, none)) ∨
    (∃ e, s.vht pc = some e ∧ e.valid = true ∧ e.strideValid = true ∧
      ((consulted p s pc e).valid = false ∨
        (consulted p s pc e).confidence.toNat < p.confThreshold.toNat) ∧ predict p s pc =
      ({ s with stats := { s.stats with lowConfidence := s.stats.lowConfidence + 1 } }, none)) ∨
    (∃ e, s.vht pc = some e ∧ e.valid = true ∧ e.strideValid = true ∧
      (consulted p s pc e).valid = true ∧
      p.confThreshold.toNat ≤ (consulted p s pc e).confidence.toNat ∧ predict p s pc =
      ({ s with
          vht := Function.update s.vht pc (some { e with
            hasPending := true
            pendingPred := e.lastVal + (consulted p s pc e).predictedStride })
          stats := { s.stats with predicted := s.stats.predicted + 1 } },
        some (e.lastVal + (consulted p s pc e).predictedStride))) := by
  unfold predict
  cases he : s.vht pc with
  | none => exact .inl ⟨by simp, rfl⟩
  | some e =>
    cases hv : e.valid with
    | false => exact .inl ⟨by simp [hv], by simp [hv]⟩
    | true =>
      cases hs : e.strideValid with
      | false => exact .inr (.inl ⟨e, rfl, hv, hs, by simp [hv, hs]⟩)
      | true =>
        by_cases hm : (consulted p s pc e).valid = false ∨
            (consulted p s pc e).confidence.toNat < p.confThreshold.toNat
        · refine .inr (.inr (.inl ⟨e, rfl, hv, hs, hm, ?_⟩))
          dsimp only
          rw [if_neg (by simp [hv]), if_neg (by simp [hs]), if_pos (by simpa using hm)]
        · have hmiss := hm
          simp only [not_or, Bool.not_eq_false, Nat.not_lt] at hm
          refine .inr (.inr (.inr ⟨e, rfl, hv, hs, hm.1, hm.2, ?_⟩))
          dsimp only
          rw [if_neg (by simp [hv]), if_neg (by simp [hs]), if_neg (by simpa using hmiss)]

/-- The three-way table update of `update`. The counter is a `uint8_t`, so
both the increment and the decrement are 8-bit. -/
def MarkovEntry.train (maxConf : Unsigned) (mEntry : MarkovEntry) (stride : Word) :
    MarkovEntry :=
  if !mEntry.valid then
    { predictedStride := stride, confidence := 1, valid := true }
  else if stride = mEntry.predictedStride then
    if mEntry.confidence.toNat < maxConf.toNat then
      { mEntry with confidence := mEntry.confidence + 1 }
    else mEntry
  else
    let confidence :=
      if 0 < mEntry.confidence.toNat then mEntry.confidence - 1 else mEntry.confidence
    if confidence = 0 then
      { mEntry with predictedStride := stride, confidence := 1 }
    else { mEntry with confidence := confidence }

def checkPending (stats : LVPStats) (vEntry : VHTEntry) (actualVal : Word) : LVPStats :=
  if vEntry.hasPending then
    if actualVal = vEntry.pendingPred then
      { stats with
        pendingChecked := stats.pendingChecked + 1, correct := stats.correct + 1 }
    else
      { stats with
        pendingChecked := stats.pendingChecked + 1, incorrect := stats.incorrect + 1 }
  else stats

/-- `update` of the source. Its last two parameters are never read there. -/
def update (p : Params) (s : State) (pc : Addr) (actualVal : Word)
    (_wasPredicted : Bool) (_predVal : Word) : State :=
  let stats := { s.stats with totalLoads := s.stats.totalLoads + 1 }
  let vEntry := (s.vht pc).getD {}
  if !vEntry.valid then
    { s with
      vht := Function.update s.vht pc (some { vEntry with
        strides := List.replicate p.depth 0, writePtr := 0, valid := true,
        strideValid := false, hasPending := false, lastVal := actualVal })
      stats := stats }
  else
    let stride := actualVal - vEntry.lastVal
    let mIdx := hashContext p pc vEntry
    { vht := Function.update s.vht pc (some { vEntry with
        hasPending := false,
        strides := vEntry.strides.set vEntry.writePtr stride,
        writePtr := (vEntry.writePtr + 1) % p.depth,
        strideValid := true, lastVal := actualVal })
      markovTable :=
        if vEntry.strideValid then
          s.markovTable.set mIdx ((consulted p s pc vEntry).train p.maxConf stride)
        else s.markovTable
      stats := checkPending stats vEntry actualVal }

theorem checkPending_frame (stats : LVPStats) (vEntry : VHTEntry) (actualVal : Word) :
    checkPending stats vEntry actualVal = { stats with
      pendingChecked := (checkPending stats vEntry actualVal).pendingChecked
      correct := (checkPending stats vEntry actualVal).correct
      incorrect := (checkPending stats vEntry actualVal).incorrect } := by
  unfold checkPending
  split
  · split <;> rfl
  · rfl

theorem update_stats (pc : Addr) (actualVal : Word) (wasPredicted : Bool) (predVal : Word) :
    (update p s pc actualVal wasPredicted predVal).stats =
      let stats := { s.stats with totalLoads := s.stats.totalLoads + 1 }
      if ((s.vht pc).getD {}).valid then
        checkPending stats ((s.vht pc).getD {}) actualVal
      else stats := by
  unfold update
  dsimp only
  cases ((s.vht pc).getD {}).valid <;> rfl

theorem update_vht_ne {pc other : Addr} (h : other ≠ pc) (actualVal : Word) (wasPredicted : Bool)
    (predVal : Word) : (update p s pc actualVal wasPredicted predVal).vht other = s.vht other := by
  unfold update
  dsimp only
  split <;> exact Function.update_of_ne h _ _

theorem update_vht_self (pc : Addr) (actualVal : Word) (wasPredicted : Bool) (predVal : Word) :
    ∃ e, (update p s pc actualVal wasPredicted predVal).vht pc = some e ∧
      e.valid = true ∧ e.hasPending = false := by
  unfold update
  dsimp only
  split
  · exact ⟨_, Function.update_self .., rfl, rfl⟩
  · rename_i hvalid
    exact ⟨_, Function.update_self .., by simpa using hvalid, rfl⟩

@[simp] theorem update_length (pc : Addr) (actualVal : Word) (wasPredicted : Bool) (predVal : Word) :
    (update p s pc actualVal wasPredicted predVal).markovTable.length =
      s.markovTable.length := by
  unfold update
  dsimp only
  split
  · rfl
  · split
    · rw [List.length_set]
    · rfl

@[simp] theorem predict_markovTable (pc : Addr) :
    (predict p s pc).1.markovTable = s.markovTable := by
  rcases predict_cases p s pc with ⟨_, h⟩ | ⟨e, _, _, _, h⟩ | ⟨e, _, _, _, _, h⟩ |
    ⟨e, _, _, _, _, _, h⟩ <;> rw [h]

inductive Call where
  | update (pc : Addr) (actualVal : Word) (wasPredicted : Bool) (predVal : Word)
  | predict (pc : Addr)
deriving DecidableEq

def step (p : Params) (s : State) : Call → State
  | .update pc actualVal wasPredicted predVal => update p s pc actualVal wasPredicted predVal
  | .predict pc => (predict p s pc).1

def run (p : Params) (calls : List Call) : State :=
  calls.foldl (step p) (init p)

@[simp] theorem run_nil : run p [] = init p := rfl

@[simp] theorem run_concat (calls : List Call) (call : Call) :
    run p (calls ++ [call]) = step p (run p calls) call := by
  simp [run]

theorem run_induction {motive : State → Prop} (start : motive (init p))
    (keep : ∀ s call, motive s → motive (step p s call)) (calls : List Call) :
    motive (run p calls) := by
  induction calls using List.reverseRecOn with
  | nil => exact start
  | append_singleton calls call ih =>
    rw [run_concat]
    exact keep _ _ ih

theorem run_length (calls : List Call) : (run p calls).markovTable.length = p.tableSize.toNat := by
  apply run_induction p (motive := fun s => s.markovTable.length = p.tableSize.toNat)
  · simp [init]
  · intro s call ih
    cases call with
    | update pc actualVal wasPredicted predVal => simpa [step] using ih
    | predict pc => simpa [step] using ih

end Gem5Core.ValuePred.MarkovLVP
