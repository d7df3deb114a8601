import Gem5Core.Lib.Protocol
import Gem5Core.ValuePred.ContextHash
import Gem5Core.ValuePred.Training

/-! The predictor with its ring replaced by a plain list of the last strides, newest first. The
predictor of the source refines it as long as the sum of write pointer and depth does not wrap. -/
namespace Gem5Core.ValuePred.PlainHistory
open Base.IntMath MarkovLVP ContextHash Lib.RingHistory Function List
open Lib.Protocol (Legal)
open Training

section

def valueOf (pc : Addr) : Call → Option Word
  | .update pc' actualVal _ _ => if pc' = pc then some actualVal else none
  | .predict _ => none

def valuesOf (pc : Addr) (calls : List Call) : List Word :=
  (calls.filterMap (valueOf pc)).reverse

def differences (values : List Word) : List Word :=
  List.zipWith (· - ·) values values.tail

theorem valuesOf_concat (pc : Addr) (calls : List Call) (call : Call) :
    valuesOf pc (calls ++ [call]) = (valueOf pc call).toList ++ valuesOf pc calls := by
  cases h : valueOf pc call <;> simp [valuesOf, h]

theorem differences_cons (v u : Word) (values : List Word) (h : values.head? = some u) :
    differences (v :: values) = (v - u) :: differences values := by
  cases values with
  | nil => cases h
  | cons w values =>
    cases h
    rfl

/-- What an entry holds after its PC was updated with `values`. -/
structure Tracks (p : Params) (values : List Word) (e : Entry) : Prop where
  valid : e.valid = true
  lastVal : values.head? = some e.lastVal
  strideValid : e.strideValid = !(differences values).isEmpty
  length : e.strides.length = p.depth
  writePtr : e.writePtr = (differences values).length % p.depth
  ring : window p.depth e.writePtr 0 e.strides = padded p.depth 0 (differences values)

variable {p : Params} {values : List Word} {e : Entry}

theorem Tracks.writePtr_lt (h : Tracks p values e) : e.writePtr < p.depth := by
  rw [h.writePtr]
  exact Nat.mod_lt _ p.contextDepth_pos

theorem Tracks.getD_slot (h : Tracks p values e) {i : Nat} (hi : i < p.depth) :
    e.strides.getD (slot p.depth e.writePtr i) 0 = (differences values).getD i 0 := by
  rw [← getD_window 0 e.strides hi, h.ring, getD_padded 0 _ hi]

private theorem tracks_first (p : Params) (v : Word) :
    Tracks p [v] ⟨List.replicate p.depth 0, v, 0, true, false⟩ where
  valid := rfl
  lastVal := rfl
  strideValid := rfl
  length := length_replicate
  writePtr := (Nat.zero_mod _).symm
  ring := (window_replicate 0).trans (padded_nil 0).symm

theorem Tracks.push (h : Tracks p values e) (v : Word) :
    Tracks p (v :: values) ⟨e.strides.set e.writePtr (v - e.lastVal), v,
      (e.writePtr + 1) % p.depth, true, true⟩ := by
  have hdiff := differences_cons v e.lastVal values h.lastVal
  constructor
  · rfl
  · rfl
  · rw [hdiff]
    rfl
  · rw [length_set, h.length]
  · rw [hdiff, h.writePtr, Nat.mod_add_mod, length_cons]
  · rw [hdiff, window_push 0 _ h.length h.writePtr_lt, h.ring, padded_push]

theorem Tracks.visited_eq (h : Tracks p values e) (hwrap : e.writePtr + p.depth ≤ 2 ^ 32) {i : Nat}
    (hi : i < p.depth) : visited p.depth e.writePtr e.strides i = (differences values).getD i 0 := by
  rw [visited_eq_newest hwrap p.contextDepth_pos, newest, h.getD_slot hi]

def Follows (p : Params) (values : List Word) : Option Entry → Prop
  | none => values = []
  | some e => Tracks p values e

theorem follows_learn (k : Knowledge) (pc : Addr) (v : Word)
    (h : Follows p values (k.vht pc)) :
    Follows p (v :: values) ((learn p k pc v).vht pc) := by
  cases he : k.vht pc with
  | none =>
    rw [he] at h
    cases h
    rw [learn_first p he]
    dsimp only
    rw [update_self]
    exact tracks_first p v
  | some e =>
    rw [he] at h
    rw [learn_next p he (Tracks.valid h)]
    dsimp only
    rw [update_self]
    exact Tracks.push h v

theorem run_follows (p : Params) (calls : List Call) (pc : Addr) :
    Follows p (valuesOf pc calls) ((Training.of (run p calls)).vht pc) := by
  induction calls using List.reverseRecOn with
  | nil => rfl
  | append_singleton calls call ih =>
    rw [run_concat, Training.of_step, valuesOf_concat]
    cases call with
    | predict _ => exact ih
    | update pc' v wasPredicted predVal =>
      by_cases hpc : pc' = pc
      · subst hpc
        simpa [valueOf, Training.step] using follows_learn _ pc' v ih
      · simpa [valueOf, hpc, Training.step, Training.learn_vht_ne p _ (Ne.symm hpc)] using ih

theorem run_vht_isSome (p : Params) (calls : List Call) (pc : Addr) (h : valuesOf pc calls ≠ []) :
    ∃ e, (run p calls).vht pc = some e := by
  have hf := run_follows p calls pc
  cases he : (run p calls).vht pc with
  | none =>
    rw [of_vht, he] at hf
    exact absurd hf h
  | some e => exact ⟨e, rfl⟩

theorem run_tracks (p : Params) (calls : List Call) (pc : Addr) (e : VHTEntry)
    (he : (run p calls).vht pc = some e) :
    Tracks p (valuesOf pc calls) (Entry.ofVHT e) := by
  have h := run_follows p calls pc
  rw [of_vht, he] at h
  exact h

end

/-- A `VHTEntry` without ring: `history` is the list of the last strides. -/
structure Entry where
  history : List Word := []
  lastVal : Word := 0
  valid : Bool := false
  strideValid : Bool := false
  hasPending : Bool := false
  pendingPred : Word := 0
deriving DecidableEq

structure State where
  vht : Addr → Option Entry
  markovTable : List MarkovEntry
  stats : LVPStats

def init (p : Params) : State where
  vht := fun _ => none
  markovTable := List.replicate p.tableSize.toNat {}
  stats := {}

def index (p : Params) (pc : Addr) (history : List Word) : Nat :=
  ((strideHash p.depth pc fun i => history.getD i 0).truncate 32 &&& (p.tableSize - 1)).toNat

theorem index_lt (p : Params) (pc : Addr) (history : List Word) :
    index p pc history < p.tableSize.toNat := by
  exact and_sub_one_lt _ p.tableSize_pos

def predict (p : Params) (s : State) (pc : Addr) : State × Option Word :=
  match s.vht pc with
  | none => ({ s with stats := { s.stats with noHistory := s.stats.noHistory + 1 } }, none)
  | some e =>
    if !e.valid then
      ({ s with stats := { s.stats with noHistory := s.stats.noHistory + 1 } }, none)
    else if !e.strideValid then
      ({ s with stats := { s.stats with noStride := s.stats.noStride + 1 } }, none)
    else
      let mEntry := s.markovTable.getD (index p pc e.history) {}
      if !mEntry.valid || mEntry.confidence.toNat < p.confThreshold.toNat then
        ({ s with stats := { s.stats with lowConfidence := s.stats.lowConfidence + 1 } }, none)
      else
        let predVal := e.lastVal + mEntry.predictedStride
        ({ s with
            vht := Function.update s.vht pc
              (some { e with hasPending := true, pendingPred := predVal })
            stats := { s.stats with predicted := s.stats.predicted + 1 } },
          some predVal)

def update (p : Params) (s : State) (pc : Addr) (actualVal : Word) : State :=
  let stats := { s.stats with totalLoads := s.stats.totalLoads + 1 }
  let e := (s.vht pc).getD {}
  if !e.valid then
    { s with
      vht := Function.update s.vht pc (some { e with
        history := List.replicate p.depth 0, valid := true, strideValid := false,
        hasPending := false, lastVal := actualVal })
      stats := stats }
  else
    let stride := actualVal - e.lastVal
    let mIdx := index p pc e.history
    { vht := Function.update s.vht pc (some { e with
        hasPending := false, history := (stride :: e.history).take p.depth,
        strideValid := true, lastVal := actualVal })
      markovTable :=
        if e.strideValid then
          s.markovTable.set mIdx ((s.markovTable.getD mIdx {}).train p.maxConf stride)
        else s.markovTable
      stats := checkPending stats
        { hasPending := e.hasPending, pendingPred := e.pendingPred } actualVal }

def step (p : Params) (s : State) : Call → State
  | .update pc actualVal _ _ => update p s pc actualVal
  | .predict pc => (predict p s pc).1

def run (p : Params) (calls : List Call) : State := calls.foldl (step p) (init p)

section

def Entry.ofVHT (p : Params) (e : VHTEntry) : Entry where
  history := window p.depth e.writePtr 0 e.strides
  lastVal := e.lastVal
  valid := e.valid
  strideValid := e.strideValid
  hasPending := e.hasPending
  pendingPred := e.pendingPred

def plain (p : Params) (s : MarkovLVP.State) : State where
  vht := Option.map (Entry.ofVHT p) ∘ s.vht
  markovTable := s.markovTable
  stats := s.stats

/-- Every entry is valid and its ring has the size of the context. -/
def WellFormed (p : Params) (s : MarkovLVP.State) : Prop :=
  ∀ pc e, s.vht pc = some e →
    e.valid = true ∧ e.strides.length = p.depth ∧ e.writePtr < p.depth

theorem run_wellFormed (p : Params) (calls : List Call) :
    WellFormed p (MarkovLVP.run p calls) := by
  intro pc e he
  have h := run_tracks p calls pc e he
  exact ⟨h.valid, h.length, h.writePtr_lt⟩

def callPC : Call → Addr
  | .update pc _ _ _ => pc
  | .predict pc => pc

/-- The ring that the call hashes is one whose slots do not wrap. -/
def Unwrapped (p : Params) (s : MarkovLVP.State) (call : Call) : Prop :=
  ∀ e ∈ s.vht (callPC call), e.writePtr + p.depth ≤ 2 ^ 32

instance (p : Params) (s : MarkovLVP.State) : DecidablePred (Unwrapped p s) := fun call =>
  inferInstanceAs (Decidable (∀ e ∈ s.vht (callPC call), e.writePtr + p.depth ≤ 2 ^ 32))

variable {p : Params}

theorem hashContext_eq_index (pc : Addr) {e : VHTEntry} (h : e.writePtr + p.depth ≤ 2 ^ 32) :
    hashContext p pc e = index p pc (Entry.ofVHT p e).history := by
  rw [hashContext_eq_rawHash, rawHash_eq_strideHash pc h, index]
  rw [strideHash_congr p.depth pc fun i hi => ?_]
  rw [context, newest, Entry.ofVHT, getD_window 0 e.strides hi]

theorem plain_predict {s : MarkovLVP.State} (h : WellFormed p s) (pc : Addr)
    (hwrap : Unwrapped p s (.predict pc)) :
    predict p (plain p s) pc =
      (plain p (MarkovLVP.predict p s pc).1, (MarkovLVP.predict p s pc).2) := by
  have hvht : (plain p s).vht pc = (s.vht pc).map (Entry.ofVHT p) := rfl
  unfold predict MarkovLVP.predict
  rw [hvht]
  cases he : s.vht pc with
  | none => rfl
  | some e =>
    obtain ⟨hv, _, _⟩ := h pc e he
    have hm : (plain p s).markovTable.getD (index p pc (Entry.ofVHT p e).history) {} =
        consulted p s pc e := by
      rw [consulted, hashContext_eq_index pc (hwrap e he)]
      rfl
    simp only [Option.map_some]
    rw [hm]
    simp only [Entry.ofVHT, hv]
    cases e.strideValid with
    | false => rfl
    | true =>
      simp only [Bool.not_true, Bool.false_eq_true, if_false]
      split
      · rfl
      · simp [plain, comp_update, Entry.ofVHT]

theorem plain_update {s : MarkovLVP.State} (h : WellFormed p s) {pc : Addr} {actualVal : Word}
    {wasPredicted : Bool} {predVal : Word}
    (hwrap : Unwrapped p s (.update pc actualVal wasPredicted predVal)) :
    update p (plain p s) pc actualVal =
      plain p (MarkovLVP.update p s pc actualVal wasPredicted predVal) := by
  have hvht : (plain p s).vht pc = (s.vht pc).map (Entry.ofVHT p) := rfl
  unfold update MarkovLVP.update
  rw [hvht]
  cases he : s.vht pc with
  | none =>
    simp [plain, comp_update, Entry.ofVHT, window_replicate]
  | some e =>
    obtain ⟨hv, hlen, hw⟩ := h pc e he
    have hpush := window_push (0#64) (actualVal - e.lastVal) hlen hw
    have hidx := hashContext_eq_index pc (hwrap e he)
    simp only [Option.map_some, Option.getD_some, consulted, hidx]
    simp [plain, comp_update, Entry.ofVHT, hv, hpush, checkPending]

theorem plain_step {s : MarkovLVP.State} (h : WellFormed p s) {call : Call}
    (hwrap : Unwrapped p s call) : step p (plain p s) call = plain p (MarkovLVP.step p s call) := by
  cases call with
  | update pc actualVal wasPredicted predVal => exact plain_update h hwrap
  | predict pc => exact congrArg Prod.fst (plain_predict h pc hwrap)

theorem plain_run (before calls : List Call)
    (hl : Legal (MarkovLVP.step p) (Unwrapped p) (MarkovLVP.run p before) calls) :
    calls.foldl (step p) (plain p (MarkovLVP.run p before)) =
      plain p (MarkovLVP.run p (before ++ calls)) := by
  induction calls generalizing before with
  | nil => rw [append_nil, foldl_nil]
  | cons call calls ih =>
    rw [foldl_cons, plain_step (run_wellFormed p before) hl.1, ← run_concat,
      ih (before ++ [call]) (by rw [run_concat]; exact hl.2), append_assoc,
      singleton_append]

end

/-- What the hash loop visits of a ring is the history, newest first and padded with zeros; every
slot exists, and none is visited twice. -/
structure Visits (p : Params) (history : List Word) (e : VHTEntry) : Prop where
  strides : (List.range p.depth).map (visited p.depth e.writePtr e.strides) =
    padded p.depth 0 history
  inRange : ∀ i < p.depth, contextSlot p.depth e.writePtr i < e.strides.length
  once : ∀ i < p.depth, ∀ j < p.depth,
    contextSlot p.depth e.writePtr i = contextSlot p.depth e.writePtr j → i = j

theorem visits_iff {p : Params} {values : List Word} {e : VHTEntry}
    (h : Tracks p values (Training.Entry.ofVHT e)) :
    Visits p (differences values) e ↔ e.writePtr + p.depth ≤ 2 ^ 32 := by
  have hw : e.writePtr < p.depth := h.writePtr_lt
  constructor
  · intro hvisits
    by_contra hwrap
    have hd := p.depth_lt
    -- slot zero is met where the sum wraps and again where the ring begins
    have hfirst : contextSlot p.depth e.writePtr (e.writePtr + p.depth - 1 - 2 ^ 32) = 0 := by
      rw [contextSlot_eq hd hw (by omega), if_pos (by omega)]
      omega
    have hlast : contextSlot p.depth e.writePtr (e.writePtr - 1) = 0 := by
      rw [contextSlot_eq hd hw (by omega), if_neg (by omega), slot_eq hw (by omega),
        if_pos (by omega)]
      omega
    have hsame := hvisits.once _ (by omega) _ (by omega) (hfirst.trans hlast.symm)
    omega
  · intro hwrap
    have hslot (i : Nat) := contextSlot_eq_slot hwrap i p.contextDepth_pos
    have hlen : e.strides.length = p.depth := h.length
    constructor
    · rw [visited_eq_newest hwrap p.contextDepth_pos]
      exact h.ring
    · intro i _
      rw [hslot, hlen]
      exact slot_lt hw i
    · intro i hi j hj heq
      rw [hslot, hslot] at heq
      exact slot_injective hw hi hj heq

/-- The ring is a plain history: the hash loop visits the last differences of the
PC's values, newest first, each slot once, exactly when its slots do not wrap; and over
every run in which they do not, the predictor takes the same decisions as the one
that keeps a list. -/
theorem ring_refines_list (p : Params) (calls : List Call) :
    (∀ pc, ∀ e ∈ (MarkovLVP.run p calls).vht pc,
      (Visits p (differences (valuesOf pc calls)) e ↔ e.writePtr + p.depth ≤ 2 ^ 32)) ∧
    (Legal (MarkovLVP.step p) (Unwrapped p) (MarkovLVP.init p) calls →
      plain p (MarkovLVP.run p calls) = run p calls ∧
      ∀ pc, Unwrapped p (MarkovLVP.run p calls) (.predict pc) →
        (MarkovLVP.predict p (MarkovLVP.run p calls) pc).2 = (predict p (run p calls) pc).2) := by
  refine ⟨fun pc e he => visits_iff (run_tracks p calls pc e he), fun hl => ?_⟩
  have hrun : run p calls = plain p (MarkovLVP.run p calls) := plain_run [] calls hl
  refine ⟨hrun.symm, fun pc hwrap => ?_⟩
  rw [hrun, plain_predict (run_wellFormed p calls) pc hwrap]

/-- A ring of two strides, written four times. -/
theorem ring_refines_list_turns :
    let two := Params.defaults.withDepth 2 (by decide)
    let calls := [5, 8, 11, 19, 27].map fun v => Call.update 64 v false 0
    plain two (MarkovLVP.run two calls) = run two calls :=
  ((ring_refines_list _ _).2 (by decide +kernel)).1

/-- Enough zeros to bring the write pointer to the last slot, then a one. -/
def stepAtEnd : List Call :=
  List.replicate (2 ^ 31) (.update 0 0 false 0) ++ [.update 0 1 false 0]

private theorem differences_replicate (n : Nat) (v : Word) :
    differences (List.replicate (n + 1) v) = List.replicate n 0 := by
  rw [differences, replicate_succ, tail_cons, ← replicate_succ,
    zipWith_replicate, BitVec.sub_self, Nat.min_eq_right (Nat.le_succ n)]
  rfl

private theorem differences_stepAtEnd :
    differences (valuesOf 0 stepAtEnd) = 1 :: List.replicate (2 ^ 31 - 1) 0 := by
  have hzeros : valuesOf 0 (List.replicate (2 ^ 31) (.update 0 0 false 0)) =
      List.replicate (2 ^ 31 - 1 + 1) 0 := by
    have hv : valueOf 0 (.update 0 0 false 0) = some 0 := rfl
    rw [valuesOf, filterMap_replicate_of_some hv, reverse_replicate,
      Nat.sub_add_cancel (by decide)]
  rw [stepAtEnd, valuesOf_concat, hzeros]
  change differences (1 :: List.replicate (2 ^ 31 - 1 + 1) 0) = _
  rw [differences_cons 1 0 _ rfl, differences_replicate]
  rfl

/-- At a depth above `2 ^ 31` the loop reads the oldest stride in place of the
newest, and meets that slot a second time. -/
theorem newest_stride_missed :
    ∃ calls e, (MarkovLVP.run deep calls).vht 0 = some e ∧
      visited deep.depth e.writePtr e.strides 0 ≠
        (padded deep.depth 0 (differences (valuesOf 0 calls))).getD 0 0 ∧
      contextSlot deep.depth e.writePtr 0 = contextSlot deep.depth e.writePtr (2 ^ 31 - 1) := by
  obtain ⟨e, he⟩ := run_vht_isSome deep stepAtEnd 0 fun h => by
    have hdiff := differences_stepAtEnd
    rw [h] at hdiff
    cases hdiff
  have h := run_tracks deep stepAtEnd 0 e he
  have hw : e.writePtr = 2 ^ 31 := by
    have hlen := h.writePtr
    rw [differences_stepAtEnd, List.length_cons, List.length_replicate] at hlen
    exact hlen
  have hslot : slot deep.depth e.writePtr (2 ^ 31 - 1) = 0 := by
    rw [hw]
    rfl
  have hlast : e.strides.getD (slot deep.depth e.writePtr (2 ^ 31 - 1)) 0 =
      (differences (valuesOf 0 stepAtEnd)).getD (2 ^ 31 - 1) 0 := h.getD_slot (by decide)
  have hfirst : contextSlot deep.depth e.writePtr 0 = 0 := by
    rw [hw]
    rfl
  rw [hslot] at hlast
  refine ⟨stepAtEnd, e, he, ?_, ?_⟩
  · rw [visited, hfirst, hlast, differences_stepAtEnd, show 2 ^ 31 - 1 = 2 ^ 31 - 2 + 1 from rfl,
      List.getD_cons_succ, List.getD_replicate _ (by decide)]
    decide
  · rw [hw]
    rfl

end Gem5Core.ValuePred.PlainHistory
