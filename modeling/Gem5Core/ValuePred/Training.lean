import Gem5Core.ValuePred.MarkovLVP

/-! What the Markov predictor learns, apart from its pending slots and its statistics. `learn` is
the abstract training step that `update` refines. -/
namespace Gem5Core.ValuePred.Training
open Base.IntMath MarkovLVP

structure Entry where
  strides : List Word := []
  lastVal : Word := 0
  writePtr : Nat := 0
  valid : Bool := false
  strideValid : Bool := false
deriving DecidableEq

def Entry.ofVHT (e : VHTEntry) : Entry :=
  ⟨e.strides, e.lastVal, e.writePtr, e.valid, e.strideValid⟩

def Entry.index (p : Params) (pc : Addr) (e : Entry) : Nat :=
  ((contextHash p.depth e.writePtr e.strides pc).truncate 32 &&& (p.tableSize - 1)).toNat

variable (p : Params) (s : State) (pc : Addr)

@[simp] theorem Entry.index_ofVHT (e : VHTEntry) :
    (Entry.ofVHT e).index p pc = hashContext p pc e := rfl

structure Knowledge where
  vht : Addr → Option Entry
  markovTable : List MarkovEntry

def of (s : State) : Knowledge where
  vht := Option.map Entry.ofVHT ∘ s.vht
  markovTable := s.markovTable

@[simp] theorem of_markovTable : (of s).markovTable = s.markovTable := rfl

@[simp] theorem of_vht : (of s).vht pc = (s.vht pc).map Entry.ofVHT := rfl

@[simp] theorem of_stats (stats : LVPStats) : of { s with stats := stats } = of s := rfl

def learn (p : Params) (k : Knowledge) (pc : Addr) (actualVal : Word) : Knowledge :=
  let e := (k.vht pc).getD {}
  if !e.valid then
    { k with vht := Function.update k.vht pc (some
        ⟨List.replicate p.depth 0, actualVal, 0, true, false⟩) }
  else
    let stride := actualVal - e.lastVal
    let mIdx := e.index p pc
    { vht := Function.update k.vht pc (some
        ⟨e.strides.set e.writePtr stride, actualVal, (e.writePtr + 1) % p.depth, true, true⟩)
      markovTable :=
        if e.strideValid then
          k.markovTable.set mIdx ((k.markovTable.getD mIdx {}).train p.maxConf stride)
        else k.markovTable }

theorem learn_first {k : Knowledge} {pc : Addr} (h : k.vht pc = none) (actualVal : Word) :
    learn p k pc actualVal = { k with vht := Function.update k.vht pc (some
      ⟨List.replicate p.depth 0, actualVal, 0, true, false⟩) } := by
  simp [learn, h]

theorem learn_next {k : Knowledge} {pc : Addr} {e : Entry} (h : k.vht pc = some e)
    (hv : e.valid = true) (actualVal : Word) : learn p k pc actualVal =
      { vht := Function.update k.vht pc (some ⟨e.strides.set e.writePtr (actualVal - e.lastVal),
          actualVal, (e.writePtr + 1) % p.depth, true, true⟩)
        markovTable :=
          if e.strideValid then
            k.markovTable.set (e.index p pc) ((k.markovTable.getD (e.index p pc) {}).train
              p.maxConf (actualVal - e.lastVal))
          else k.markovTable } := by
  simp [learn, h, hv]

theorem learn_vht_ne (k : Knowledge) {pc other : Addr} (h : other ≠ pc) (actualVal : Word) :
    (learn p k pc actualVal).vht other = k.vht other := by
  unfold learn
  dsimp only
  split <;> exact Function.update_of_ne h _ _

def confident (threshold : Unsigned) (mEntry : MarkovEntry) : Bool :=
  mEntry.valid && threshold.toNat ≤ mEntry.confidence.toNat

@[simp] theorem confident_iff (threshold : Unsigned) (mEntry : MarkovEntry) :
    confident threshold mEntry = true ↔
      mEntry.valid = true ∧ threshold.toNat ≤ mEntry.confidence.toNat := by
  simp [confident]

def answer (p : Params) (k : Knowledge) (pc : Addr) : Option Word :=
  match k.vht pc with
  | none => none
  | some e =>
    if e.valid && e.strideValid then
      let mEntry := k.markovTable.getD (e.index p pc) {}
      if confident p.confThreshold mEntry then
        some (e.lastVal + mEntry.predictedStride)
      else none
    else none

private theorem getD_map (o : Option VHTEntry) :
    (o.map Entry.ofVHT).getD {} = Entry.ofVHT (o.getD {}) := by
  cases o <;> rfl

theorem of_update (actualVal : Word) (wasPredicted : Bool) (predVal : Word) :
    of (update p s pc actualVal wasPredicted predVal) = learn p (of s) pc actualVal := by
  unfold update learn
  simp only [of_vht, getD_map]
  generalize (s.vht pc).getD {} = vEntry
  cases hv : vEntry.valid with
  | false =>
    simp [of, Entry.ofVHT, hv, Function.comp_update]
  | true =>
    simp [of, Entry.ofVHT, hv, Function.comp_update, Entry.index, hashContext, consulted]

private theorem update_pending (e e' : VHTEntry) (he : s.vht pc = some e)
    (h : Entry.ofVHT e' = Entry.ofVHT e) (stats : LVPStats) :
    of { s with vht := Function.update s.vht pc (some e'), stats := stats } = of s := by
  have hvht : Option.map Entry.ofVHT ∘ Function.update s.vht pc (some e') =
      Option.map Entry.ofVHT ∘ s.vht := by
    rw [Function.comp_update, Option.map_some, h]
    apply Function.update_eq_self_iff.mpr
    simp [he]
  simp only [of, hvht]

@[simp] theorem of_predict : of (predict p s pc).1 = of s := by
  rcases predict_cases p s pc with ⟨_, h⟩ | ⟨e, _, _, _, h⟩ | ⟨e, _, _, _, _, h⟩ |
    ⟨e, he, _, _, _, _, h⟩
  · rw [h, of_stats]
  · rw [h, of_stats]
  · rw [h, of_stats]
  · rw [h]
    apply update_pending s pc e _ he
    rfl

private theorem answer_of (e : VHTEntry) (he : s.vht pc = some e) : answer p (of s) pc =
      if e.valid && e.strideValid then
        if confident p.confThreshold (consulted p s pc e) then
          some (e.lastVal + (consulted p s pc e).predictedStride)
        else none
      else none := by
  simp only [answer, of_vht, he]
  rfl

theorem predict_snd : (predict p s pc).2 = answer p (of s) pc := by
  rcases predict_cases p s pc with ⟨hnone, h⟩ | ⟨e, he, hv, hs, h⟩ |
    ⟨e, he, hv, hs, hm, h⟩ | ⟨e, he, hv, hs, hm, hc, h⟩
  · rw [h]
    cases he : s.vht pc with
    | none => simp [answer, he]
    | some e => simp [answer_of p s pc e he, hnone e he]
  · simp [h, answer_of p s pc e he, hs]
  · rw [h, answer_of p s pc e he]
    rcases hm with hm | hc
    · simp [hm]
    · simp [hc.not_ge]
  · simp [h, answer_of p s pc e he, hv, hs, hm, hc]

private theorem predict_predicted : (predict p s pc).1.stats.predicted =
      s.stats.predicted + (if (predict p s pc).2.isSome then 1 else 0) := by
  rcases predict_cases p s pc with ⟨_, h⟩ | ⟨e, _, _, _, h⟩ | ⟨e, _, _, _, _, h⟩ |
    ⟨e, _, _, _, _, _, h⟩ <;> rw [h] <;> rfl

private theorem update_predicted (actualVal : Word) (wasPredicted : Bool) (predVal : Word) :
    (update p s pc actualVal wasPredicted predVal).stats.predicted = s.stats.predicted := by
  rw [update_stats]
  split
  · rw [checkPending_frame]
  · rfl

def step (p : Params) (k : Knowledge) : Call → Knowledge
  | .update pc actualVal _ _ => learn p k pc actualVal
  | .predict _ => k

theorem of_step (call : Call) : of (MarkovLVP.step p s call) = step p (of s) call := by
  cases call with
  | update pc actualVal wasPredicted predVal =>
    exact of_update p s pc actualVal wasPredicted predVal
  | predict pc => exact of_predict p s pc

theorem of_run (calls : List Call) : of (run p calls) = calls.foldl (step p) (of (init p)) := by
  induction calls using List.reverseRecOn with
  | nil => rfl
  | append_singleton calls call ih =>
    rw [run_concat, of_step, ih, List.foldl_append]
    rfl

def trains (p : Params) (k : Knowledge) : Call → Option (Nat × Word)
  | .update pc actualVal _ _ =>
    match k.vht pc with
    | none => none
    | some e =>
      if e.valid && e.strideValid then some (e.index p pc, actualVal - e.lastVal) else none
  | .predict _ => none

theorem step_markovTable (k : Knowledge) (call : Call) : (step p k call).markovTable =
      match trains p k call with
      | none => k.markovTable
      | some (mIdx, stride) =>
        k.markovTable.set mIdx ((k.markovTable.getD mIdx {}).train p.maxConf stride) := by
  cases call with
  | predict _ => rfl
  | update pc actualVal _ _ =>
    simp only [step, trains]
    cases he : k.vht pc with
    | none => rw [learn_first p he]
    | some e =>
      cases hv : e.valid with
      | false => simp [learn, he, hv]
      | true =>
        rw [learn_next p he hv]
        cases hs : e.strideValid <;> simp [hv, hs]

@[simp] theorem step_length (k : Knowledge) (call : Call) :
    (step p k call).markovTable.length = k.markovTable.length := by
  rw [step_markovTable]
  split
  · rfl
  · rw [List.length_set]

section

/-- Two parameter sets that differ at most in `conf_threshold`. -/
structure SameTables (p q : Params) : Prop where
  tableSize : p.tableSize = q.tableSize
  contextDepth : p.contextDepth = q.contextDepth
  maxConf : p.maxConf = q.maxConf

variable {p q : Params} (h : SameTables p q)
include h

theorem SameTables.depth : p.depth = q.depth := by
  simp only [Params.depth, h.contextDepth]

theorem SameTables.index (pc : Addr) (e : Entry) : e.index p pc = e.index q pc := by
  simp only [Entry.index, h.depth, h.tableSize]

theorem SameTables.learn (k : Knowledge) (pc : Addr) (actualVal : Word) :
    learn p k pc actualVal = Training.learn q k pc actualVal := by
  simp only [Training.learn, h.depth, h.index, h.maxConf]

theorem SameTables.init : of (init p) = of (MarkovLVP.init q) := by
  simp only [of, MarkovLVP.init, h.tableSize]

theorem SameTables.of_run (calls : List Call) : of (run p calls) = of (run q calls) := by
  rw [Training.of_run, Training.of_run, h.init]
  apply List.foldl_ext
  intro k call _
  cases call with
  | update pc actualVal _ _ => exact h.learn k pc actualVal
  | predict pc => rfl

theorem SameTables.answer_mono (hle : p.confThreshold.toNat ≤ q.confThreshold.toNat)
    (k : Knowledge) (pc : Addr) (v : Word) (hq : answer q k pc = some v) :
    answer p k pc = some v := by
  unfold answer at hq ⊢
  cases he : k.vht pc with
  | none => simp [he] at hq
  | some e =>
    simp only [he, h.index] at hq ⊢
    split at hq
    · rename_i hvalid
      rw [if_pos hvalid]
      split at hq
      · rename_i hm
        rw [confident_iff] at hm
        rw [if_pos ((confident_iff _ _).mpr ⟨hm.1, hle.trans hm.2⟩)]
        exact hq
      · contradiction
    · contradiction

theorem SameTables.predicted_le (hle : p.confThreshold.toNat ≤ q.confThreshold.toNat)
    (calls : List Call) :
    (run q calls).stats.predicted ≤ (run p calls).stats.predicted := by
  induction calls using List.reverseRecOn with
  | nil => simp [MarkovLVP.init]
  | append_singleton calls call ih =>
    simp only [run_concat]
    cases call with
    | update pc actualVal wasPredicted predVal =>
      simpa only [MarkovLVP.step, update_predicted] using ih
    | predict pc =>
      simp only [MarkovLVP.step, predict_predicted, predict_snd, h.of_run calls]
      cases hq : answer q (of (run q calls)) pc with
      | none =>
        exact ih.trans (Nat.le_add_right _ _)
      | some v =>
        rw [h.answer_mono hle _ pc v hq]
        simpa using ih

end

/-- Threshold monotonicity over whole runs: the same calls train both
predictors alike, the stricter one only ever withholds answers, and so its
`predicted` counter is never the larger. -/
theorem threshold_monotone (p q : Params) (h : SameTables p q)
    (hle : p.confThreshold.toNat ≤ q.confThreshold.toNat) (calls : List Call) :
    of (run p calls) = of (run q calls) ∧
      (∀ pc v, (predict q (run q calls) pc).2 = some v →
        (predict p (run p calls) pc).2 = some v) ∧
      (run q calls).stats.predicted ≤ (run p calls).stats.predicted := by
  refine ⟨h.of_run calls, ?_, h.predicted_le hle calls⟩
  intro pc v hq
  rw [predict_snd] at hq ⊢
  rw [h.of_run calls]
  exact h.answer_mono hle _ pc v hq

theorem threshold_monotone_ramp :
    let calls := [0, 1, 2, 3].flatMap fun v => [Call.update 64 v false 0, .predict 64]
    let predicted := fun p => (run p calls).stats.predicted
    predicted Params.defaults = 2 ∧ predicted (Params.defaults.withThreshold 2) = 1 ∧
      predicted (Params.defaults.withThreshold 2) ≤ predicted Params.defaults := by
  intro calls predicted
  obtain ⟨-, -, hle⟩ := threshold_monotone Params.defaults (Params.defaults.withThreshold 2)
    ⟨rfl, rfl, rfl⟩ (by decide) calls
  exact ⟨by decide +kernel, by decide +kernel, hle⟩

end Gem5Core.ValuePred.Training
