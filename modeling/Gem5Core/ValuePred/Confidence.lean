import Gem5Core.ValuePred.Training

/-! The range of the confidence counters: an 8-bit field that is compared with an unchecked 32-bit
ceiling. -/
namespace Gem5Core.ValuePred.Confidence
open Base.IntMath MarkovLVP Training List

def InRange (maxConf : Unsigned) (mEntry : MarkovEntry) : Prop :=
  mEntry.valid = true →
    1 ≤ mEntry.confidence.toNat ∧ mEntry.confidence.toNat ≤ maxConf.toNat

theorem increment_toNat (c : BitVec 8) (h : c.toNat < 255) : (c + 1).toNat = c.toNat + 1 := by
  change (c.toNat + 1) % 2 ^ 8 = c.toNat + 1
  omega

theorem decrement_toNat (c : BitVec 8) (h : 0 < c.toNat) : (c - 1).toNat = c.toNat - 1 := by
  change (2 ^ 8 - 1 + c.toNat) % 2 ^ 8 = c.toNat - 1
  omega

variable {maxConf : Unsigned}

theorem train_inRange (hpos : 1 ≤ maxConf.toNat) (hmax : maxConf.toNat ≤ 255) (mEntry : MarkovEntry)
    (h : InRange maxConf mEntry) (stride : Word) :
    InRange maxConf (mEntry.train maxConf stride) := by
  intro _
  unfold MarkovEntry.train
  split
  · exact ⟨by simp, by simpa using hpos⟩
  · rename_i hvalid
    have hrange := h (by simpa using hvalid)
    split
    · split
      · rename_i hlt
        rw [increment_toNat _ (by omega)]
        omega
      · exact hrange
    · -- the decrement is exact because a valid counter is at least 1
      dsimp only
      rw [if_pos (show 0 < mEntry.confidence.toNat from hrange.1)]
      split
      · exact ⟨by simp, by simpa using hpos⟩
      · rename_i hne
        have hsub := decrement_toNat mEntry.confidence hrange.1
        have hnz : (mEntry.confidence - 1).toNat ≠ 0 := by
          intro hz
          exact hne (BitVec.eq_of_toNat_eq (by simpa using hz))
        dsimp only
        omega

private theorem train_hit_le (hmax : maxConf.toNat ≤ 255) (mEntry : MarkovEntry)
    (hvalid : mEntry.valid = true) :
    mEntry.confidence.toNat ≤
      (mEntry.train maxConf mEntry.predictedStride).confidence.toNat := by
  unfold MarkovEntry.train
  rw [if_neg (by simp [hvalid]), if_pos rfl]
  split
  · rename_i hlt
    rw [increment_toNat _ (by omega)]
    omega
  · exact le_rfl

theorem getD_inRange (table : List MarkovEntry) (h : ∀ m ∈ table, InRange maxConf m) (i : Nat) :
    InRange maxConf (table.getD i {}) := by
  by_cases hi : i < table.length
  · rw [getD_eq_getElem _ _ hi]
    exact h _ (getElem_mem hi)
  · rw [getD_eq_default _ _ (Nat.le_of_not_lt hi)]
    intro hv
    cases hv

variable (p : Params)

theorem learn_inRange (hpos : 1 ≤ p.maxConf.toNat) (hmax : p.maxConf.toNat ≤ 255) (k : Knowledge)
    (h : ∀ m ∈ k.markovTable, InRange p.maxConf m) (pc : Addr) (actualVal : Word) :
    ∀ m ∈ (learn p k pc actualVal).markovTable, InRange p.maxConf m := by
  unfold learn
  dsimp only
  split
  · exact h
  · split
    · intro m hm
      rcases mem_or_eq_of_mem_set hm with hm | rfl
      · exact h m hm
      · exact train_inRange hpos hmax _ (getD_inRange _ h _) _
    · exact h

theorem run_inRange (hpos : 1 ≤ p.maxConf.toNat) (hmax : p.maxConf.toNat ≤ 255) (calls : List Call) :
    ∀ m ∈ (run p calls).markovTable, InRange p.maxConf m := by
  apply run_induction p (motive := fun s => ∀ m ∈ s.markovTable, InRange p.maxConf m)
  · intro m hm hv
    rw [eq_of_mem_replicate hm] at hv
    cases hv
  · intro s call ih
    have hstep := of_step p s call
    rw [← of_markovTable, hstep]
    cases call with
    | update pc actualVal wasPredicted predVal =>
      exact learn_inRange p hpos hmax (of s) ih pc actualVal
    | predict pc => exact ih

/-- The documented behaviour of the counters: range, no lowering on a hit, and
thresholds 0 and 1 indistinguishable. -/
structure Sound (p : Params) : Prop where
  range : ∀ calls, ∀ m ∈ (run p calls).markovTable, InRange p.maxConf m
  hit : ∀ calls pc actualVal wasPredicted predVal e,
    (run p calls).vht pc = some e → e.valid = true → e.strideValid = true →
    (consulted p (run p calls) pc e).valid = true →
    actualVal - e.lastVal = (consulted p (run p calls) pc e).predictedStride →
    (consulted p (run p calls) pc e).confidence.toNat ≤
      (consulted p (update p (run p calls) pc actualVal wasPredicted predVal) pc
        e).confidence.toNat
  zero_one : ∀ calls pc,
    (predict (p.withThreshold 0) (run (p.withThreshold 0) calls) pc).2 =
      (predict (p.withThreshold 1) (run (p.withThreshold 1) calls) pc).2

theorem update_consulted (calls : List Call) (pc : Addr) (actualVal : Word) (wasPredicted : Bool)
    (predVal : Word) (e : VHTEntry) (he : (run p calls).vht pc = some e) (hv : e.valid = true)
    (hs : e.strideValid = true) :
    consulted p (update p (run p calls) pc actualVal wasPredicted predVal) pc e =
      (consulted p (run p calls) pc e).train p.maxConf (actualVal - e.lastVal) := by
  have hlt : hashContext p pc e < (run p calls).markovTable.length := by
    rw [run_length]
    exact hashContext_lt p pc e
  unfold update
  simp only [he, Option.getD_some, hv, hs, Bool.not_true, Bool.false_eq_true, if_false, if_true]
  rw [consulted]
  rw [getD_eq_getElem _ _ (by simpa using hlt), getElem_set_self]

theorem answer_zero_one (k : Knowledge) (h : ∀ m ∈ k.markovTable, InRange p.maxConf m) (pc : Addr) :
    answer (p.withThreshold 0) k pc = answer (p.withThreshold 1) k pc := by
  unfold answer
  cases k.vht pc with
  | none => rfl
  | some e =>
    dsimp only
    split
    · have hrange := getD_inRange k.markovTable h (e.index p pc)
      have hsame : confident 0 (k.markovTable.getD (e.index p pc) {}) =
          confident 1 (k.markovTable.getD (e.index p pc) {}) := by
        rw [Bool.eq_iff_iff, confident_iff, confident_iff]
        exact and_congr_right fun hm => iff_of_true (Nat.zero_le _) (hrange hm).1
      change (if confident 0 (k.markovTable.getD (e.index p pc) {}) = true then _ else _) =
        if confident 1 (k.markovTable.getD (e.index p pc) {}) = true then _ else _
      by_cases hc : confident 1 (k.markovTable.getD (e.index p pc) {}) = true
      · rw [if_pos (hsame.trans hc), if_pos hc]
        rfl
      · rw [if_neg (hsame ▸ hc), if_neg hc]
    · rfl

theorem sound_of_le (hpos : 1 ≤ p.maxConf.toNat) (hmax : p.maxConf.toNat ≤ 255) : Sound p where
  range := run_inRange p hpos hmax
  hit := by
    intro calls pc actualVal wasPredicted predVal e he hv hs hm hstride
    rw [update_consulted p calls pc actualVal wasPredicted predVal e he hv hs, hstride]
    exact train_hit_le hmax _ hm
  zero_one := by
    intro calls pc
    have hsame : SameTables (p.withThreshold 0) (p.withThreshold 1) := ⟨rfl, rfl, rfl⟩
    rw [predict_snd, predict_snd, hsame.of_run]
    exact answer_zero_one p _ (run_inRange (p.withThreshold 1) hpos hmax calls) pc

def constantLoad (n : Nat) : List Call :=
  List.replicate n (.update 0 0 false 0)

theorem constantLoad_succ (n : Nat) :
    constantLoad (n + 1) = constantLoad n ++ [.update 0 0 false 0] := by
  simp only [constantLoad, replicate_succ']

private theorem contextHash_zero (depth writePtr : Nat) :
    contextHash depth writePtr (List.replicate depth 0) 0 =
      contextHash depth 0 (List.replicate depth 0) 0 := by
  apply foldl_ext
  intro h i _
  simp [hashStep]

def wrapped (n : Nat) : MarkovEntry :=
  if n = 0 then {} else { predictedStride := 0, confidence := BitVec.ofNat 8 n, valid := true }

private theorem wrapped_train (hmax : 256 ≤ maxConf.toNat) (n : Nat) :
    (wrapped n).train maxConf 0 = wrapped (n + 1) := by
  cases n with
  | zero => rfl
  | succ n =>
    have hlt : (BitVec.ofNat 8 (n + 1)).toNat < maxConf.toNat := by
      omega
    simp only [wrapped, Nat.add_eq_zero_iff, one_ne_zero, and_false, if_false,
      MarkovEntry.train, Bool.not_true, Bool.false_eq_true, if_true]
    rw [if_pos hlt]
    congr 1
    rw [BitVec.ofNat_add (n + 1) 1]
    rfl

def zeroEntry (p : Params) (w : Nat) (strideValid : Bool) : Entry :=
  ⟨List.replicate p.depth 0, 0, w, true, strideValid⟩

def zeroIndex (p : Params) : Nat := (zeroEntry p 0 true).index p 0

theorem zeroEntry_index (w : Nat) (strideValid : Bool) :
    (zeroEntry p w strideValid).index p 0 = zeroIndex p := by
  simp only [zeroIndex, zeroEntry, Entry.index]
  rw [contextHash_zero]

theorem zeroIndex_lt : zeroIndex p < p.tableSize.toNat :=
  hashContext_lt p 0 ⟨List.replicate p.depth 0, 0, 0, true, true, false, 0⟩

private theorem learn_zero (k : Knowledge) (w : Nat) (strideValid : Bool)
    (h : k.vht 0 = some (zeroEntry p w strideValid)) :
    (learn p k 0 0).vht 0 = some (zeroEntry p ((w + 1) % p.depth) true) ∧
      (learn p k 0 0).markovTable =
        if strideValid then
          k.markovTable.set (zeroIndex p)
            ((k.markovTable.getD (zeroIndex p) {}).train p.maxConf 0)
        else k.markovTable := by
  unfold learn
  simp only [h, Option.getD_some, zeroEntry_index]
  simp [zeroEntry]

theorem of_constantLoad (hmax : 256 ≤ p.maxConf.toNat) (n : Nat) :
    (∃ w, (of (run p (constantLoad (n + 2)))).vht 0 = some (zeroEntry p w true)) ∧
      (run p (constantLoad (n + 2))).markovTable.getD (zeroIndex p) {} = wrapped n := by
  induction n with
  | zero =>
    have hfirst : (learn p (of (init p)) 0 0).vht 0 = some (zeroEntry p 0 false) := by
      simp [learn, of, init, zeroEntry]
    have hlearn := learn_zero p _ 0 false hfirst
    have hrun : of (run p (constantLoad (0 + 2))) = learn p (learn p (of (init p)) 0 0) 0 0 := by
      rw [of_run]
      rfl
    refine ⟨⟨(0 + 1) % p.depth, ?_⟩, ?_⟩
    · exact hlearn.1
    · rw [← of_markovTable, hrun]
      simp [learn, of, init, wrapped]
  | succ n ih =>
    obtain ⟨⟨w, hw⟩, htable⟩ := ih
    have hlearn := learn_zero p _ w true hw
    have hrun : of (run p (constantLoad (n + 1 + 2))) =
        learn p (of (run p (constantLoad (n + 2)))) 0 0 := by
      rw [constantLoad_succ (n + 2), run_concat, of_step]
      rfl
    have hlt : zeroIndex p < (run p (constantLoad (n + 2))).markovTable.length := by
      rw [run_length]
      exact zeroIndex_lt p
    refine ⟨⟨(w + 1) % p.depth, ?_⟩, ?_⟩
    · rw [hrun]
      exact hlearn.1
    · rw [← of_markovTable, hrun, hlearn.2, if_pos rfl, of_markovTable, htable,
        wrapped_train hmax]
      rw [getD_eq_getElem _ _ (by simpa using hlt), getElem_set_self]

theorem wraps (hmax : 256 ≤ p.maxConf.toNat) :
    ∃ m ∈ (run p (constantLoad 258)).markovTable, m.valid = true ∧ m.confidence = 0 := by
  have htable := (of_constantLoad p hmax 256).2
  have hlt : zeroIndex p < (run p (constantLoad (256 + 2))).markovTable.length := by
    rw [run_length]
    exact zeroIndex_lt p
  rw [getD_eq_getElem _ _ hlt] at htable
  refine ⟨_, getElem_mem hlt, ?_, ?_⟩
  · rw [htable]
    rfl
  · rw [htable]
    rfl

/-- For every accepted configuration with a positive ceiling, the counters are
sound over every run exactly when the ceiling fits the 8-bit counter. -/
theorem sound_iff (p : Params) (hpos : 1 ≤ p.maxConf.toNat) :
    Sound p ↔ p.maxConf.toNat ≤ 255 := by
  constructor
  · intro h
    by_contra hgt
    obtain ⟨m, hm, hvalid, hzero⟩ := wraps p (by omega)
    have hone := (h.range _ m hm hvalid).1
    rw [hzero] at hone
    exact absurd hone (by decide)
  · exact sound_of_le p hpos

theorem sound_iff_defaults : 1 ≤ Params.defaults.maxConf.toNat ∧ Sound Params.defaults :=
  ⟨by decide, (sound_iff Params.defaults (by decide)).mpr (by decide)⟩

def ceiling256 : Params := { Params.defaults with maxConf := 256 }

/-- Constant loads wrap a counter with ceiling 256 to zero, so the range, and
the equivalence of thresholds 0 and 1 that rests on it, fail. -/
theorem ceiling256_not_sound :
    ¬ Sound ceiling256 ∧
      ∃ m ∈ (run ceiling256 (constantLoad 258)).markovTable, m.valid = true ∧ m.confidence = 0 := by
  refine ⟨?_, wraps ceiling256 (by decide)⟩
  intro h
  obtain ⟨m, hm, hvalid, hzero⟩ := wraps ceiling256 (by decide)
  have hone := (h.range _ m hm hvalid).1
  rw [hzero] at hone
  exact absurd hone (by decide)

end Gem5Core.ValuePred.Confidence
