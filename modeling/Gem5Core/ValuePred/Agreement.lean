import Gem5Core.Lib.Protocol
import Gem5Core.ValuePred.Confidence
import Gem5Core.ValuePred.Pending

/-! A prediction and the update that scores it: `update` recomputes the index and compares once the
absolute value, for the statistics, and once the wrapped difference, for the table. -/
namespace Gem5Core.ValuePred.Agreement
open Base.IntMath MarkovLVP Training Lib Pending Confidence

/-- A call that neither updates `pc` nor trains entry `mIdx`. -/
def Spares (p : Params) (pc : Addr) (mIdx : Nat) (s : State) : Call → Prop
  | .update pc' v wasPredicted predVal =>
    pc' ≠ pc ∧ (trains p (of s) (.update pc' v wasPredicted predVal)).map Prod.fst ≠ some mIdx
  | .predict _ => True

instance (p : Params) (pc : Addr) (mIdx : Nat) (s : State) (call : Call) :
    Decidable (Spares p pc mIdx s call) := by
  cases call <;> dsimp only [Spares] <;> infer_instance

/-- A prediction for `pc` stands: its slot holds the value that its entry `e`
and the table entry `m` still predict. -/
structure Stands (p : Params) (pc : Addr) (e : Training.Entry) (m : MarkovEntry) (s : State) :
    Prop where
  allValid : AllValid s
  entry : (of s).vht pc = some e
  table : s.markovTable.getD (e.index p pc) {} = m
  answer : Training.answer p (of s) pc = some (e.lastVal + m.predictedStride)
  slot : slot s pc = some (e.lastVal + m.predictedStride)

section

variable {p : Params} {pc : Addr} {e : Training.Entry} {m : MarkovEntry} {s : State}

private theorem answer_congr {k k' : Knowledge} (hv : k'.vht pc = some e) (hv' : k.vht pc = some e)
    (ht : k'.markovTable.getD (e.index p pc) {} = k.markovTable.getD (e.index p pc) {}) :
    Training.answer p k' pc = Training.answer p k pc := by
  simp only [Training.answer, hv, hv', ht]

theorem Stands.predict (h : Stands p pc e m s) (pc' : Addr) :
    Stands p pc e m (MarkovLVP.predict p s pc').1 where
  allValid := predict_allValid p s h.allValid pc'
  entry := by rw [of_predict, h.entry]
  table := by rw [predict_markovTable, h.table]
  answer := by rw [of_predict, h.answer]
  slot := by
    rw [slot_predict]
    by_cases hpc : pc' = pc
    · subst hpc
      rw [predict_snd, h.answer]
      exact Function.update_self ..
    · split
      · exact h.slot
      · rw [Function.update_of_ne (Ne.symm hpc), h.slot]

theorem Stands.update (h : Stands p pc e m s) {pc' : Addr} {v : Word} {wasPredicted : Bool}
    {predVal : Word} (hs : Spares p pc (e.index p pc) s (.update pc' v wasPredicted predVal)) :
    Stands p pc e m (MarkovLVP.update p s pc' v wasPredicted predVal) := by
  have hof : of (MarkovLVP.update p s pc' v wasPredicted predVal) =
      Training.step p (of s) (.update pc' v wasPredicted predVal) := of_update ..
  have hentry : (of (MarkovLVP.update p s pc' v wasPredicted predVal)).vht pc = some e := by
    rw [of_update, learn_vht_ne p _ (Ne.symm hs.1), h.entry]
  have htable : (of (MarkovLVP.update p s pc' v wasPredicted predVal)).markovTable.getD
      (e.index p pc) {} = (of s).markovTable.getD (e.index p pc) {} := by
    rw [hof, step_markovTable]
    cases htrain : trains p (of s) (.update pc' v wasPredicted predVal) with
    | none => rfl
    | some target =>
      have hne : target.1 ≠ e.index p pc := by
        intro heq
        apply hs.2
        rw [htrain, Option.map_some, heq]
      simp only [List.getD_eq_getElem?_getD, List.getElem?_set_ne hne]
  exact
    { allValid := update_allValid p s h.allValid pc' v wasPredicted predVal
      entry := hentry
      table := htable.trans h.table
      answer := (answer_congr hentry h.entry htable).trans h.answer
      slot := by rw [slot_update, Function.update_of_ne (Ne.symm hs.1), h.slot] }

theorem stands_step (s : State) (call : Call) (h : Stands p pc e m s)
    (hs : Spares p pc (e.index p pc) s call) : Stands p pc e m (MarkovLVP.step p s call) := by
  cases call with
  | update pc' v wasPredicted predVal => exact h.update hs
  | predict pc' => exact h.predict pc'

end

theorem run_allValid (p : Params) (calls : List Call) : AllValid (run p calls) := by
  apply run_induction p (motive := AllValid) (init_allValid p)
  intro s call ih
  cases call with
  | update pc v wasPredicted predVal => exact update_allValid p s ih pc v wasPredicted predVal
  | predict pc => exact predict_allValid p s ih pc

theorem stands_of_predict {p : Params} {s : State} (hv : AllValid s) {pc : Addr} {e : VHTEntry}
    (he : s.vht pc = some e) {predVal : Word}
    (hpredict : (MarkovLVP.predict p s pc).2 = some predVal) :
    Stands p pc (Entry.ofVHT e) (consulted p s pc e) (MarkovLVP.predict p s pc).1 := by
  have hval : predVal = e.lastVal + (consulted p s pc e).predictedStride := by
    rcases predict_cases p s pc with ⟨_, h⟩ | ⟨e', _, _, _, h⟩ | ⟨e', _, _, _, _, h⟩ |
      ⟨e', he', _, _, _, _, h⟩
    · rw [h] at hpredict
      cases hpredict
    · rw [h] at hpredict
      cases hpredict
    · rw [h] at hpredict
      cases hpredict
    · rw [he] at he'
      cases he'
      rw [h] at hpredict
      exact (Option.some.inj hpredict).symm
  constructor
  · exact predict_allValid p s hv pc
  · rw [of_predict, of_vht, he, Option.map_some]
  · rw [predict_markovTable]
    rfl
  · rw [of_predict, ← predict_snd, hpredict, hval]
    rfl
  · rw [slot_predict, hpredict]
    dsimp only
    rw [Function.update_self, hval]
    rfl

/-- `update` trains that very entry, counts a hit exactly when the stride is the predicted one, and
moves the confidence accordingly. -/
structure ScoredAsTrained (p : Params) (mIdx : Nat) (m : MarkovEntry) (stride : Word)
    (s s' : State) : Prop where
  consults : s.markovTable.getD mIdx {} = m
  trains : s'.markovTable = s.markovTable.set mIdx (m.train p.maxConf stride)
  correct : s'.stats.correct = s.stats.correct + if stride = m.predictedStride then 1 else 0
  incorrect : s'.stats.incorrect = s.stats.incorrect + if stride = m.predictedStride then 0 else 1
  raised : stride = m.predictedStride →
    (s'.markovTable.getD mIdx {}).predictedStride = m.predictedStride ∧
    (s'.markovTable.getD mIdx {}).confidence.toNat =
      if m.confidence.toNat < p.maxConf.toNat then m.confidence.toNat + 1
      else m.confidence.toNat
  lowered : stride ≠ m.predictedStride →
    (s'.markovTable.getD mIdx {}).predictedStride = m.predictedStride ∧
      (s'.markovTable.getD mIdx {}).confidence.toNat < m.confidence.toNat ∨
    (s'.markovTable.getD mIdx {}).predictedStride = stride

/-- The counter of the entry is full but below the ceiling, and wraps when it is raised. -/
def WrapsAt (maxConf : Unsigned) (m : MarkovEntry) : Prop :=
  m.confidence.toNat = 255 ∧ 255 < maxConf.toNat

instance (maxConf : Unsigned) (m : MarkovEntry) : Decidable (WrapsAt maxConf m) :=
  inferInstanceAs (Decidable (_ ∧ _))

private theorem train_raised {maxConf : Unsigned} {m : MarkovEntry} (hroom : ¬WrapsAt maxConf m)
    (hvalid : m.valid = true) :
    (m.train maxConf m.predictedStride).predictedStride = m.predictedStride ∧
      (m.train maxConf m.predictedStride).confidence.toNat =
        if m.confidence.toNat < maxConf.toNat then m.confidence.toNat + 1
        else m.confidence.toNat := by
  unfold MarkovEntry.train
  rw [if_neg (by simp [hvalid]), if_pos rfl]
  split
  · rename_i hlt
    unfold WrapsAt at hroom
    exact ⟨rfl, increment_toNat _ (by omega)⟩
  · exact ⟨rfl, rfl⟩

private theorem train_lowered {maxConf : Unsigned} {m : MarkovEntry} (hvalid : m.valid = true)
    {stride : Word} (hne : stride ≠ m.predictedStride) :
    (m.train maxConf stride).predictedStride = m.predictedStride ∧
        (m.train maxConf stride).confidence.toNat < m.confidence.toNat ∨
      (m.train maxConf stride).predictedStride = stride := by
  unfold MarkovEntry.train
  rw [if_neg (by simp [hvalid]), if_neg hne]
  by_cases hpos : 0 < m.confidence.toNat
  · simp only [if_pos hpos]
    by_cases hz : m.confidence - 1 = 0
    · rw [if_pos hz]
      exact .inr rfl
    · rw [if_neg hz]
      refine .inl ⟨rfl, ?_⟩
      rw [decrement_toNat _ hpos]
      exact Nat.sub_lt hpos Nat.one_pos
  · have hz : m.confidence = 0 := BitVec.eq_of_toNat_eq (Nat.eq_zero_of_not_pos hpos)
    rw [if_neg hpos, if_pos hz]
    exact .inr rfl

theorem predicted_iff (v lastVal stride : Word) : lastVal + stride = v ↔ v - lastVal = stride := by
  constructor
  · intro h
    rw [← h, BitVec.add_comm, BitVec.add_sub_cancel]
  · intro h
    rw [← h, BitVec.add_comm, BitVec.sub_add_cancel]

theorem Stands.scored {p : Params} {pc : Addr} {e : Training.Entry} {m : MarkovEntry} {s : State}
    (h : Stands p pc e m s) (hroom : ¬WrapsAt p.maxConf m)
    (hlt : e.index p pc < s.markovTable.length) (v : Word) (wasPredicted : Bool)
    (predVal : Word) :
    ScoredAsTrained p (e.index p pc) m (v - e.lastVal) s
      (MarkovLVP.update p s pc v wasPredicted predVal) := by
  -- an answer needs a valid entry, a stride and a valid table entry
  have hvalid : e.valid = true ∧ e.strideValid = true ∧ m.valid = true := by
    have hanswer := h.answer
    simp only [Training.answer, h.entry, of_markovTable, h.table] at hanswer
    split at hanswer
    · rename_i hv
      rw [Bool.and_eq_true] at hv
      split at hanswer
      · rename_i hc
        exact ⟨hv.1, hv.2, ((confident_iff _ _).mp hc).1⟩
      · cases hanswer
    · cases hanswer
  obtain ⟨hv, hs, hm⟩ := hvalid
  have htable : (MarkovLVP.update p s pc v wasPredicted predVal).markovTable =
      s.markovTable.set (e.index p pc) (m.train p.maxConf (v - e.lastVal)) := by
    rw [← of_markovTable, of_update, learn_next p h.entry hv, if_pos hs, of_markovTable, h.table]
  have hentry : (MarkovLVP.update p s pc v wasPredicted predVal).markovTable.getD
      (e.index p pc) {} = m.train p.maxConf (v - e.lastVal) := by
    rw [htable, List.getD_eq_getElem _ _ (by simpa using hlt), List.getElem_set_self]
  have hhit : (some (e.lastVal + m.predictedStride) = some v) ↔
      v - e.lastVal = m.predictedStride := by
    rw [Option.some.injEq, predicted_iff]
  have hstats := update_accuracy p s h.allValid pc v wasPredicted predVal
  rw [h.slot] at hstats
  constructor
  · exact h.table
  · exact htable
  · rw [hstats]
    simp only [hhit]
  · rw [hstats]
    by_cases heq : v - e.lastVal = m.predictedStride
    · simp [hhit.mpr heq, heq]
    · simp only [ne_eq, hhit, heq, not_false_eq_true, Option.isSome_some, and_self, if_true,
        if_false]
  · intro heq
    rw [hentry, heq]
    exact train_raised hroom hm
  · intro hne
    rw [hentry]
    exact train_lowered hm hne

/-- Coherence of a prediction with the update that scores it, across any calls
that spare its PC and its table entry. It holds of every value exactly when raising the
counter that was consulted does not wrap it. -/
theorem prediction_scored (p : Params) (before between : List Call) (pc : Addr) (e : VHTEntry)
    (he : (run p before).vht pc = some e) (predVal : Word)
    (hpredict : (predict p (run p before) pc).2 = some predVal)
    (hspares : Protocol.Legal (MarkovLVP.step p) (Spares p pc (hashContext p pc e))
      (run p (before ++ [.predict pc])) between) :
    (∀ v wasPredicted predArg,
      ∃ e', (run p (before ++ [.predict pc] ++ between)).vht pc = some e' ∧
        hashContext p pc e' = hashContext p pc e ∧ e'.lastVal = e.lastVal ∧
        ScoredAsTrained p (hashContext p pc e') (consulted p (run p before) pc e) (v - e'.lastVal)
          (run p (before ++ [.predict pc] ++ between))
          (update p (run p (before ++ [.predict pc] ++ between)) pc v wasPredicted predArg)) ↔
    ¬WrapsAt p.maxConf (consulted p (run p before) pc e) := by
  have hrun : run p (before ++ [.predict pc] ++ between) =
      Protocol.run (MarkovLVP.step p) (run p (before ++ [.predict pc])) between :=
    List.foldl_append
  have hstart : Stands p pc (Entry.ofVHT e) (consulted p (run p before) pc e)
      (run p (before ++ [.predict pc])) := by
    rw [run_concat]
    exact stands_of_predict (run_allValid p before) he hpredict
  have hstands := Protocol.run_inv _ stands_step between hstart hspares
  rw [← hrun] at hstands
  constructor
  · rintro hscored ⟨hfull, hceiling⟩
    -- the value that was predicted would take the counter to 256
    obtain ⟨e', -, -, hlast, h⟩ :=
      hscored (e.lastVal + (consulted p (run p before) pc e).predictedStride) false 0
    have hraised := (h.raised ((predicted_iff _ _ _).mp (by rw [hlast]))).2
    rw [if_pos (by omega)] at hraised
    omega
  · intro hroom v wasPredicted predArg
    have hvht := hstands.entry
    rw [of_vht, Option.map_eq_some_iff] at hvht
    obtain ⟨e', he', hsame⟩ := hvht
    have hidx : hashContext p pc e' = hashContext p pc e := by
      rw [← Entry.index_ofVHT, hsame, Entry.index_ofVHT]
    have hlast : e'.lastVal = e.lastVal := congrArg Entry.lastVal hsame
    refine ⟨e', he', hidx, hlast, ?_⟩
    have hscored := hstands.scored hroom (by
      rw [run_length]
      exact hashContext_lt p pc e) v wasPredicted predArg
    rw [hidx, hlast]
    exact hscored

/-- A ramp, predicted twice, with a load of another PC in between. The value that was
predicted raises the counter to three. -/
theorem prediction_scored_ramp :
    let ramp := [0, 1, 2, 3].map fun v => Call.update 64 v false 0
    let s := run Params.defaults (ramp ++ [.predict 64] ++ [.predict 64, .update 128 7 false 0])
    let e : VHTEntry := ⟨[1], 3, 0, true, true, false, 0⟩
    (((update Params.defaults s 64 4 true 4).markovTable.getD
      (hashContext Params.defaults 64 e) {}).confidence).toNat = 3 := by
  obtain ⟨e', -, hidx, hlast, hscored⟩ := (prediction_scored Params.defaults
    ([0, 1, 2, 3].map fun v => Call.update 64 v false 0) [.predict 64, .update 128 7 false 0] 64
    ⟨[1], 3, 0, true, true, false, 0⟩ (by decide +kernel) 4 (by decide +kernel)
    (by decide +kernel)).mpr (by decide +kernel) 4 true 4
  rw [hidx, hlast] at hscored
  exact (hscored.raised (by decide +kernel)).2.trans (by decide +kernel)

/-- With a ceiling of 256 a correct prediction takes the counter of its entry,
which is not saturated, from 255 to zero. -/
theorem hit_lowers_confidence :
    ∃ e, (run ceiling256 (constantLoad 257)).vht 0 = some e ∧
      (predict ceiling256
        (run ceiling256 (constantLoad 257)) 0).2 = some 0 ∧
      0 - e.lastVal = (consulted ceiling256
        (run ceiling256 (constantLoad 257)) 0 e).predictedStride ∧
      (consulted ceiling256 (run ceiling256
        (constantLoad 257)) 0 e).confidence.toNat = 255 ∧
      (consulted ceiling256 (update ceiling256 (run ceiling256
        (constantLoad 257)) 0 0 false 0) 0 e).confidence.toNat = 0 := by
  have h255 := of_constantLoad ceiling256 (by decide) 255
  have hnext := (of_constantLoad ceiling256 (by decide) 256).2
  rw [show 255 + 2 = 257 from rfl] at h255
  obtain ⟨⟨w, hw⟩, htable⟩ := h255
  rw [of_vht, Option.map_eq_some_iff] at hw
  obtain ⟨e, he, hentry⟩ := hw
  have hidx : hashContext ceiling256 0 e =
      zeroIndex ceiling256 := by
    rw [← Entry.index_ofVHT, hentry, zeroEntry_index]
  have hlast : e.lastVal = 0 := congrArg Entry.lastVal hentry
  have hstep : update ceiling256 (run ceiling256
      (constantLoad 257)) 0 0 false 0 =
      run ceiling256 (constantLoad 258) := by
    rw [constantLoad_succ 257, run_concat]
    rfl
  refine ⟨e, he, ?_, ?_, ?_, ?_⟩
  · have hm : (of (run ceiling256 (constantLoad 257))).markovTable.getD
        ((zeroEntry ceiling256 w true).index ceiling256 0) {} =
        wrapped 255 := by
      rw [of_markovTable, zeroEntry_index, htable]
    rw [predict_snd, Training.answer, of_vht, he, Option.map_some, hentry]
    dsimp only
    rw [hm]
    rfl
  · rw [consulted, hidx, htable, hlast]
    rfl
  · rw [consulted, hidx, htable]
    rfl
  · rw [hstep, consulted, hidx, hnext]
    rfl

end Gem5Core.ValuePred.Agreement
