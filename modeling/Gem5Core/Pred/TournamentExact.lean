import Gem5Core.Lib.Speculation
import Gem5Core.Pred.Tournament

/-! The histories of the tournament predictor are exact: the global register and every local history
hold the outcomes of the branches that survive. -/
namespace Gem5Core.Pred.TournamentExact
open Branch Base.IntMath Lib.ShiftRegister Lib.Speculation Tournament Function

structure Branch where
  pc : Addr
  uncond : Bool
  taken : Bool

structure Record where
  history : Option BPHistory
  read : Reads

variable (p : Params) (tid : ThreadID)

def predict (s : State) (b : Branch) : State × Record :=
  let read := reads p s tid b.pc
  if b.uncond then
    let (s, history) := updateHistories p s tid true b.taken none
    (s, { history, read })
  else
    let (_, s, history) := lookup p s tid b.pc
    let (s, history) := updateHistories p s tid false b.taken (some history)
    (s, { history, read })

def machine : Machine State Branch Record Bool Empty where
  enter := predict p tid
  amend := fun b taken => { b with taken }
  correct := fun s b record taken =>
    let (s, history) := update p s tid b.pc taken record.history true
    (s, { record with history })
  undo := fun s _ record => (squash s tid record.history).1
  retire := fun s b record => (update p s tid b.pc b.taken record.history false).1
  other := fun s _ => s

def mapsTo (idx : Nat) (b : Branch) : Bool :=
  !b.uncond && decide ((calcLocHistIdx p b.pc).toNat = idx)

def outcomes (branches : List Branch) : List Bool := branches.map Branch.taken

def localOutcomes (idx : Nat) (branches : List Branch) : List Bool :=
  outcomes (branches.filter (mapsTo p idx))

structure Holds (branches : List Branch) (s : State) : Prop where
  global : s.globalHistory tid = window 32 (globalHistoryBits p) (outcomes branches)
  locals : ∀ idx, s.localHistoryTable idx &&& localPredictorMask p =
    window 32 (localHistoryBits p) (localOutcomes p idx branches)
  asserted : s.asserted = true

/-- The record holds the histories of the `older` branches, and the counters that
training will use are those that were read. -/
structure Saves (older : List Branch) (b : Branch) (history : BPHistory) (read : Reads) : Prop where
  global : history.globalHistory = window 32 (globalHistoryBits p) (outcomes older)
  uncond : b.uncond = true → history.localHistoryIdx = invalidPredictorIndex ∧
    history.localHistory = invalidPredictorIndex
  cond : b.uncond = false → history.localHistoryIdx = calcLocHistIdx p b.pc ∧
    history.localHistory = window 32 (localHistoryBits p)
      (localOutcomes p (calcLocHistIdx p b.pc).toNat older)
  read : b.uncond = false → read =
    { localCtr := history.localHistory
      globalCtr := history.globalHistory &&& globalHistoryMask p
      choiceCtr := history.globalHistory &&& choiceHistoryMask p }

def Restores (older : List Branch) (b : Branch) (record : Record) : Prop :=
  ∃ history, record.history = some history ∧ Saves p older b history record.read

section

variable {p}

private theorem localHistoryBits_lt : localHistoryBits p < 32 :=
  (two_pow_ceilLog2 p.localPredictorSize_pow).1

theorem calcLocHistIdx_lt (pc : Addr) : calcLocHistIdx p pc < p.localHistoryTableSize := by
  rw [BitVec.lt_def]
  unfold calcLocHistIdx
  exact and_sub_one_lt _ (isPowerOf2_pos p.localHistoryTableSize_pow)

private theorem calcLocHistIdx_ne (pc : Addr) : calcLocHistIdx p pc ≠ invalidPredictorIndex := by
  intro h
  have hlt := calcLocHistIdx_lt (p := p) pc
  rw [h, BitVec.lt_def] at hlt
  have hmax : invalidPredictorIndex.toNat = 2 ^ 32 - 1 := rfl
  omega

private theorem localWindow_ne (bits : List Bool) :
    window 32 (localHistoryBits p) bits ≠ invalidPredictorIndex :=
  window_ne_allOnes localHistoryBits_lt bits

private theorem and_localPredictorMask_lt (x : Unsigned) :
    (x &&& localPredictorMask p).toNat < p.localPredictorSize.toNat := by
  obtain ⟨hlt, hsize⟩ := two_pow_ceilLog2 p.localPredictorSize_pow
  have hmask : (localPredictorMask p).toNat ≤ 2 ^ localHistoryBits p - 1 := by
    unfold localPredictorMask mask
    exact Nat.mod_le _ _
  have hand : (x &&& localPredictorMask p).toNat ≤ (localPredictorMask p).toNat := by
    exact Nat.and_le_right
  have hpos : 0 < 2 ^ localHistoryBits p := Nat.two_pow_pos _
  unfold localHistoryBits at hmask hpos
  omega

end

section

variable {p} {b : Branch} {older : List Branch}

private theorem localOutcomes_cons_self (h : b.uncond = false) :
    localOutcomes p (calcLocHistIdx p b.pc).toNat (b :: older) =
      b.taken :: localOutcomes p (calcLocHistIdx p b.pc).toNat older := by
  simp [localOutcomes, outcomes, mapsTo, h]

theorem localOutcomes_cons_other {idx : Nat}
    (h : b.uncond = true ∨ (calcLocHistIdx p b.pc).toNat ≠ idx) :
    localOutcomes p idx (b :: older) = localOutcomes p idx older := by
  have hmaps : mapsTo p idx b = false := by
    obtain h | h := h <;> simp [mapsTo, h]
  simp [localOutcomes, outcomes, hmaps]

end

variable {record : Record}

section

variable {p tid} {s s' : State} {b : Branch} {older : List Branch}

theorem Holds.cons_uncond (h : b.uncond = true)
    (hglobal : s'.globalHistory tid =
      window 32 (globalHistoryBits p) (b.taken :: outcomes older))
    (hlocals : ∀ idx, s'.localHistoryTable idx &&& localPredictorMask p =
      window 32 (localHistoryBits p) (localOutcomes p idx older))
    (hasserted : s'.asserted = true) : Holds p tid (b :: older) s' := by
  refine ⟨hglobal, fun idx => ?_, hasserted⟩
  rw [localOutcomes_cons_other (.inl h)]
  exact hlocals idx

theorem Holds.cons_cond (h : b.uncond = false)
    (hglobal : s'.globalHistory tid =
      window 32 (globalHistoryBits p) (b.taken :: outcomes older))
    (hself : s'.localHistoryTable (calcLocHistIdx p b.pc).toNat &&& localPredictorMask p =
      window 32 (localHistoryBits p)
        (b.taken :: localOutcomes p (calcLocHistIdx p b.pc).toNat older))
    (hlocals : ∀ idx, (calcLocHistIdx p b.pc).toNat ≠ idx →
      s'.localHistoryTable idx &&& localPredictorMask p =
        window 32 (localHistoryBits p) (localOutcomes p idx older))
    (hasserted : s'.asserted = true) : Holds p tid (b :: older) s' := by
  refine ⟨hglobal, fun idx => ?_, hasserted⟩
  by_cases hidx : (calcLocHistIdx p b.pc).toNat = idx
  · subst hidx
    rw [localOutcomes_cons_self h]
    exact hself
  · rw [localOutcomes_cons_other (.inr hidx)]
    exact hlocals idx hidx

theorem Holds.tail_locals (h : Holds p tid (b :: older) s) {idx : Nat}
    (hother : b.uncond = true ∨ (calcLocHistIdx p b.pc).toNat ≠ idx) :
    s.localHistoryTable idx &&& localPredictorMask p =
      window 32 (localHistoryBits p) (localOutcomes p idx older) := by
  rw [← localOutcomes_cons_other hother]
  exact h.locals idx

theorem push_global {x : Unsigned} {bits : List Bool}
    (h : x = window 32 (globalHistoryBits p) bits) (taken : Bool) :
    push x taken &&& historyRegisterMask p = window 32 (globalHistoryBits p) (taken :: bits) := by
  apply push_and_mask
  rw [h]
  exact window_and_mask _ _

theorem push_local {x : Unsigned} {bits : List Bool}
    (h : x &&& localPredictorMask p = window 32 (localHistoryBits p) bits) (taken : Bool) :
    push x taken &&& localPredictorMask p = window 32 (localHistoryBits p) (taken :: bits) :=
  push_and_mask h taken

theorem predict_exact (h : Holds p tid older s) (b : Branch) :
    Holds p tid (b :: older) (predict p tid s b).1 ∧
      Restores p older b (predict p tid s b).2 := by
  have hglobal := push_global h.global b.taken
  cases huncond : b.uncond with
  | true =>
    have hpredict : predict p tid s b =
        (updateGlobalHist p (s.check true) tid b.taken,
          { history := some (uncondHistory (s.check true) tid), read := reads p s tid b.pc }) := by
      unfold predict
      rw [huncond]
      rfl
    rw [hpredict]
    refine ⟨.cons_uncond huncond ?_ h.locals ?_, _, rfl, h.global, fun _ => ⟨rfl, rfl⟩, ?_, ?_⟩
    · simpa [updateGlobalHist, State.check] using hglobal
    · simpa [updateGlobalHist, State.check] using h.asserted
    · intro hfalse
      exact absurd (huncond.symm.trans hfalse) (by decide)
    · intro hfalse
      exact absurd (huncond.symm.trans hfalse) (by decide)
  | false =>
    have hpredict : predict p tid s b =
        (updateLocalHist (updateGlobalHist p
            ((s.check (decide (calcLocHistIdx p b.pc < p.localHistoryTableSize))).check true)
            tid b.taken) (calcLocHistIdx p b.pc) b.taken,
          { history := some (lookup p s tid b.pc).2.2, read := reads p s tid b.pc }) := by
      unfold predict
      rw [huncond]
      rfl
    rw [hpredict]
    refine ⟨.cons_cond huncond ?_ ?_ ?_ ?_, _, rfl, h.global, ?_, fun _ => ⟨rfl, ?_⟩, fun _ => rfl⟩
    · simpa [updateLocalHist, updateGlobalHist, State.check] using hglobal
    · simpa [updateLocalHist, updateGlobalHist, State.check] using
        push_local (h.locals (calcLocHistIdx p b.pc).toNat) b.taken
    · intro idx hidx
      simpa [updateLocalHist, updateGlobalHist, State.check, update_of_ne hidx.symm] using
        h.locals idx
    · simpa [updateLocalHist, updateGlobalHist, State.check, calcLocHistIdx_lt] using h.asserted
    · intro htrue
      exact absurd (huncond.symm.trans htrue) (by decide)
    · exact h.locals _

theorem correct_exact (h : Holds p tid (b :: older) s) (hrestores : Restores p older b record)
    (taken : Bool) :
    Holds p tid ({ b with taken } :: older)
        (update p s tid b.pc taken record.history true).1 ∧
      (update p s tid b.pc taken record.history true).2 = record.history := by
  obtain ⟨history, hhistory, hsaves⟩ := hrestores
  rw [hhistory]
  refine ⟨?_, rfl⟩
  have hglobal := push_global hsaves.global taken
  have hupdate : (update p s tid b.pc taken (some history) true).1 =
      correct p (s.check (decide (calcLocHistIdx p b.pc < p.localHistoryTableSize))) tid b.pc taken
        history := rfl
  rw [hupdate]
  obtain huncond | huncond := Bool.eq_false_or_eq_true b.uncond
  · have hinvalid := (hsaves.uncond huncond).2
    apply Holds.cons_uncond (b := { b with taken }) huncond
    · simpa [correct, hinvalid] using hglobal
    · intro idx
      simpa [correct, hinvalid, State.check] using h.tail_locals (.inl huncond)
    · simpa [correct, hinvalid, State.check, calcLocHistIdx_lt] using h.asserted
  · have hlocal := (hsaves.cond huncond).2
    have hvalid : history.localHistory ≠ invalidPredictorIndex := by
      rw [hlocal]
      exact localWindow_ne _
    have hpush := push_local (p := p) (x := history.localHistory)
      (by rw [hlocal]; exact window_and_mask _ _) taken
    apply Holds.cons_cond (b := { b with taken }) huncond
    · simpa [correct, hvalid] using hglobal
    · simpa [correct, hvalid] using hpush
    · intro idx hidx
      simpa [correct, hvalid, State.check, update_of_ne hidx.symm] using
        h.tail_locals (.inr hidx)
    · simpa [correct, hvalid, State.check, calcLocHistIdx_lt] using h.asserted

theorem squash_exact (h : Holds p tid (b :: older) s) (hrestores : Restores p older b record) :
    Holds p tid older (squash s tid record.history).1 := by
  obtain ⟨history, hhistory, hsaves⟩ := hrestores
  rw [hhistory]
  obtain huncond | huncond := Bool.eq_false_or_eq_true b.uncond
  · have hinvalid := (hsaves.uncond huncond).1
    refine ⟨?_, fun idx => ?_, ?_⟩
    · simpa [squash, hinvalid] using hsaves.global
    · simpa [squash, hinvalid] using h.tail_locals (.inl huncond)
    · simpa [squash, hinvalid] using h.asserted
  · obtain ⟨hidx, hlocal⟩ := hsaves.cond huncond
    have hvalid := calcLocHistIdx_ne (p := p) b.pc
    refine ⟨?_, fun idx => ?_, ?_⟩
    · simpa [squash, hidx, hvalid] using hsaves.global
    · by_cases hself : (calcLocHistIdx p b.pc).toNat = idx
      · subst hself
        have hwindow : history.localHistory &&& localPredictorMask p = history.localHistory := by
          rw [hlocal]
          exact window_and_mask _ _
        simpa [squash, hidx, hvalid, hwindow] using hlocal
      · simpa [squash, hidx, hvalid, update_of_ne (Ne.symm hself)] using
          h.tail_locals (.inr hself)
    · simpa [squash, hidx, hvalid] using h.asserted

theorem train_histories (s : State) (taken : Bool) (history : BPHistory) :
    (train p s taken history).globalHistory = s.globalHistory ∧
      (train p s taken history).localHistoryTable = s.localHistoryTable ∧
      (train p s taken history).asserted = s.asserted := by
  have hmask := and_localPredictorMask_lt (p := p) history.localHistory
  have hchoice : ∀ s : State,
      (trainChoice p s taken history).globalHistory = s.globalHistory ∧
        (trainChoice p s taken history).localHistoryTable = s.localHistoryTable ∧
        (trainChoice p s taken history).asserted = s.asserted := by
    intro s
    unfold trainChoice
    split_ifs <;> exact ⟨rfl, rfl, rfl⟩
  obtain ⟨hglobal, hlocal, hasserted⟩ := hchoice (s.check (decide
    ((history.localHistory &&& localPredictorMask p).toNat < p.localPredictorSize.toNat)))
  have hcheck : (s.check (decide ((history.localHistory &&& localPredictorMask p).toNat <
      p.localPredictorSize.toNat))).asserted = s.asserted := by
    simp only [State.check, decide_eq_true hmask, Bool.and_true]
  unfold train
  split_ifs <;> exact ⟨hglobal, hlocal, hasserted.trans hcheck⟩

theorem commit_exact (h : Holds p tid older s) {rest : List Branch}
    (hrestores : Restores p rest b record) :
    Holds p tid older (update p s tid b.pc b.taken record.history false).1 := by
  obtain ⟨history, hhistory, -⟩ := hrestores
  rw [hhistory]
  have hupdate : (update p s tid b.pc b.taken (some history) false).1 =
      train p (s.check (decide (calcLocHistIdx p b.pc < p.localHistoryTableSize))) b.taken
        history := rfl
  obtain ⟨hglobal, hlocal, hasserted⟩ := train_histories (p := p)
    (s.check (decide (calcLocHistIdx p b.pc < p.localHistoryTableSize))) b.taken history
  rw [hupdate]
  refine ⟨?_, fun idx => ?_, ?_⟩
  · rw [hglobal]
    exact h.global
  · rw [hlocal]
    exact h.locals idx
  · rw [hasserted]
    simpa [State.check, calcLocHistIdx_lt] using h.asserted

theorem machine_exact :
    Exact (machine p tid) (fun live committed s => Holds p tid (live ++ committed) s)
      (Restores p) (fun _ _ => True) where
  enter := fun b h _ => predict_exact h b
  correct := by
    intro s b record rest committed taken h hrestores _
    obtain ⟨hholds, hrecord⟩ := correct_exact h hrestores taken
    refine ⟨hholds, ?_⟩
    obtain ⟨history, hhistory, hsaves⟩ := hrestores
    exact ⟨history, hrecord.trans hhistory, hsaves.global, hsaves.uncond, hsaves.cond, hsaves.read⟩
  undo := fun h hrestores _ => squash_exact h hrestores
  retire := by
    intro s b record rest committed h hrestores _
    have hholds := commit_exact h hrestores
    rwa [List.append_assoc] at hholds
  other := fun w _ _ => w.elim

end

structure CountersFrame (read : Reads) (s s' : State) : Prop where
  localCtrs : ∀ i, i ≠ read.localCtr.toNat → s'.localCtrs i = s.localCtrs i
  globalCtrs : ∀ i, i ≠ read.globalCtr.toNat → s'.globalCtrs i = s.globalCtrs i
  choiceCtrs : ∀ i, i ≠ read.choiceCtr.toNat → s'.choiceCtrs i = s.choiceCtrs i

variable {p tid}

theorem train_frame (s : State) (taken : Bool) (history : BPHistory) :
    CountersFrame
      { localCtr := history.localHistory &&& localPredictorMask p
        globalCtr := history.globalHistory &&& globalHistoryMask p
        choiceCtr := history.globalHistory &&& choiceHistoryMask p }
      s (train p s taken history) := by
  have hchoice : ∀ s : State,
      (trainChoice p s taken history).localCtrs = s.localCtrs ∧
        (trainChoice p s taken history).globalCtrs = s.globalCtrs ∧
        ∀ i, i ≠ (history.globalHistory &&& choiceHistoryMask p).toNat →
          (trainChoice p s taken history).choiceCtrs i = s.choiceCtrs i := by
    intro s
    unfold trainChoice
    split_ifs
    · exact ⟨rfl, rfl, fun i hi => update_of_ne hi _ _⟩
    · exact ⟨rfl, rfl, fun i hi => update_of_ne hi _ _⟩
    · exact ⟨rfl, rfl, fun _ _ => rfl⟩
    · exact ⟨rfl, rfl, fun _ _ => rfl⟩
  obtain ⟨hlocal, hglobal, hchoice⟩ := hchoice (s.check (decide
    ((history.localHistory &&& localPredictorMask p).toNat < p.localPredictorSize.toNat)))
  unfold train
  split_ifs
  · refine ⟨fun i hi => ?_, fun i hi => ?_, hchoice⟩
    · exact (update_of_ne hi _ _).trans (congrFun hlocal i)
    · exact (update_of_ne hi _ _).trans (congrFun hglobal i)
  · refine ⟨fun i _ => congrFun hlocal i, fun i hi => ?_, hchoice⟩
    exact (update_of_ne hi _ _).trans (congrFun hglobal i)

private theorem commit_frame {s : State} {b : Branch} {older : List Branch}
    (hrestores : Restores p older b record) (huncond : b.uncond = false) :
    CountersFrame record.read s (update p s tid b.pc b.taken record.history false).1 := by
  obtain ⟨history, hhistory, hsaves⟩ := hrestores
  have hwindow : history.localHistory &&& localPredictorMask p = history.localHistory := by
    rw [(hsaves.cond huncond).2]
    exact window_and_mask _ _
  have hframe := train_frame (p := p)
    (s.check (decide (calcLocHistIdx p b.pc < p.localHistoryTableSize))) b.taken history
  rw [hwindow, ← hsaves.read huncond] at hframe
  rw [hhistory]
  exact { hframe with }

/-- After every run the register holds the outcomes of all surviving branches,
each local history those of its own conditional ones, and the commit of the
oldest branch changes only counters its lookup read. -/
theorem tournament_histories_exact (events : List (Event Branch Bool Empty)) :
    let st := run (machine p tid) {} events
    st.history.globalHistory tid = window 32 (globalHistoryBits p) (outcomes st.survivors) ∧
      (∀ idx, st.history.localHistoryTable idx &&& localPredictorMask p =
        window 32 (localHistoryBits p) (localOutcomes p idx st.survivors)) ∧
      ∀ b record, st.live.getLast? = some (b, record) → b.uncond = false →
        CountersFrame record.read st.history (step (machine p tid) st .retire).history := by
  have hstart : Holds p tid [] {} := by
    refine ⟨?_, fun idx => ?_, rfl⟩
    · exact (window_nil _).symm
    · exact (BitVec.zero_and).trans (window_nil _).symm
  have hinv := machine_exact.run_inv (M := machine p tid) hstart
    (Lib.Protocol.legal_of_forall fun e (_ : e ∈ events) _ => trivial)
  refine ⟨hinv.reflects.global, hinv.reflects.locals, ?_⟩
  intro b record hlast huncond
  rw [step_retire _ hlast]
  exact commit_frame (hinv.saved.getLast? hlast) huncond

/-- A branch that is mispredicted, corrected and committed. -/
theorem tournament_histories_exact_corrected :
    let st := run (machine .defaults 0) {}
      [.enter ⟨0x100, false, false⟩, .correct true, .enter ⟨0x104, true, true⟩]
    st.history.globalHistory 0 = 3 ∧
      (∃ b record, st.live.getLast? = some (b, record) ∧ b.uncond = false) ∧
      ∀ b record, st.live.getLast? = some (b, record) → b.uncond = false →
        CountersFrame record.read st.history (step (machine .defaults 0) st .retire).history :=
  ⟨by decide, ⟨_, _, rfl, rfl⟩, (tournament_histories_exact
    [.enter ⟨0x100, false, false⟩, .correct true, .enter ⟨0x104, true, true⟩]).2.2⟩

end Gem5Core.Pred.TournamentExact
