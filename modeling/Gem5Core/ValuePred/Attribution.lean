import Gem5Core.ValuePred.Pipeline

/-! Which prediction an `update` is scored against: the last answer given for the PC since its
previous `update`, as the predictor keeps one pending slot per PC. -/
namespace Gem5Core.ValuePred.Attribution
open MarkovLVP hiding step run run_concat run_nil
open Pending Pipeline

def observe (answers : Addr → Option Word) : Observed → Addr → Option Word
  | .update c => Function.update answers c.pc none
  | .predict _ none => answers
  | .predict pc (some v) => Function.update answers pc (some v)

/-- The last answer for each PC since its previous `update`, read off the
observed interface calls alone. -/
def outstanding (observed : List Observed) : Addr → Option Word :=
  observed.foldl observe fun _ => none

theorem outstanding_concat (observed : List Observed) (o : Observed) :
    outstanding (observed ++ [o]) = observe (outstanding observed) o := by
  simp [outstanding]

structure Linked (st : Machine) : Prop where
  valid : AllValid st.lvp
  slots : slot st.lvp = outstanding st.observed

variable (p : Params) (st : Machine)

theorem callUpdate_linked (h : Linked st) (c : UpdateCall) : Linked (st.callUpdate p c) where
  valid := update_allValid p st.lvp h.valid c.pc c.actualVal c.wasPredicted c.predVal
  slots := by
    simp only [Machine.callUpdate, slot_update, outstanding_concat, observe, h.slots]

theorem callPredict_linked (h : Linked st) (sn : Nat) (inst : DynInst) :
    Linked (st.callPredict p sn inst) where
  valid := predict_allValid p st.lvp h.valid inst.pc
  slots := by
    simp only [Machine.callPredict, slot_predict, outstanding_concat]
    cases (predict p st.lvp inst.pc).2 with
    | none => exact h.slots
    | some v => simp only [observe, h.slots]

theorem setInst_linked (h : Linked st) (sn : Nat) (inst : Option DynInst) :
    Linked (st.setInst sn inst) :=
  { h with }

theorem step_linked (h : Linked st) (ev : Event) : Linked (step p st ev) := by
  cases ev with
  | rename sn pc isMicroop isNonSpeculative => exact setInst_linked st h sn _
  | dispatch sn =>
    simp only [step]
    split
    · exact h
    · split
      · exact h
      · exact callPredict_linked p st h sn _
  | execute sn memData effSize instResult fault =>
    simp only [step]
    split
    · exact h
    · exact setInst_linked st h sn _
  | writeback sn =>
    simp only [step]
    split
    · exact h
    · exact callUpdate_linked p st h _
  | squash sn =>
    simp only [step]
    split
    · exact h
    · exact setInst_linked st h sn _
  | commitLoad sn =>
    simp only [step]
    split
    · exact h
    · split
      · exact setInst_linked st h sn _
      · rename_i inst _ _ c _
        have hcommit := callPredict_linked p _ (callUpdate_linked p st h c) sn inst
        exact { hcommit with }

theorem run_linked (events : List Event) : Linked (run p events) := by
  induction events using List.reverseRecOn with
  | nil => exact ⟨init_allValid p, rfl⟩
  | append_singleton events ev ih =>
    rw [run_concat]
    exact step_linked p _ ih ev

theorem step_accuracy (ev : Event) :
    ((step p st ev).lvp.stats.correct, (step p st ev).lvp.stats.incorrect) =
      match updateOf st ev with
      | none => (st.lvp.stats.correct, st.lvp.stats.incorrect)
      | some c =>
        ((st.callUpdate p c).lvp.stats.correct, (st.callUpdate p c).lvp.stats.incorrect) := by
  cases ev with
  | rename sn pc isMicroop isNonSpeculative => rfl
  | dispatch sn =>
    simp only [step, updateOf]
    split
    · rfl
    · rename_i inst _
      split
      · rfl
      · have hp := predict_accuracy p st.lvp inst.pc
        simp only [Machine.callPredict, hp.1, hp.2]
  | execute sn memData effSize instResult fault =>
    simp only [step, updateOf]
    split <;> rfl
  | writeback sn =>
    simp only [step, updateOf]
    cases hcall : (st.insts sn).bind DynInst.writebackCall with
    | none => rfl
    | some c => rfl
  | squash sn =>
    simp only [step, updateOf]
    split <;> rfl
  | commitLoad sn =>
    simp only [step, updateOf]
    cases hinst : st.insts sn with
    | none => rfl
    | some inst =>
      simp only [Option.bind_some]
      cases hcall : inst.commitCall with
      | none => rfl
      | some c =>
        have hp := predict_accuracy p (st.callUpdate p c).lvp inst.pc
        simp only [Machine.setInst, Machine.callPredict, hp.1, hp.2]

/-- For every interleaving of pipeline events, an event that calls `update`
moves `correct` or `incorrect` exactly by comparing its value with the last
answer given for its PC since the PC's previous `update`; the instance's own
prediction is not consulted. Other events move neither. -/
theorem scored_by_slot (p : Params) (events : List Event) (ev : Event) :
    let st := run p events
    let st' := run p (events ++ [ev])
    (∀ c, updateOf st ev = some c →
      st'.lvp.stats.correct = st.lvp.stats.correct +
        (if outstanding st.observed c.pc = some c.actualVal then 1 else 0) ∧
      st'.lvp.stats.incorrect = st.lvp.stats.incorrect +
        (if (outstanding st.observed c.pc).isSome ∧
          outstanding st.observed c.pc ≠ some c.actualVal then 1 else 0)) ∧
    (updateOf st ev = none →
      st'.lvp.stats.correct = st.lvp.stats.correct ∧
      st'.lvp.stats.incorrect = st.lvp.stats.incorrect) := by
  have hlinked := run_linked p events
  have hstep := step_accuracy p (run p events) ev
  rw [run_concat]
  constructor
  · intro c hc
    simp only [hc, Prod.mk.injEq] at hstep
    rw [hstep.1, hstep.2, Machine.callUpdate, update_accuracy p _ hlinked.valid, hlinked.slots]
    exact ⟨rfl, rfl⟩
  · intro hnone
    simpa [hnone] using hstep

/-- Scoring by the prediction the instance itself carries. -/
def ScoredByInstance (p : Params) (events : List Event) (ev : Event) : Prop :=
  ∀ c, updateOf (run p events) ev = some c →
    (run p (events ++ [ev])).lvp.stats.correct = (run p events).lvp.stats.correct +
      (if c.wasPredicted = true ∧ c.actualVal = c.predVal then 1 else 0) ∧
    (run p (events ++ [ev])).lvp.stats.incorrect = (run p events).lvp.stats.incorrect +
      (if c.wasPredicted = true ∧ c.actualVal ≠ c.predVal then 1 else 0)

/-- Three microop loads of one PC reading 0, 1, 2, and a fourth waiting to
commit the value 3. -/
def ramp : List Event :=
  [.rename 0 64 true false, .execute 0 (some [0]) 1 none false, .commitLoad 0,
    .rename 1 64 true false, .execute 1 (some [1]) 1 none false, .commitLoad 1,
    .rename 2 64 true false, .execute 2 (some [2]) 1 none false, .commitLoad 2,
    .rename 3 64 true false, .dispatch 3, .execute 3 (some [3]) 1 none false]

/-- The fourth load was never predicted, yet its commit counts as correct. -/
theorem ramp_not_scored_by_instance :
    updateOf (run Params.defaults ramp) (.commitLoad 3) = some ⟨64, 3, false, 0⟩ ∧
      ¬ ScoredByInstance Params.defaults ramp (.commitLoad 3) := by
  have hcall : updateOf (run Params.defaults ramp) (.commitLoad 3) = some ⟨64, 3, false, 0⟩ := by
    decide +kernel
  refine ⟨hcall, ?_⟩
  intro h
  have hcorrect := (h _ hcall).1
  exact absurd hcorrect (by decide +kernel)

end Gem5Core.ValuePred.Attribution
