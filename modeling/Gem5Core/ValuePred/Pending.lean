import Gem5Core.ValuePred.MarkovLVP

/-! The pending slot of a PC: set by a successful `predict`, consumed by the
next `update` of the same PC. It decides all three accuracy counters. -/
namespace Gem5Core.ValuePred.Pending
open MarkovLVP

/-- Slots exist only for PCs that were updated, so each of them is valid. -/
def AllValid (s : State) : Prop := ∀ pc e, s.vht pc = some e → e.valid = true

variable (p : Params)

theorem init_allValid : AllValid (init p) := by
  intro pc e he
  cases he

variable (s : State)

theorem update_allValid (h : AllValid s) (pc : Addr) (actualVal : Word) (wasPredicted : Bool)
    (predVal : Word) : AllValid (update p s pc actualVal wasPredicted predVal) := by
  intro other e he
  by_cases hpc : other = pc
  · subst hpc
    obtain ⟨e', he', hv, _⟩ := update_vht_self p s other actualVal wasPredicted predVal
    rw [he] at he'
    cases he'
    exact hv
  · rw [update_vht_ne p s hpc] at he
    exact h other e he

theorem predict_allValid (h : AllValid s) (pc : Addr) : AllValid (predict p s pc).1 := by
  rcases predict_cases p s pc with ⟨_, hp⟩ | ⟨e, _, _, _, hp⟩ | ⟨e, _, _, _, _, hp⟩ |
    ⟨e, he, hv, _, _, _, hp⟩
  · rw [hp]; exact h
  · rw [hp]; exact h
  · rw [hp]; exact h
  · rw [hp]
    intro other e' he'
    by_cases hpc : other = pc
    · subst hpc
      simp only [Function.update_self, Option.some.injEq] at he'
      rw [← he']
      exact hv
    · simp only [Function.update_of_ne hpc] at he'
      exact h other e' he'

def slot (s : State) (pc : Addr) : Option Word :=
  (s.vht pc).bind fun e => if e.hasPending then some e.pendingPred else none

theorem slot_init (pc : Addr) : slot (init p) pc = none := rfl

theorem slot_update (pc : Addr) (actualVal : Word) (wasPredicted : Bool) (predVal : Word) :
    slot (update p s pc actualVal wasPredicted predVal) = Function.update (slot s) pc none := by
  funext other
  by_cases h : other = pc
  · subst h
    obtain ⟨e, he, _, hp⟩ := update_vht_self p s other actualVal wasPredicted predVal
    simp [slot, he, hp]
  · simp [slot, update_vht_ne p s h, h]

theorem slot_predict (pc : Addr) : slot (predict p s pc).1 =
      match (predict p s pc).2 with
      | none => slot s
      | some v => Function.update (slot s) pc (some v) := by
  rcases predict_cases p s pc with ⟨_, hp⟩ | ⟨e, _, _, _, hp⟩ | ⟨e, _, _, _, _, hp⟩ |
    ⟨e, he, hv, _, _, _, hp⟩
  · rw [hp]; rfl
  · rw [hp]; rfl
  · rw [hp]; rfl
  · rw [hp]
    funext other
    by_cases h : other = pc
    · subst h
      simp [slot]
    · simp [slot, h]

theorem update_accuracy (hv : AllValid s) (pc : Addr) (actualVal : Word) (wasPredicted : Bool)
    (predVal : Word) : (update p s pc actualVal wasPredicted predVal).stats =
      { s.stats with
        totalLoads := s.stats.totalLoads + 1
        pendingChecked := s.stats.pendingChecked + (if (slot s pc).isSome then 1 else 0)
        correct := s.stats.correct + (if slot s pc = some actualVal then 1 else 0)
        incorrect := s.stats.incorrect +
          (if (slot s pc).isSome ∧ slot s pc ≠ some actualVal then 1 else 0) } := by
  rw [update_stats]
  cases he : s.vht pc with
  | none => simp [slot, he]
  | some e =>
    simp only [Option.getD_some, hv pc e he, if_true, checkPending, slot, he, Option.bind_some]
    cases hpend : e.hasPending with
    | false => simp
    | true =>
      by_cases heq : actualVal = e.pendingPred
      · simp [heq]
      · simp [heq, Ne.symm heq]

theorem predict_accuracy (pc : Addr) :
    (predict p s pc).1.stats.correct = s.stats.correct ∧
      (predict p s pc).1.stats.incorrect = s.stats.incorrect := by
  rcases predict_cases p s pc with ⟨_, hp⟩ | ⟨e, _, _, _, hp⟩ | ⟨e, _, _, _, _, hp⟩ |
    ⟨e, _, _, _, _, _, hp⟩ <;> rw [hp] <;> exact ⟨rfl, rfl⟩

end Gem5Core.ValuePred.Pending
