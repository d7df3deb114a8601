import Mathlib.Init

/-! Runs of a step function whose callers keep to a discipline: in every state only
some events are allowed. -/
namespace Gem5Core.Lib.Protocol

variable {σ ε : Type*} (step : σ → ε → σ) (Allowed : σ → ε → Prop)

def run (s : σ) (events : List ε) : σ := events.foldl step s

@[simp] theorem run_nil (s : σ) : run step s [] = s := rfl

@[simp] theorem run_cons (s : σ) (e : ε) (events : List ε) :
    run step s (e :: events) = run step (step s e) events := rfl

/-- Every event is allowed in the state in which it happens. -/
def Legal : σ → List ε → Prop
  | _, [] => True
  | s, e :: events => Allowed s e ∧ Legal (step s e) events

instance decidableLegal [∀ s e, Decidable (Allowed s e)] :
    ∀ (s : σ) (events : List ε), Decidable (Legal step Allowed s events)
  | _, [] => .isTrue trivial
  | s, e :: events => @instDecidableAnd _ _ _ (decidableLegal (step s e) events)

variable {step Allowed}

variable {s : σ} {events : List ε}

theorem legal_of_forall (h : ∀ e ∈ events, ∀ s, Allowed s e) : Legal step Allowed s events := by
  induction events generalizing s with
  | nil => trivial
  | cons e events ih =>
    exact ⟨h e List.mem_cons_self s, ih fun e' he' => h e' (List.mem_cons_of_mem _ he')⟩

theorem Legal.and {Allowed' : σ → ε → Prop} (h : Legal step Allowed s events)
    (h' : Legal step Allowed' s events) :
    Legal step (fun s e => Allowed s e ∧ Allowed' s e) s events := by
  induction events generalizing s with
  | nil => trivial
  | cons e events ih => exact ⟨⟨h.1, h'.1⟩, ih h.2 h'.2⟩

/-- What every allowed event keeps holds along every legal run. -/
theorem run_inv (Inv : σ → Prop) (hstep : ∀ s e, Inv s → Allowed s e → Inv (step s e))
    (events : List ε) (h : Inv s) (hl : Legal step Allowed s events) :
    Inv (run step s events) := by
  induction events generalizing s with
  | nil => exact h
  | cons e events ih => exact ih (hstep s e h hl.1) hl.2

/-- As `run_inv`, for what relates a state to the events that led to it. -/
theorem run_past (Inv : List ε → σ → Prop)
    (hstep : ∀ past s e, Inv past s → Allowed s e → Inv (past ++ [e]) (step s e))
    (past events : List ε) (h : Inv past s) (hl : Legal step Allowed s events) :
    Inv (past ++ events) (run step s events) := by
  induction events generalizing past s with
  | nil => exact (List.append_nil past).symm ▸ h
  | cons e events ih => exact List.append_cons past e events ▸ ih _ (hstep past s e h hl.1) hl.2

theorem run_always (Inv : σ → Prop) (hstep : ∀ s e, Inv s → Inv (step s e)) (events : List ε)
    (h : Inv s) : Inv (run step s events) := by
  induction events generalizing s with
  | nil => exact h
  | cons e events ih => exact ih (hstep s e h)

end Gem5Core.Lib.Protocol
