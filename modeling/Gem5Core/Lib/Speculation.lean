import Mathlib.Data.List.Induction
import Gem5Core.Lib.Protocol

/-! Histories that are updated speculatively. An operation enters with a guess of its outcome and
leaves a record; the youngest may be corrected or undone, the oldest retires. The history is exact
if it reflects the operations that survive, with their latest outcomes. -/
namespace Gem5Core.Lib.Speculation
open List Prod

variable {σ β ρ γ ω : Type*}

/-- `σ` is the history, `β` an operation with its outcome, `γ` a new outcome, `ρ` a record, `ω` what
else may happen to the history. -/
structure Machine (σ β ρ γ ω : Type*) where
  enter : σ → β → σ × ρ
  amend : β → γ → β
  correct : σ → β → ρ → γ → σ × ρ
  undo : σ → β → ρ → σ
  retire : σ → β → ρ → σ
  other : σ → ω → σ

/-- `live` holds the operations in flight with their records, `committed` those
that retired, both youngest first. -/
structure State (σ β ρ : Type*) where
  history : σ
  live : List (β × ρ) := []
  committed : List β := []

namespace State

def inFlight (st : State σ β ρ) : List β := st.live.map fst

def survivors (st : State σ β ρ) : List β := st.inFlight ++ st.committed

end State

inductive Event (β γ ω : Type*) where
  | enter (b : β)
  | correct (outcome : γ)
  | undo
  | retire
  | other (w : ω)

variable {st : State σ β ρ}

section

variable (M : Machine σ β ρ γ ω)

def step (st : State σ β ρ) : Event β γ ω → State σ β ρ
  | .enter b =>
      let (history, record) := M.enter st.history b
      { st with history, live := (b, record) :: st.live }
  | .correct outcome =>
      match st.live with
      | [] => st
      | (b, record) :: rest =>
          let (history, record) := M.correct st.history b record outcome
          { st with history, live := (M.amend b outcome, record) :: rest }
  | .undo =>
      match st.live with
      | [] => st
      | (b, record) :: rest => { st with history := M.undo st.history b record, live := rest }
  | .retire =>
      match st.live.getLast? with
      | none => st
      | some (b, record) =>
          { history := M.retire st.history b record
            live := st.live.dropLast
            committed := b :: st.committed }
  | .other w => { st with history := M.other st.history w }

theorem step_retire {b : β} {record : ρ} (h : st.live.getLast? = some (b, record)) :
    step M st .retire =
      { history := M.retire st.history b record
        live := st.live.dropLast
        committed := b :: st.committed } := by
  unfold step
  rw [h]

def run (start : σ) (events : List (Event β γ ω)) : State σ β ρ :=
  Protocol.run (step M) { history := start } events

def Legal (Allowed : State σ β ρ → Event β γ ω → Prop) (start : σ)
    (events : List (Event β γ ω)) : Prop :=
  Protocol.Legal (step M) Allowed { history := start } events

instance (Allowed : State σ β ρ → Event β γ ω → Prop) [∀ st event, Decidable (Allowed st event)]
    (start : σ) (events : List (Event β γ ω)) : Decidable (Legal M Allowed start events) :=
  Protocol.decidableLegal (step M) Allowed { history := start } events

end

variable {events : List (Event β γ ω)}

section

variable {M : Machine σ β ρ γ ω} {Reflects : List β → List β → σ → Prop}
  {Restores : List β → β → ρ → Prop} {Allowed : State σ β ρ → Event β γ ω → Prop}

/-- The laws under which a machine is exact. `Reflects live committed s`: `s` is the history of
these operations. `Restores older b record`: the record of `b` can bring back that of the `older`
ones. -/
structure Exact (M : Machine σ β ρ γ ω) (Reflects : List β → List β → σ → Prop)
    (Restores : List β → β → ρ → Prop) (Allowed : State σ β ρ → Event β γ ω → Prop) : Prop where
  enter : ∀ {s live committed} b, Reflects (live.map fst) committed s →
    Allowed ⟨s, live, committed⟩ (.enter b) →
    Reflects (b :: live.map fst) committed (M.enter s b).1 ∧
      Restores (live.map fst ++ committed) b (M.enter s b).2
  correct : ∀ {s b record rest committed} outcome,
    Reflects (b :: rest.map fst) committed s →
    Restores (rest.map fst ++ committed) b record →
    Allowed ⟨s, (b, record) :: rest, committed⟩ (.correct outcome) →
    Reflects (M.amend b outcome :: rest.map fst) committed
        (M.correct s b record outcome).1 ∧
      Restores (rest.map fst ++ committed) (M.amend b outcome)
        (M.correct s b record outcome).2
  undo : ∀ {s b record rest committed}, Reflects (b :: rest.map fst) committed s →
    Restores (rest.map fst ++ committed) b record →
    Allowed ⟨s, (b, record) :: rest, committed⟩ .undo →
    Reflects (rest.map fst) committed (M.undo s b record)
  retire : ∀ {s b record rest committed}, Reflects (rest.map fst ++ [b]) committed s →
    Restores committed b record →
    Allowed ⟨s, rest ++ [(b, record)], committed⟩ .retire →
    Reflects (rest.map fst) (b :: committed) (M.retire s b record)
  other : ∀ {s live committed} w, Reflects (live.map fst) committed s →
    Allowed ⟨s, live, committed⟩ (.other w) →
    Reflects (live.map fst) committed (M.other s w)

def Saved (Restores : List β → β → ρ → Prop) : List (β × ρ) → List β → Prop
  | [], _ => True
  | (b, record) :: rest, committed =>
      Restores (rest.map fst ++ committed) b record ∧ Saved Restores rest committed

theorem saved_append {live : List (β × ρ)} {b : β} {record : ρ} {committed : List β} :
    Saved Restores (live ++ [(b, record)]) committed ↔
      Saved Restores live (b :: committed) ∧ Restores committed b record := by
  induction live with
  | nil => simp [Saved]
  | cons newer live ih =>
    simp only [cons_append, Saved, ih, map_append, map_cons, map_nil,
      append_assoc, nil_append, and_assoc]

theorem Saved.getLast? {live : List (β × ρ)} {b : β} {record : ρ} {committed : List β}
    (h : Saved Restores live committed) (hlast : live.getLast? = some (b, record)) :
    Restores committed b record := by
  obtain ⟨rest, rfl⟩ := List.getLast?_eq_some_iff.mp hlast
  exact (saved_append.mp h).2

structure Inv (Reflects : List β → List β → σ → Prop) (Restores : List β → β → ρ → Prop)
    (st : State σ β ρ) : Prop where
  reflects : Reflects st.inFlight st.committed st.history
  saved : Saved Restores st.live st.committed

theorem Exact.step_inv (hM : Exact M Reflects Restores Allowed) (h : Inv Reflects Restores st)
    {event : Event β γ ω} (hallowed : Allowed st event) :
    Inv Reflects Restores (step M st event) := by
  obtain ⟨history, live, committed⟩ := st
  obtain ⟨hreflects, hsaved⟩ := h
  cases event with
  | enter b =>
    obtain ⟨hreflects', hrestores⟩ := hM.enter b hreflects hallowed
    exact ⟨hreflects', hrestores, hsaved⟩
  | correct outcome =>
    cases live with
    | nil => exact ⟨hreflects, hsaved⟩
    | cons youngest rest =>
      obtain ⟨hreflects', hrestores⟩ := hM.correct outcome hreflects hsaved.1 hallowed
      exact ⟨hreflects', hrestores, hsaved.2⟩
  | undo =>
    cases live with
    | nil => exact ⟨hreflects, hsaved⟩
    | cons youngest rest => exact ⟨hM.undo hreflects hsaved.1 hallowed, hsaved.2⟩
  | retire =>
    cases live using List.reverseRecOn with
    | nil => exact ⟨hreflects, hsaved⟩
    | append_singleton rest oldest =>
      obtain ⟨hrest, hrestores⟩ := saved_append.mp hsaved
      have hstep : step M ⟨history, rest ++ [oldest], committed⟩ .retire =
          ⟨M.retire history oldest.1 oldest.2, rest, oldest.1 :: committed⟩ := by
        rw [step_retire M List.getLast?_concat, dropLast_concat]
      rw [hstep]
      refine ⟨hM.retire ?_ hrestores hallowed, hrest⟩
      simpa [State.inFlight] using hreflects
  | other w => exact ⟨hM.other w hreflects hallowed, hsaved⟩

theorem Exact.run_inv (hM : Exact M Reflects Restores Allowed) {start : σ}
    (hstart : Reflects [] [] start) (hlegal : Legal M Allowed start events) :
    Inv Reflects Restores (run M start events) :=
  Protocol.run_inv (Inv Reflects Restores) (fun _ _ h hallowed => hM.step_inv h hallowed) events
    ⟨hstart, trivial⟩ hlegal

/-- `Good` is lost at every step from an exact state that `Base` permits and
`Kept` does not. -/
def Strict (M : Machine σ β ρ γ ω) (Inv Good : State σ β ρ → Prop)
    (Base Kept : State σ β ρ → Event β γ ω → Prop) : Prop :=
  ∀ {st : State σ β ρ} {event : Event β γ ω}, Inv st → Base st event → Good (step M st event) →
    Kept st event

section

variable {Good : State σ β ρ → Prop} {Base Kept : State σ β ρ → Event β γ ω → Prop}

theorem Exact.foldl_good_iff
    (hM : Exact M Reflects Restores fun st event => Base st event ∧ Kept st event)
    (hgood : ∀ {st}, Inv Reflects Restores st → Good st)
    (hstrict : Strict M (Inv Reflects Restores) Good Base Kept) (h : Inv Reflects Restores st)
    (hbase : Protocol.Legal (step M) Base st events) :
    (∀ seen, seen <+: events → Good (Protocol.run (step M) st seen)) ↔
      Protocol.Legal (step M) Kept st events := by
  induction events generalizing st with
  | nil =>
    refine iff_of_true ?_ trivial
    intro seen hseen
    rw [prefix_nil.mp hseen]
    exact hgood h
  | cons event rest ih =>
    obtain ⟨hfirst, hrest⟩ := hbase
    constructor
    · intro hall
      have hkept : Kept st event :=
        hstrict h hfirst (hall [event] ((prefix_cons_inj event).mpr nil_prefix))
      refine ⟨hkept, (ih (hM.step_inv h ⟨hfirst, hkept⟩) hrest).mp ?_⟩
      intro seen hseen
      exact hall (event :: seen) ((prefix_cons_inj event).mpr hseen)
    · rintro ⟨hkept, hkeeps⟩ seen hseen
      obtain rfl | ⟨later, rfl, hlater⟩ := prefix_cons_iff.mp hseen
      · exact hgood h
      · exact (ih (hM.step_inv h ⟨hfirst, hkept⟩) hrest).mpr hkeeps later hlater

/-- A run that `Base` permits is good in every state it reaches just when every
step is also one of `Kept`. -/
theorem Exact.run_good_iff
    (hM : Exact M Reflects Restores fun st event => Base st event ∧ Kept st event)
    (hgood : ∀ {st}, Inv Reflects Restores st → Good st)
    (hstrict : Strict M (Inv Reflects Restores) Good Base Kept) {start : σ}
    (hstart : Reflects [] [] start) (hbase : Legal M Base start events) :
    (∀ seen, seen <+: events → Good (run M start seen)) ↔ Legal M Kept start events :=
  hM.foldl_good_iff hgood hstrict ⟨hstart, trivial⟩ hbase

end

end

end Gem5Core.Lib.Speculation
