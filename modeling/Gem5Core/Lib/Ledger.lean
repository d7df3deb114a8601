import Mathlib.Logic.Function.Basic

/-! A heap seen through its ledger: addresses are handed out once and each `delete` is counted.
`Owns` says that nothing is leaked and nothing is deleted twice. -/
namespace Gem5Core.Lib.Ledger
open Function

structure Heap where
  next : Nat
  deletes : Nat → Nat

def Heap.empty : Heap := ⟨0, fun _ => 0⟩

def Heap.new (heap : Heap) : Heap := { heap with next := heap.next + 1 }

def Heap.delete (heap : Heap) (a : Nat) : Heap :=
  { heap with deletes := Function.update heap.deletes a (heap.deletes a + 1) }

theorem Heap.deletes_delete_self (heap : Heap) (a : Nat) :
    (heap.delete a).deletes a = heap.deletes a + 1 :=
  update_self ..

theorem Heap.deletes_delete_of_ne (heap : Heap) {a b : Nat} (h : b ≠ a) :
    (heap.delete a).deletes b = heap.deletes b :=
  update_of_ne h ..

/-- What one call can do to a pointer variable and its heap: keep both, fill a null pointer by
`new`, or `delete` the object and null the pointer. -/
inductive Moves (heap : Heap) : Option Nat → Heap → Option Nat → Prop where
  | keep (ptr : Option Nat) : Moves heap ptr heap ptr
  | new : Moves heap none heap.new (some heap.next)
  | delete (a : Nat) : Moves heap (some a) (heap.delete a) none

variable {ι : Type}

/-- `holder k` is the pointer kept at `k`. An address in use is held at exactly
one place and was never deleted; an allocated address held nowhere was deleted
exactly once. -/
structure Owns (heap : Heap) (holder : ι → Option Nat) : Prop where
  held : ∀ k a, holder k = some a → a < heap.next ∧ heap.deletes a = 0
  unique : ∀ k k' a, holder k = some a → holder k' = some a → k = k'
  released : ∀ a, a < heap.next → (∀ k, holder k ≠ some a) → heap.deletes a = 1
  fresh : ∀ a, heap.next ≤ a → heap.deletes a = 0

theorem owns_empty : Owns Heap.empty fun _ : ι => none where
  held := by
    intro k a h
    cases h
  unique := by
    intro k k' a h
    cases h
  released := by
    intro a h
    exact absurd h (Nat.not_lt_zero a)
  fresh := by
    intro a _
    rfl

variable [DecidableEq ι]

theorem Owns.new {heap : Heap} {holder : ι → Option Nat} (h : Owns heap holder) (k : ι)
    (hnone : holder k = none) :
    Owns heap.new (update holder k (some heap.next)) where
  held := by
    intro k' a ha
    by_cases hk : k' = k
    · subst hk
      rw [update_self] at ha
      cases ha
      exact ⟨Nat.lt_succ_self _, h.fresh _ (Nat.le_refl _)⟩
    · rw [update_of_ne hk] at ha
      have hheld := h.held k' a ha
      exact ⟨Nat.lt_succ_of_lt hheld.1, hheld.2⟩
  unique := by
    have hold : ∀ k' a, holder k' = some a → a ≠ heap.next := by
      intro k' a ha
      exact Nat.ne_of_lt (h.held k' a ha).1
    intro k₁ k₂ a h₁ h₂
    by_cases hk₁ : k₁ = k <;> by_cases hk₂ : k₂ = k
    · rw [hk₁, hk₂]
    · subst hk₁
      rw [update_self] at h₁
      rw [update_of_ne hk₂] at h₂
      cases h₁
      exact absurd rfl (hold k₂ _ h₂)
    · subst hk₂
      rw [update_self] at h₂
      rw [update_of_ne hk₁] at h₁
      cases h₂
      exact absurd rfl (hold k₁ _ h₁)
    · rw [update_of_ne hk₁] at h₁
      rw [update_of_ne hk₂] at h₂
      exact h.unique k₁ k₂ a h₁ h₂
  released := by
    intro a ha hnot
    have hne : a ≠ heap.next := by
      intro he
      subst he
      exact hnot k (update_self ..)
    have hlt : a < heap.next + 1 := ha
    apply h.released a (by omega)
    intro k' hk'
    have hkk : k' ≠ k := by
      intro he
      rw [he, hnone] at hk'
      cases hk'
    exact hnot k' (by rw [update_of_ne hkk]; exact hk')
  fresh := by
    intro a ha
    have hlt : heap.next + 1 ≤ a := ha
    exact h.fresh a (by omega)

theorem Owns.delete {heap : Heap} {holder : ι → Option Nat} (h : Owns heap holder) (k : ι)
    (a : Nat) (hk : holder k = some a) :
    Owns (heap.delete a) (update holder k none) where
  held := by
    intro k' b hb
    have hkk : k' ≠ k := by
      intro he
      rw [he, update_self] at hb
      cases hb
    rw [update_of_ne hkk] at hb
    have hba : b ≠ a := by
      intro he
      exact hkk (h.unique k' k a (he ▸ hb) hk)
    refine ⟨(h.held k' b hb).1, ?_⟩
    rw [Heap.deletes_delete_of_ne heap hba]
    exact (h.held k' b hb).2
  unique := by
    intro k₁ k₂ b h₁ h₂
    have hkk : ∀ k', update holder k none k' = some b → holder k' = some b := by
      intro k' hk'
      by_cases he : k' = k
      · rw [he, update_self] at hk'
        cases hk'
      · rwa [update_of_ne he] at hk'
    exact h.unique k₁ k₂ b (hkk k₁ h₁) (hkk k₂ h₂)
  released := by
    intro b hb hnot
    by_cases hba : b = a
    · subst hba
      rw [Heap.deletes_delete_self, (h.held k b hk).2]
    · rw [Heap.deletes_delete_of_ne heap hba]
      apply h.released b hb
      intro k' hk'
      have hkk : k' ≠ k := by
        intro he
        rw [he, hk] at hk'
        exact hba (Option.some.inj hk').symm
      exact hnot k' (by rw [update_of_ne hkk]; exact hk')
  fresh := by
    intro b hb
    have hlt := (h.held k a hk).1
    have hle : heap.next ≤ b := hb
    rw [Heap.deletes_delete_of_ne heap (by omega)]
    exact h.fresh b hb

theorem Owns.moves {heap heap' : Heap} {holder : ι → Option Nat} {ptr ptr' : Option Nat}
    (h : Owns heap holder) (k : ι) (hk : holder k = ptr) (hmoves : Moves heap ptr heap' ptr') :
    Owns heap' (update holder k ptr') := by
  cases hmoves with
  | keep =>
    rw [← hk, update_eq_self]
    exact h
  | new => exact h.new k hk
  | delete a => exact h.delete k a hk

section
variable {γ ρ τ : Type} {R S : γ → ρ → γ → ρ → Prop}

/-- A call on a component that may be absent, and on what is kept of it. `R` relates both before
and after the call, which is not made if there is no component. -/
inductive Called (R : γ → ρ → γ → ρ → Prop) : Option γ → ρ → Option γ → ρ → Prop where
  | absent (r : ρ) : Called R none r none r
  | present {x x' : γ} {r r' : ρ} (h : R x r x' r') : Called R (some x) r (some x') r'

def Returns (f : γ → ρ → γ × ρ) (x : γ) (r : ρ) (x' : γ) (r' : ρ) : Prop := f x r = (x', r')

variable {c c' c'' : Option γ} {r r' r'' : ρ}

theorem Called.returns {f : γ → ρ → γ × ρ} (h : Called (Returns f) c r c' r') {x : γ}
    (hc : c = some x) : c' = some (f x r).1 ∧ r' = (f x r).2 := by
  subst hc
  cases h with
  | present h => exact ⟨congrArg some (congrArg Prod.fst h).symm, (congrArg Prod.snd h).symm⟩

theorem Called.trans (h : Called R c r c' r') (h' : Called S c' r' c'' r'') :
    Called (fun x r x'' r'' => ∃ x' r', R x r x' r' ∧ S x' r' x'' r'') c r c'' r'' := by
  cases h with
  | absent =>
    cases h'
    exact .absent _
  | present h =>
    cases h' with
    | present h' => exact .present ⟨_, _, h, h'⟩

theorem Called.map {T : γ → τ → γ → τ → Prop} (f : ρ → τ) (h : Called R c r c' r')
    (hT : ∀ x x', R x r x' r' → T x (f r) x' (f r')) : Called T c (f r) c' (f r') := by
  cases h with
  | absent => exact .absent _
  | present h => exact .present (hT _ _ h)

theorem Called.kept {P : ρ → Prop} (h : Called R c r c' r') (habsent : c = none → P r)
    (hpresent : ∀ x x', R x r x' r' → P r') : P r' := by
  cases h with
  | absent => exact habsent rfl
  | present h => exact hpresent _ _ h

end

section
variable {γ : Type} (heap : γ → Heap) (sound : γ → Bool)

/-- A component that may be absent: when it is there it is sound and owns exactly what is held, when
it is not nothing is held. -/
structure Custody (component : Option γ) (holder : ι → Option Nat) : Prop where
  owned : ∀ x, component = some x → sound x = true ∧ Owns (heap x) holder
  absent : component = none → ∀ k, holder k = none

def Handled (x : γ) (ptr : Option Nat) (x' : γ) (ptr' : Option Nat) : Prop :=
  Moves (heap x) ptr (heap x') ptr' ∧ sound x' = sound x

variable {heap sound}

section
variable {ρ : Type} {c c' : Option γ} {r r' : Option ρ} {f : γ → Option ρ → γ × Option ρ}

theorem Called.handles (addr : ρ → Nat) (h : Called (Returns f) c r c' r')
    (hf : ∀ x, Handled heap sound x (r.map addr) (f x r).1 ((f x r).2.map addr)) :
    Called (Handled heap sound) c (r.map addr) c' (r'.map addr) := by
  refine h.map (Option.map addr) fun x x' hx => ?_
  have hhandled := hf x
  rwa [hx] at hhandled

theorem Called.releases (addr : ρ → Nat) (h : Called (Returns f) c r c' r')
    (habsent : c = none → r = none)
    (hf : ∀ x, Handled heap sound x (r.map addr) (f x r).1 none ∧ (f x r).2 = none) :
    Called (Handled heap sound) c (r.map addr) c' none ∧ r' = none := by
  have hnull : r' = none := h.kept (P := (· = none)) habsent fun x _ hx =>
    (congrArg Prod.snd hx).symm.trans (hf x).2
  refine ⟨?_, hnull⟩
  have hhandles := h.handles addr fun x => ((hf x).2.symm ▸ (hf x).1 : Handled heap sound _ _ _ _)
  rwa [hnull] at hhandles

end

theorem Custody.handle {component component' : Option γ} {holder : ι → Option Nat}
    {ptr ptr' : Option Nat} (h : Custody heap sound component holder) (k : ι)
    (hk : holder k = ptr) (hhandles : Called (Handled heap sound) component ptr component' ptr') :
    Custody heap sound component' (update holder k ptr') := by
  cases hhandles with
  | absent =>
    rw [← hk, update_eq_self]
    exact h
  | present hhandled =>
    obtain ⟨hx, howns⟩ := h.owned _ rfl
    constructor
    · rintro _ ⟨⟩
      exact ⟨hhandled.2.trans hx, howns.moves k hk hhandled.1⟩
    · nofun

end

end Gem5Core.Lib.Ledger
