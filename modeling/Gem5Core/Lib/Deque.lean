import Mathlib.Order.Lattice
import Mathlib.Data.List.Induction
import Mathlib.Data.List.Nodup

/-! A queue of keys consumed at both ends: keys enter in increasing order, the oldest one may be
committed and the youngest one squashed. -/
namespace Gem5Core.Lib.Deque
open List

inductive Event (κ : Type) where
  | enter (k : κ)
  | commit (k : κ)
  | squash (k : κ)
deriving DecidableEq

section
variable {κ : Type}

def departures (t : List (Event κ)) : List κ :=
  t.filterMap fun
    | .enter _ => none
    | .commit k => some k
    | .squash k => some k

def commits (t : List (Event κ)) : List κ :=
  t.filterMap fun
    | .commit k => some k
    | _ => none

def enters (t : List (Event κ)) : List κ :=
  t.filterMap fun
    | .enter k => some k
    | _ => none

variable (t : List (Event κ)) (k : κ)

theorem mem_enters : k ∈ enters t ↔ .enter k ∈ t := by
  simp only [enters, mem_filterMap]
  constructor
  · rintro ⟨e, he, hk⟩
    cases e <;> cases hk
    exact he
  · intro h
    exact ⟨_, h, rfl⟩

@[simp] theorem enters_enter : enters (t ++ [.enter k]) = enters t ++ [k] := by
  simp [enters]

@[simp] theorem enters_commit : enters (t ++ [.commit k]) = enters t := by
  simp [enters]

@[simp] theorem enters_squash : enters (t ++ [.squash k]) = enters t := by
  simp [enters]

def Live (t : List (Event κ)) (k : κ) : Prop := .enter k ∈ t ∧ k ∉ departures t

@[simp] theorem departures_nil : departures ([] : List (Event κ)) = [] := rfl

@[simp] theorem departures_enter : departures (t ++ [.enter k]) = departures t := by
  simp [departures]

@[simp] theorem departures_commit : departures (t ++ [.commit k]) = departures t ++ [k] := by
  simp [departures]

@[simp] theorem departures_squash : departures (t ++ [.squash k]) = departures t ++ [k] := by
  simp [departures]

@[simp] theorem commits_nil : commits ([] : List (Event κ)) = [] := rfl

@[simp] theorem commits_enter : commits (t ++ [.enter k]) = commits t := by
  simp [commits]

@[simp] theorem commits_commit : commits (t ++ [.commit k]) = commits t ++ [k] := by
  simp [commits]

@[simp] theorem commits_squash : commits (t ++ [.squash k]) = commits t := by
  simp [commits]

end

variable {κ : Type} [LinearOrder κ]

/-- The events, oldest first, lead from the empty queue to `queue`, youngest
key first. -/
inductive Trace : List (Event κ) → List κ → Prop where
  | nil : Trace [] []
  | enter {t q k} : Trace t q → (∀ k', Event.enter k' ∈ t → k' < k) →
      Trace (t ++ [.enter k]) (k :: q)
  | commit {t q k} : Trace t (q ++ [k]) → Trace (t ++ [.commit k]) q
  | squash {t q k} : Trace t (k :: q) → Trace (t ++ [.squash k]) q

namespace Trace

variable {t : List (Event κ)} {q : List κ}

section

variable (h : Trace t q)
include h

theorem entered : ∀ k ∈ q, Event.enter k ∈ t := by
  induction h with
  | nil => simp
  | enter _ _ ih =>
    intro k hk
    rcases mem_cons.mp hk with rfl | hk
    · simp
    · exact mem_append_left _ (ih k hk)
  | commit _ ih =>
    intro k hk
    exact mem_append_left _ (ih k (mem_append_left _ hk))
  | squash _ ih =>
    intro k hk
    exact mem_append_left _ (ih k (mem_cons_of_mem _ hk))

theorem sorted : q.Pairwise (· > ·) := by
  induction h with
  | nil => exact List.Pairwise.nil
  | enter hq hlt ih =>
    apply List.Pairwise.cons _ ih
    intro k' hk'
    exact hlt k' (hq.entered k' hk')
  | commit _ ih => exact (pairwise_append.mp ih).1
  | squash _ ih => exact (pairwise_cons.mp ih).2

theorem enter_iff (k : κ) : Event.enter k ∈ t ↔ k ∈ q ∨ k ∈ departures t := by
  induction h with
  | nil => simp
  | enter _ _ ih => simp [ih, or_assoc, or_comm]
  | commit _ ih => simp [ih, or_assoc, or_comm, or_left_comm]
  | squash _ ih => simp [ih, or_assoc, or_comm, or_left_comm]

theorem departed_not_queued (k : κ) (hk : k ∈ departures t) : k ∉ q := by
  induction h with
  | nil => simp at hk
  | @enter t q k₀ hq hlt ih =>
    rw [departures_enter] at hk
    have hne : k ≠ k₀ := ne_of_lt (hlt k ((hq.enter_iff k).mpr (.inr hk)))
    simp [hne, ih hk]
  | @commit t q k₀ hq ih =>
    have hsorted := pairwise_append.mp hq.sorted
    simp only [departures_commit, mem_append, mem_singleton] at hk
    rcases hk with hk | rfl
    · exact fun hmem => ih hk (mem_append_left _ hmem)
    · intro hmem
      exact lt_irrefl k (hsorted.2.2 k hmem k (mem_singleton_self k))
  | @squash t q k₀ hq ih =>
    simp only [departures_squash, mem_append, mem_singleton] at hk
    rcases hk with hk | rfl
    · exact fun hmem => ih hk (mem_cons_of_mem _ hmem)
    · intro hmem
      exact lt_irrefl k ((pairwise_cons.mp hq.sorted).1 k hmem)

theorem mem_queue_iff (k : κ) : k ∈ q ↔ Event.enter k ∈ t ∧ k ∉ departures t := by
  rw [h.enter_iff k]
  constructor
  · intro hk
    exact ⟨.inl hk, fun hd => h.departed_not_queued k hd hk⟩
  · rintro ⟨hk | hk, hnot⟩
    · exact hk
    · exact absurd hk hnot

theorem nodup_departures : (departures t).Nodup := by
  induction h with
  | nil => exact nodup_nil
  | enter _ _ ih => rwa [departures_enter]
  | @commit t q k hq ih =>
    rw [departures_commit, ← concat_eq_append]
    exact ih.concat fun hk =>
      hq.departed_not_queued k hk (mem_append_right _ (mem_singleton_self k))
  | @squash t q k hq ih =>
    rw [departures_squash, ← concat_eq_append]
    exact ih.concat fun hk => hq.departed_not_queued k hk mem_cons_self

theorem commits_lt : ∀ k ∈ commits t, Event.enter k ∈ t ∧ ∀ k' ∈ q, k < k' := by
  induction h with
  | nil => simp
  | @enter t q k₀ hq hlt ih =>
    intro k hk
    rw [commits_enter] at hk
    refine ⟨mem_append_left _ (ih k hk).1, ?_⟩
    intro k' hk'
    rcases mem_cons.mp hk' with rfl | hk'
    · exact hlt k (ih k hk).1
    · exact (ih k hk).2 k' hk'
  | @commit t q k₀ hq ih =>
    intro k hk
    simp only [commits_commit, mem_append, mem_singleton] at hk
    rcases hk with hk | rfl
    · refine ⟨mem_append_left _ (ih k hk).1, ?_⟩
      intro k' hk'
      exact (ih k hk).2 k' (mem_append_left _ hk')
    · refine ⟨mem_append_left _ (hq.entered k (by simp)), ?_⟩
      intro k' hk'
      exact (pairwise_append.mp hq.sorted).2.2 k' hk' k (mem_singleton_self k)
  | @squash t q k₀ hq ih =>
    intro k hk
    rw [commits_squash] at hk
    refine ⟨mem_append_left _ (ih k hk).1, ?_⟩
    intro k' hk'
    exact (ih k hk).2 k' (mem_cons_of_mem _ hk')

theorem commits_sorted : (commits t).Pairwise (· < ·) := by
  induction h with
  | nil => exact List.Pairwise.nil
  | enter _ _ ih => rwa [commits_enter]
  | @commit t q k hq ih =>
    rw [commits_commit, pairwise_append]
    refine ⟨ih, pairwise_singleton _ k, ?_⟩
    intro a ha b hb
    rw [mem_singleton.mp hb]
    exact (hq.commits_lt a ha).2 k (by simp)
  | squash _ ih => rwa [commits_squash]

end

theorem squash_toList {k : Option κ} (h : Trace t (k.toList ++ q)) :
    Trace (t ++ (k.map .squash).toList) q := by
  cases k with
  | none => simpa using h
  | some k => exact .squash h

theorem commit_toList {k : Option κ} (h : Trace t (q ++ k.toList)) :
    Trace (t ++ (k.map .commit).toList) q := by
  cases k with
  | none => simpa using h
  | some k => exact .commit h

theorem of_append {pre post : List (Event κ)} (h : Trace (pre ++ post) q) : ∃ q', Trace pre q' := by
  induction post using List.reverseRecOn generalizing q with
  | nil => exact ⟨q, by simpa using h⟩
  | append_singleton post e ih =>
    rw [← append_assoc] at h
    generalize ht : pre ++ post ++ [e] = t at h
    cases h with
    | nil => simp at ht
    | enter hq _ => exact ih ((append_inj' ht rfl).1 ▸ hq)
    | commit hq => exact ih ((append_inj' ht rfl).1 ▸ hq)
    | squash hq => exact ih ((append_inj' ht rfl).1 ▸ hq)

theorem of_squash {k : κ} (h : Trace (t ++ [.squash k]) q) : Trace t (k :: q) := by
  generalize ht : t ++ [Event.squash k] = t' at h
  cases h with
  | nil => simp at ht
  | enter hq _ => simpa using (append_inj' ht rfl).2
  | commit hq => simpa using (append_inj' ht rfl).2
  | squash hq =>
    obtain ⟨rfl, hk⟩ := append_inj' ht rfl
    cases hk
    exact hq

theorem squash_youngest {pre post : List (Event κ)} {k : κ} (h : Trace (pre ++ .squash k :: post) q)
    (k' : κ) (hk' : Event.enter k' ∈ pre) (hlt : k < k') : k' ∈ departures pre := by
  rw [append_cons] at h
  obtain ⟨q', hpre⟩ := h.of_append
  have hq := hpre.of_squash
  rcases (hq.enter_iff k').mp hk' with hmem | hd
  · rcases mem_cons.mp hmem with rfl | hmem
    · exact absurd hlt (lt_irrefl k')
    · exact absurd hlt (lt_asymm ((pairwise_cons.mp hq.sorted).1 k' hmem))
  · exact hd

theorem squash_latest {pre post : List (Event κ)} {k : κ} (h : Trace (pre ++ .squash k :: post) q) :
    Live pre k ∧ ∀ k', Live pre k' → k' ≤ k := by
  rw [append_cons] at h
  obtain ⟨q', hpre⟩ := h.of_append
  have hq := hpre.of_squash
  refine ⟨(hq.mem_queue_iff k).mp mem_cons_self, ?_⟩
  intro k' hk'
  rcases mem_cons.mp ((hq.mem_queue_iff k').mpr hk') with rfl | hmem
  · exact le_rfl
  · exact le_of_lt ((pairwise_cons.mp hq.sorted).1 k' hmem)

end Trace

end Gem5Core.Lib.Deque
