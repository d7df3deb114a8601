import Mathlib.Data.List.Induction

/-! Majority voting with one candidate and one counter, in the variant that adopts the newcomer on
the vote that exhausts the counter. -/
namespace Gem5Core.Lib.MajorityVote

variable {α : Type*} [DecidableEq α]

def cast : Option (α × Nat) → α → Option (α × Nat)
  | none, x => some (x, 1)
  | some (c, n), x =>
    if x = c then some (c, n + 1)
    else if n - 1 = 0 then some (x, 1) else some (c, n - 1)

theorem cast_some (c : α) (n : Nat) (x : α) :
    cast (some (c, n)) x =
      if x = c then some (c, n + 1)
      else if n - 1 = 0 then some (x, 1) else some (c, n - 1) := rfl

def Positive : Option (α × Nat) → Prop
  | none => True
  | some (_, n) => 1 ≤ n

/-- How far ahead `a` is; a rival with one vote left has no lead over it. -/
def margin (a : α) : Option (α × Nat) → Int
  | none => 0
  | some (c, n) => if c = a then n else 1 - n

theorem margin_some (a c : α) (n : Nat) :
    margin a (some (c, n)) = if c = a then (n : Int) else 1 - n := rfl

theorem cast_positive (t : Option (α × Nat)) (x : α) : Positive (cast t x) := by
  rcases t with _ | ⟨c, n⟩
  · exact Nat.le_refl 1
  · rw [cast_some]
    split
    · exact Nat.le_add_left 1 n
    · split
      · exact Nat.le_refl 1
      · rename_i h
        exact Nat.one_le_iff_ne_zero.mpr h

private theorem margin_cast_self (a : α) (t : Option (α × Nat)) (h : Positive t) :
    margin a t + 1 ≤ margin a (cast t a) := by
  rcases t with _ | ⟨c, n⟩
  · simp [cast, margin]
  · have hn : 1 ≤ n := h
    rw [cast_some, margin_some]
    by_cases hac : a = c
    · subst hac
      simp [margin_some]
    · rw [if_neg hac, if_neg (Ne.symm hac)]
      split
      · rw [margin_some, if_pos rfl]
        omega
      · rw [margin_some]
        omega

private theorem margin_cast_other {a x : α} (hx : x ≠ a) (t : Option (α × Nat)) (h : Positive t) :
    margin a t - 1 ≤ margin a (cast t x) := by
  rcases t with _ | ⟨c, n⟩
  · simp [cast, margin, hx]
  · rw [cast_some, margin_some]
    by_cases hxc : x = c
    · subst hxc
      rw [if_pos rfl, margin_some, if_neg hx]
      omega
    · rw [if_neg hxc]
      by_cases hlast : n - 1 = 0
      · rw [if_pos hlast, margin_some]
        split <;> omega
      · rw [if_neg hlast, margin_some]
        split <;> omega

private theorem margin_poll (a : α) (votes : List α) (t : Option (α × Nat)) (h : Positive t) :
    margin a t + 2 * votes.count a - votes.length ≤ margin a (votes.foldl cast t) := by
  induction votes generalizing t with
  | nil => simp
  | cons x votes ih =>
    have hrest := ih (cast t x) (cast_positive t x)
    rw [List.foldl_cons, List.length_cons]
    by_cases hx : x = a
    · subst hx
      have hstep := margin_cast_self x t h
      rw [List.count_cons_self]
      omega
    · have hstep := margin_cast_other hx t h
      rw [List.count_cons_of_ne hx]
      omega

theorem eq_of_margin_pos {a : α} {t : Option (α × Nat)} (h : Positive t) (hm : 0 < margin a t) :
    ∃ n, t = some (a, n) := by
  rcases t with _ | ⟨c, n⟩
  · cases hm
  · by_cases hc : c = a
    · exact ⟨n, by rw [hc]⟩
    · have hn : 1 ≤ n := h
      rw [margin_some, if_neg hc] at hm
      omega

private theorem foldl_positive (votes : List α) (t : Option (α × Nat)) (h : Positive t) :
    Positive (votes.foldl cast t) := by
  induction votes generalizing t with
  | nil => exact h
  | cons x votes ih => exact ih _ (cast_positive t x)

theorem majority_wins {a : α} {votes : List α} (h : votes.length < 2 * votes.count a) :
    ∃ n, votes.foldl cast none = some (a, n) := by
  have hmargin := margin_poll a votes none trivial
  have hnone : margin a (none : Option (α × Nat)) = 0 := rfl
  apply eq_of_margin_pos (foldl_positive votes none trivial)
  omega

theorem count_le_length (votes : List α) {c : α} {n : Nat}
    (h : votes.foldl cast none = some (c, n)) : n ≤ votes.length := by
  induction votes using List.reverseRecOn generalizing c n with
  | nil => cases h
  | append_singleton votes x ih =>
    rw [List.foldl_append, List.foldl_cons] at h
    rw [List.length_append, List.length_singleton]
    rcases ht : votes.foldl cast none with _ | ⟨b, k⟩
    · rw [ht] at h
      cases h
      exact Nat.le_add_left 1 _
    · rw [ht] at h
      have hk := ih ht
      rw [cast_some] at h
      split at h
      · cases h
        omega
      · split at h <;> cases h <;> omega

end Gem5Core.Lib.MajorityVote
