import Mathlib.Data.Nat.ModEq
import Gem5Core.Lib.Indexed

/-! A ring of `d` cells in which an index that only grows stands for the cell it is
congruent to, and the elements of a range of indices read off the ring. -/
namespace Gem5Core.Lib.RingWindow
open Indexed

variable {α : Type*} (ring : Nat → α) (d : Nat)

def window (head n : Nat) : List α := (List.range n).map fun k => ring ((head + k) % d)

@[simp] theorem length_window (head n : Nat) : (window ring d head n).length = n := by
  simp [window]

theorem window_append (head n m : Nat) :
    window ring d head n ++ window ring d (head + n) m = window ring d head (n + m) := by
  simp [window, List.range_add, Function.comp_def, Nat.add_assoc]

private theorem window_one (head : Nat) : window ring d head 1 = [ring (head % d)] := rfl

theorem window_drop (head n m : Nat) :
    (window ring d head n).drop m = window ring d (head + m) (n - m) := by
  apply List.ext_getElem
  · simp
  · intro k _ _
    simp [window, Nat.add_assoc]

theorem window_take (head : Nat) {n m : Nat} (h : m ≤ n) :
    (window ring d head n).take m = window ring d head m := by
  apply List.ext_getElem
  · simpa using h
  · intro k _ _
    simp [window]

theorem lookup_window (head n i : Nat) :
    lookup head (window ring d head n) i =
      if head ≤ i ∧ i < head + n then some (ring (i % d)) else none := by
  unfold lookup
  by_cases hlow : head ≤ i
  · by_cases hhigh : i < head + n
    · have hlt : i - head < n := by omega
      simp [hlow, hhigh, window, hlt]
    · have hge : n ≤ i - head := by omega
      simp [hlow, hhigh, window, hge]
  · simp [hlow]

theorem eq_of_mod_eq {head i j : Nat} (hi : head ≤ i ∧ i < head + d) (hj : head ≤ j ∧ j < head + d)
    (h : i % d = j % d) : i = j := by
  wlog hle : i ≤ j generalizing i j
  · exact (this hj hi h.symm (Nat.le_of_not_le hle)).symm
  have hdvd : d ∣ j - i := (Nat.modEq_iff_dvd' hle).mp h
  have hzero : j - i = 0 := Nat.eq_zero_of_dvd_of_lt hdvd (by omega)
  omega

theorem window_update {head n : Nat} (h : n < d) (a : α) :
    window (Function.update ring ((head + n) % d) a) d head (n + 1) = window ring d head n ++ [a] := by
  rw [← window_append, window_one, Function.update_self]
  congr 1
  apply List.map_congr_left
  intro k hk
  have hk' : k < n := List.mem_range.mp hk
  refine Function.update_of_ne (fun heq => ?_) _ _
  have hcell : head + k = head + n :=
    eq_of_mod_eq d (by omega : head ≤ head + k ∧ head + k < head + d) (by omega) heq
  omega

end Gem5Core.Lib.RingWindow
