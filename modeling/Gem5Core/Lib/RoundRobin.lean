import Gem5Core.Lib.RingWindow

/-! A search around a ring that stops when the item it began with comes again. It is a full
search where an item comes again only after all others. -/
namespace Gem5Core.Lib.RoundRobin

variable {β : Type*} {s : Nat → β} {busy : β → Bool} {p : Nat}

inductive Found (s : Nat → β) (busy : β → Bool) (p : Nat) : Option β → Prop
  | free (e : Nat) (hfree : busy (s (p + e)) = false) : Found s busy p (some (s (p + e)))
  | recurs (e : Nat) (hpos : 0 < e) (hsame : s (p + e) = s p)
      (hbusy : ∀ e' < e, busy (s (p + e')) = true) : Found s busy p none

def Regular (s : Nat → β) (n : Nat) : Prop := ∀ i j, s i = s j ↔ i % n = j % n

theorem Regular.forall_of_recurs {n e : Nat} {P : β → Prop} (hregular : Regular s n) (hn : 0 < n)
    (hpos : 0 < e) (hsame : s (p + e) = s p) (hseen : ∀ e' < e, P (s (p + e'))) (j : Nat) :
    P (s j) := by
  have hle : n ≤ e := by
    by_contra hlt
    have hmod : (p + e) % n = p % n := (hregular (p + e) p).mp hsame
    have heq := RingWindow.eq_of_mod_eq n (by omega : p ≤ p + e ∧ p + e < p + n)
      (by omega : p ≤ p ∧ p < p + n) hmod
    omega
  have hp : p % n < n := Nat.mod_lt p hn
  have hlt : (j + (n - p % n)) % n < n := Nat.mod_lt _ hn
  have hj : s j = s (p + (j + (n - p % n)) % n) := by
    rw [hregular, Nat.add_mod_mod, show p + (j + (n - p % n)) = j + n + n * (p / n) by
      have hdiv := Nat.mod_add_div p n
      omega, Nat.add_mul_mod_self_left, Nat.add_mod_right]
  rw [hj]
  exact hseen _ (by omega)

theorem Found.forall_busy {n : Nat} (hfound : Found s busy p none) (hregular : Regular s n)
    (hn : 0 < n) (j : Nat) : busy (s j) = true := by
  cases hfound with
  | recurs e hpos hsame hbusy =>
    exact hregular.forall_of_recurs (P := fun x => busy x = true) hn hpos hsame hbusy j

variable [DecidableEq β]

/-- The first item from a position on that is not busy, or `none` once `start` comes again; and the
position behind it. -/
def scan (s : Nat → β) (busy : β → Bool) (start : β) : (fuel i : Nat) → Option (Option β × Nat)
  | 0, _ => none
  | fuel + 1, i =>
      if busy (s i) then
        if s (i + 1) = start then some (none, i + 2) else scan s busy start fuel (i + 1)
      else some (some (s i), i + 1)

theorem scan_from {len : Nat} (hrecurs : s (p + len) = s p) (fuel d : Nat) (hd : d < len)
    (hfuel : len ≤ fuel + d) (hbusy : ∀ e < d, busy (s (p + e)) = true) :
    ∃ r i, scan s busy (s p) fuel (p + d) = some (r, i) ∧ Found s busy p r := by
  induction fuel generalizing d with
  | zero => omega
  | succ fuel ih =>
    rw [scan]
    cases hfree : busy (s (p + d)) with
    | false => exact ⟨_, _, rfl, .free d hfree⟩
    | true =>
      have hbusy' : ∀ e < d + 1, busy (s (p + e)) = true := by
        intro e he
        by_cases hlast : e = d
        · rw [hlast, hfree]
        · exact hbusy e (by omega)
      by_cases hsame : s (p + d + 1) = s p
      · rw [if_pos hsame]
        exact ⟨_, _, rfl, .recurs (d + 1) (Nat.succ_pos d) hsame hbusy'⟩
      · have hnext : d + 1 < len := by
          by_contra hge
          have hlen : p + d + 1 = p + len := by omega
          exact hsame (hlen ▸ hrecurs)
        rw [if_neg hsame]
        exact ih (d + 1) hnext (by omega) hbusy'

theorem scan_spec {len fuel : Nat} (hlen : 0 < len) (hrecurs : s (p + len) = s p)
    (hfuel : len ≤ fuel) : ∃ r i, scan s busy (s p) fuel p = some (r, i) ∧ Found s busy p r :=
  scan_from hrecurs fuel 0 hlen hfuel fun e he => absurd he (Nat.not_lt_zero e)

end Gem5Core.Lib.RoundRobin
