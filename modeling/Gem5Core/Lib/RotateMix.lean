import Mathlib.Data.Nat.ModEq

/-! Hashes that mix a sequence into a word by exclusive or and rotate the word after every element.
Rotation is linear, so the result is the exclusive or of every element rotated by the number of
rounds it went through. -/
namespace Gem5Core.Lib.RotateMix
open Function BitVec

variable {w : Nat}

theorem getLsbD_rotated (x : BitVec w) (k : Nat) {i : Nat} (hi : i < w) :
    (x.rotateLeft k).getLsbD i = x.getLsbD ((i + (w - k % w)) % w) := by
  have hk : k % w < w := Nat.mod_lt _ (by omega)
  rw [getLsbD_rotateLeft, Bool.cond_decide]
  generalize k % w = r at hk ⊢
  split
  · rw [Nat.mod_eq_of_lt (by omega), Nat.add_comm]
  · have hsum : i + (w - r) = (i - r) + w := by omega
    rw [hsum, Nat.add_mod_right, Nat.mod_eq_of_lt (by omega)]
    simp [hi]

theorem rotateLeft_xor (x y : BitVec w) (k : Nat) :
    (x ^^^ y).rotateLeft k = x.rotateLeft k ^^^ y.rotateLeft k := by
  apply eq_of_getLsbD_eq
  intro i hi
  simp only [getLsbD_xor, getLsbD_rotated _ k hi]

@[simp] theorem zero_rotateLeft (k : Nat) : (0#w).rotateLeft k = 0#w := by
  apply eq_of_getLsbD_eq
  intro i hi
  simp only [getLsbD_rotated _ k hi, getLsbD_zero]

@[simp] theorem rotateLeft_zero (x : BitVec w) : x.rotateLeft 0 = x := by
  apply eq_of_getLsbD_eq
  intro i hi
  rw [getLsbD_rotated _ 0 hi, Nat.zero_mod, Nat.sub_zero, Nat.add_mod_right,
    Nat.mod_eq_of_lt hi]

private theorem rotateLeft_congr (x : BitVec w) {j k : Nat} (h : j ≡ k [MOD w]) :
    x.rotateLeft j = x.rotateLeft k := by
  rw [← rotateLeft_mod_eq_rotateLeft, ← rotateLeft_mod_eq_rotateLeft (r := k), h]

theorem rotateLeft_rotateLeft (x : BitVec w) (j k : Nat) :
    (x.rotateLeft j).rotateLeft k = x.rotateLeft (j + k) := by
  apply eq_of_getLsbD_eq
  intro i hi
  have hpos : 0 < w := by omega
  rw [getLsbD_rotated _ k hi, getLsbD_rotated _ j (Nat.mod_lt _ hpos),
    getLsbD_rotated _ (j + k) hi, Nat.mod_add_mod, Nat.add_mod j k w]
  congr 1
  have hj := Nat.mod_lt j hpos
  have hk := Nat.mod_lt k hpos
  generalize j % w = j at hj ⊢
  generalize k % w = k at hk ⊢
  -- the two rotations together pass the width at most once
  by_cases hlt : j + k < w
  · have hsplit : i + (w - k) + (w - j) = i + (w - (j + k)) + w := by omega
    rw [Nat.mod_eq_of_lt hlt, hsplit, Nat.add_mod_right]
  · have hover : (j + k) % w = j + k - w := by
      rw [Nat.mod_eq_sub_mod (by omega), Nat.mod_eq_of_lt (by omega)]
    have hsplit : i + (w - k) + (w - j) = i + (w - (j + k - w)) := by omega
    rw [hover, hsplit]

theorem rotateLeft_injective (k : Nat) :
    Injective fun x : BitVec w => x.rotateLeft k := by
  intro x y h
  have hback : ∀ z : BitVec w, (z.rotateLeft k).rotateLeft (w - k % w) = z := by
    intro z
    rcases Nat.eq_zero_or_pos w with rfl | hpos
    · exact Subsingleton.elim _ _
    · have hk := Nat.mod_lt k hpos
      have hround : k + (w - k % w) ≡ 0 [MOD w] := by
        rw [Nat.ModEq, Nat.add_mod, Nat.zero_mod]
        rcases Nat.eq_zero_or_pos (k % w) with hz | hz
        · simp [hz]
        · rw [Nat.mod_eq_of_lt (a := w - k % w) (by omega)]
          rw [Nat.add_sub_cancel' hk.le, Nat.mod_self]
      rw [rotateLeft_rotateLeft, rotateLeft_congr z hround, rotateLeft_zero]
  rw [← hback x, ← hback y]
  exact congrArg (BitVec.rotateLeft · (w - k % w)) h

private theorem getLsbD_shifted_up {n k i : Nat} (hi : i < n) (x : BitVec w) :
    ((x.setWidth n <<< k) &&& BitVec.ofNat n (2 ^ w - 1)).getLsbD i =
      (decide (k ≤ i) && decide (i < w) && x.getLsbD (i - k)) := by
  have hlt : i - k < n := by omega
  rw [getLsbD_and, getLsbD_shiftLeft, getLsbD_setWidth, getLsbD_ofNat]
  simp only [hi, hlt, decide_true, Bool.true_and]
  by_cases hk : k ≤ i
  · simp [hk, hk.not_gt, Bool.and_comm]
  · simp [hk, Nat.lt_of_not_le hk]

theorem getLsbD_shifted_down {n k : Nat} (hn : w < n) (hk : k ≤ w) (i : Nat) (x : BitVec w) :
    (x.setWidth n >>> (w - k)).getLsbD i = (decide (i < k) && x.getLsbD (w - k + i)) := by
  by_cases hik : i < k
  · have hlt : w - k + i < n := by omega
    simp [hik, hlt]
  · have hge : w ≤ w - k + i := by omega
    simp [hik, getLsbD_of_ge x _ hge]

theorem rotateLeft_eq_shifts {n k : Nat} (hn : w < n) (hk : k ≤ w) (x : BitVec w) :
    ((x.setWidth n <<< k) &&& BitVec.ofNat n (2 ^ w - 1)) + (x.setWidth n).sshiftRight (w - k) =
      (x.rotateLeft k).setWidth n := by
  have hmsb : (x.setWidth n).msb = false := by
    rw [msb_setWidth, getLsbD_of_ge x (n - 1) (by omega), Bool.and_false]
  -- the two parts have no bit in common
  have hdisjoint : ((x.setWidth n <<< k) &&& BitVec.ofNat n (2 ^ w - 1)) &&&
      (x.setWidth n >>> (w - k)) = 0#n := by
    apply eq_of_getLsbD_eq
    intro i hi
    rw [getLsbD_and, getLsbD_shifted_down hn hk i]
    by_cases hik : i < k
    · simp [hik.not_ge]
    · simp [hik]
  rw [sshiftRight_eq_of_msb_false hmsb, add_eq_or_of_and_eq_zero _ _ hdisjoint]
  apply eq_of_getLsbD_eq
  intro i hi
  rw [getLsbD_or, getLsbD_shifted_up hi, getLsbD_shifted_down hn hk i,
    getLsbD_setWidth, decide_eq_true hi]
  by_cases hiw : i < w
  · rw [getLsbD_rotateLeft]
    obtain rfl | hkw := Nat.eq_or_lt_of_le hk
    · simp [hiw]
    · rw [Nat.mod_eq_of_lt hkw]
      by_cases hik : i < k
      · simp [hik, hik.not_ge]
      · simp [hik, Nat.le_of_not_lt hik, hiw]
  · have hik : ¬i < k := by omega
    rw [getLsbD_of_ge (x.rotateLeft k) i (Nat.le_of_not_lt hiw)]
    simp [hiw, hik]

section

def xorSum (f : Nat → BitVec w) : Nat → BitVec w
  | 0 => 0#w
  | n + 1 => xorSum f n ^^^ f n

variable (f : Nat → BitVec w)

@[simp] theorem xorSum_zero : xorSum f 0 = 0#w := rfl

theorem xorSum_succ (n : Nat) : xorSum f (n + 1) = xorSum f n ^^^ f n := rfl

theorem xorSum_congr {f g : Nat → BitVec w} {n : Nat} (h : ∀ i < n, f i = g i) :
    xorSum f n = xorSum g n := by
  induction n with
  | zero => rfl
  | succ n ih =>
    rw [xorSum_succ, xorSum_succ, ih fun i hi => h i (Nat.lt_succ_of_lt hi),
      h n (Nat.lt_succ_self n)]

private theorem xorSum_rotateLeft (k n : Nat) :
    (xorSum f n).rotateLeft k = xorSum (fun i => (f i).rotateLeft k) n := by
  induction n with
  | zero => simp
  | succ n ih => rw [xorSum_succ, xorSum_succ, rotateLeft_xor, ih]

theorem xorSum_update {n i : Nat} (hi : i < n) (x : BitVec w) :
    xorSum (update f i x) n = xorSum f n ^^^ (f i ^^^ x) := by
  induction n with
  | zero => omega
  | succ n ih =>
    rw [xorSum_succ, xorSum_succ]
    by_cases hin : i = n
    · subst hin
      have hbelow : xorSum (update f i x) i = xorSum f i :=
        xorSum_congr fun j hj => update_of_ne (by omega) _ _
      rw [hbelow, update_self, BitVec.xor_assoc, ← BitVec.xor_assoc (f i),
        BitVec.xor_self, BitVec.zero_xor]
    · rw [ih (by omega), update_of_ne (by omega)]
      ac_rfl

theorem xorSum_replace {f g : Nat → BitVec w} {n i : Nat} (hi : i < n)
    (h : ∀ j < n, j ≠ i → g j = f j) : xorSum g n = xorSum f n ^^^ (f i ^^^ g i) := by
  rw [← xorSum_update f hi]
  apply xorSum_congr
  intro j hj
  by_cases hji : j = i
  · rw [hji, update_self]
  · rw [update_of_ne hji, h j hj hji]

theorem xorSum_exchange {f g : Nat → BitVec w} {n i j : Nat} (hi : i < n) (hj : j < n)
    (hij : g i = f j) (hji : g j = f i) (h : ∀ k < n, k ≠ i → k ≠ j → g k = f k) :
    xorSum g n = xorSum f n := by
  have hg : xorSum g n = xorSum (update (update f i (f j)) j (f i)) n := by
    apply xorSum_congr
    intro k hk
    by_cases hkj : k = j
    · rw [hkj, update_self, hji]
    · by_cases hki : k = i
      · rw [update_of_ne hkj, hki, update_self, hij]
      · rw [update_of_ne hkj, update_of_ne hki, h k hk hki hkj]
  rw [hg, xorSum_update _ hj, xorSum_update f hi]
  by_cases heq : j = i
  · subst heq
    rw [update_self, BitVec.xor_self, BitVec.xor_zero, BitVec.xor_zero]
  · rw [update_of_ne heq, BitVec.xor_assoc, BitVec.xor_comm (f j) (f i), BitVec.xor_self,
      BitVec.xor_zero]

private theorem xorSum_add (m n : Nat) :
    xorSum f (m + n) = xorSum f m ^^^ xorSum (fun i => f (m + i)) n := by
  induction n with
  | zero => simp
  | succ n ih => rw [← Nat.add_assoc, xorSum_succ, xorSum_succ, ih, xor_assoc]

theorem xorSum_cancel {f : Nat → BitVec w} (q m : Nat)
    (h : ∀ i, i + q < 2 * q * m → f (i + q) = f i) : xorSum f (2 * q * m) = 0#w := by
  induction m with
  | zero => rfl
  | succ m ih =>
    have hlen : 2 * q * (m + 1) = 2 * q * m + (q + q) := by
      rw [Nat.mul_succ, Nat.two_mul q]
    have hpair : xorSum (fun i => f (2 * q * m + (q + i))) q =
        xorSum (fun i => f (2 * q * m + i)) q := by
      apply xorSum_congr
      intro i hi
      have hshift := h (2 * q * m + i) (by omega)
      rw [← hshift]
      congr 1
      omega
    rw [hlen, xorSum_add, ih fun i hi => h i (by omega), xorSum_add _ q q, hpair]
    simp

end

/-- Mix the words `m 0 .. m (n - 1)` into `h`, rotating by `r` after each. -/
def mix (r : Nat) (m : Nat → BitVec w) (h : BitVec w) (n : Nat) : BitVec w :=
  (List.range n).foldl (fun h i => (h ^^^ m i).rotateLeft r) h

private theorem mix_succ (r : Nat) (m : Nat → BitVec w) (h : BitVec w) (n : Nat) :
    mix r m h (n + 1) = (mix r m h n ^^^ m n).rotateLeft r := by
  rw [mix, List.range_succ, List.foldl_append]
  rfl

theorem mix_eq_xorSum (r : Nat) (m : Nat → BitVec w) (h : BitVec w) (n : Nat) :
    mix r m h n = h.rotateLeft (r * n) ^^^ xorSum (fun i => (m i).rotateLeft (r * (n - i))) n := by
  induction n with
  | zero => simp [mix]
  | succ n ih =>
    have hround : ∀ i < n, ((m i).rotateLeft (r * (n - i))).rotateLeft r =
        (m i).rotateLeft (r * (n + 1 - i)) := by
      intro i hi
      rw [rotateLeft_rotateLeft, ← Nat.mul_succ, Nat.sub_add_comm hi.le]
    rw [mix_succ, ih, rotateLeft_xor, rotateLeft_xor, rotateLeft_rotateLeft, ← Nat.mul_succ,
      xorSum_rotateLeft, xorSum_congr hround, xorSum_succ, Nat.add_sub_cancel_left, Nat.mul_one,
      xor_assoc]

end Gem5Core.Lib.RotateMix
