import Mathlib.Data.Nat.ModEq

/-! Folding a stream of bits into a register: bit `j` goes to position `j % c`. When the stream is
shifted by one bit the fold is rotated, the new bit enters at position 0 and the one that leaves the
window is cancelled at position `n % c`. -/
namespace Gem5Core.Lib.Folding
open BitVec

variable {w : Nat}

def place (w : Nat) (bit : Bool) (k : Nat) : BitVec w := (BitVec.ofBool bit).setWidth w <<< k

def fold (w c : Nat) (bit : Nat → Bool) : Nat → BitVec w
  | 0 => 0#w
  | n + 1 => fold w c bit n ^^^ place w (bit n) (n % c)

/-- Shift a new bit into a fold of `n` bits, `old` being the bit `n` places
further on and `out` its position. -/
def enter (c out : Nat) (new old : Bool) (x : BitVec w) : BitVec w :=
  let x := (x <<< 1) ||| place w new 0
  let x := x ^^^ place w old out
  let x := x ^^^ (x >>> c)
  x &&& BitVec.ofNat w (2 ^ c - 1)

def leave (c out : Nat) (new old : Bool) (x : BitVec w) : BitVec w :=
  let x := x ^^^ place w old out
  let tmp := (x.getLsbD 0) ^^ new
  place w tmp (c - 1) ||| (x >>> 1)

theorem getLsbD_place (bit : Bool) (k i : Nat) :
    (place w bit k).getLsbD i = (bit && decide (i = k ∧ i < w)) := by
  unfold place
  rw [getLsbD_shiftLeft, getLsbD_setWidth, getLsbD_ofBool]
  by_cases hik : i = k
  · subst hik
    by_cases hw : i < w
    · simp [hw, Nat.zero_lt_of_lt hw]
    · simp [hw]
  · by_cases hlt : i < k
    · simp [hik, hlt]
    · have hne : i - k ≠ 0 := by omega
      simp [hik, hne]

variable (c : Nat)

theorem getLsbD_fold_succ (bit : Nat → Bool) (n i : Nat) :
    (fold w c bit (n + 1)).getLsbD i =
      ((fold w c bit n).getLsbD i ^^ (bit n && decide (i = n % c ∧ i < w))) := by
  rw [fold, getLsbD_xor, getLsbD_place]

theorem fold_zeros (n : Nat) : fold w c (fun _ => false) n = 0#w := by
  induction n with
  | zero => rfl
  | succ n ih => simp [fold, ih, place]

theorem getLsbD_fold_of_le (hc : 0 < c) (bit : Nat → Bool) (n i : Nat) (hi : c ≤ i) :
    (fold w c bit n).getLsbD i = false := by
  induction n with
  | zero => simp [fold]
  | succ n ih =>
    have hmod := Nat.mod_lt n hc
    have hne : i ≠ n % c := by omega
    rw [getLsbD_fold_succ, ih]
    simp [hne]

theorem getLsbD_fold_rotate (hw : c < w) (bit : Nat → Bool) (n k : Nat) (hk : k < c) :
    (fold w c bit (n + 1)).getLsbD ((k + 1) % c) =
      ((bit 0 && decide ((k + 1) % c = 0)) ^^
        (fold w c (fun j => bit (j + 1)) n).getLsbD k) := by
  have hc : 0 < c := by omega
  have hpos : (k + 1) % c < w := lt_trans (Nat.mod_lt _ hc) hw
  induction n with
  | zero =>
    rw [getLsbD_fold_succ]
    simp [fold, hpos]
  | succ n ih =>
    have hmod : (k + 1) % c = (n + 1) % c ↔ k = n % c := by
      constructor
      · intro h
        have h' : k % c = n % c := Nat.ModEq.add_right_cancel' 1 h
        rwa [Nat.mod_eq_of_lt hk] at h'
      · intro h
        rw [h, Nat.mod_add_mod]
    have hkw : k < w := lt_trans hk hw
    rw [getLsbD_fold_succ, ih, getLsbD_fold_succ]
    simp only [hmod, hpos, hkw, and_true, Bool.xor_assoc]

theorem getLsbD_fold_shift (hw : c < w) (bit : Nat → Bool) (n i : Nat) (hi : i + 1 < c) :
    (fold w c bit (n + 1)).getLsbD (i + 1) =
      (fold w c (fun j => bit (j + 1)) n).getLsbD i := by
  have h := getLsbD_fold_rotate c hw bit n i (by omega)
  rwa [Nat.mod_eq_of_lt hi, decide_eq_false (Nat.succ_ne_zero i), Bool.and_false,
    Bool.false_xor] at h

theorem getLsbD_fold_wrap (hc : 0 < c) (hw : c < w) (bit : Nat → Bool) (n : Nat) :
    (fold w c bit (n + 1)).getLsbD 0 =
      (bit 0 ^^ (fold w c (fun j => bit (j + 1)) n).getLsbD (c - 1)) := by
  have h := getLsbD_fold_rotate c hw bit n (c - 1) (by omega)
  rw [Nat.sub_add_cancel hc, Nat.mod_self, decide_eq_true rfl, Bool.and_true] at h
  exact h

theorem getLsbD_mask (i : Nat) :
    (BitVec.ofNat w (2 ^ c - 1)).getLsbD i = (decide (i < w) && decide (i < c)) := by
  rw [getLsbD_ofNat, Nat.testBit_two_pow_sub_one]

def shifted (out : Nat) (new old : Bool) (x : BitVec w) : BitVec w :=
  ((x <<< 1) ||| place w new 0) ^^^ place w old out

private theorem getLsbD_shifted_zero (out : Nat) (new old : Bool) (x : BitVec w) (hw : 0 < w) :
    (shifted out new old x).getLsbD 0 = (new ^^ (old && decide (0 = out))) := by
  simp only [shifted, getLsbD_xor, getLsbD_or, getLsbD_shiftLeft,
    getLsbD_place]
  simp [hw]

private theorem getLsbD_shifted_succ (out : Nat) (new old : Bool) (x : BitVec w) (i : Nat)
    (hw : i + 1 < w) :
    (shifted out new old x).getLsbD (i + 1) = (x.getLsbD i ^^ (old && decide (i + 1 = out))) := by
  simp only [shifted, getLsbD_xor, getLsbD_or, getLsbD_shiftLeft,
    getLsbD_place]
  simp [hw]

private theorem getLsbD_enter (out : Nat) (hw : c < w) (new old : Bool) (x : BitVec w) (i : Nat)
    (hi : i < c) :
    (enter c out new old x).getLsbD i =
      ((shifted out new old x).getLsbD i ^^ (shifted out new old x).getLsbD (c + i)) := by
  rw [enter, getLsbD_and, getLsbD_mask, decide_eq_true hi, Bool.and_true,
    decide_eq_true (lt_trans hi hw), Bool.and_true, getLsbD_xor, getLsbD_ushiftRight]
  rfl

theorem enter_fold (hc : 0 < c) (hw : c < w) (bit : Nat → Bool) (n : Nat) :
    enter c (n % c) (bit 0) (bit n) (fold w c (fun j => bit (j + 1)) n) = fold w c bit n := by
  have hout := Nat.mod_lt n hc
  have hhigh := getLsbD_fold_of_le (w := w) c hc (fun j => bit (j + 1)) n
  apply eq_of_getLsbD_eq
  intro i hi
  by_cases hic : i < c
  · have hsucc := getLsbD_fold_succ (w := w) c bit n i
    rw [getLsbD_enter c _ hw _ _ _ i hic]
    cases i with
    | zero =>
      -- the top bit of the old fold wraps to position 0
      obtain ⟨d, rfl⟩ : ∃ d, c = d + 1 := ⟨c - 1, by omega⟩
      have hne : d + 1 ≠ n % (d + 1) := by omega
      rw [getLsbD_fold_wrap _ hc hw bit n, Nat.add_sub_cancel] at hsucc
      rw [getLsbD_shifted_zero _ _ _ _ hi, Nat.add_zero, getLsbD_shifted_succ _ _ _ _ _ hw,
        decide_eq_false hne, Bool.and_false]
      generalize (fold w (d + 1) bit n).getLsbD 0 = a at hsucc ⊢
      generalize (fold w (d + 1) (fun j => bit (j + 1)) n).getLsbD d = b at hsucc ⊢
      simp only [hi, and_true] at hsucc
      revert hsucc
      cases a <;> cases b <;> cases bit 0 <;> cases bit n <;> cases decide (0 = n % (d + 1)) <;>
        decide
    | succ i =>
      have hne : c + i + 1 ≠ n % c := by omega
      rw [getLsbD_fold_shift c hw bit n i hic] at hsucc
      have hzero : (shifted (n % c) (bit 0) (bit n)
          (fold w c (fun j => bit (j + 1)) n)).getLsbD (c + (i + 1)) = false := by
        by_cases hlt : c + i + 1 < w
        · rw [← Nat.add_assoc, getLsbD_shifted_succ _ _ _ _ _ hlt, decide_eq_false hne,
            hhigh _ (Nat.le_add_right c i)]
          simp
        · exact getLsbD_of_ge _ _ (by omega)
      rw [hzero, getLsbD_shifted_succ _ _ _ _ _ hi, hsucc]
      simp [hi]
  · rw [enter, getLsbD_and, getLsbD_mask, decide_eq_false hic, Bool.and_false,
      Bool.and_false, getLsbD_fold_of_le c hc bit n i (by omega)]

theorem leave_fold (hc : 0 < c) (hw : c < w) (bit : Nat → Bool) (n : Nat) :
    leave c (n % c) (bit 0) (bit n) (fold w c bit n) = fold w c (fun j => bit (j + 1)) n := by
  -- cancelling the old bit gives the fold of one bit more
  have hcancel : fold w c bit n ^^^ place w (bit n) (n % c) = fold w c bit (n + 1) := rfl
  have htmp : ((fold w c bit (n + 1)).getLsbD 0 ^^ bit 0) =
      (fold w c (fun j => bit (j + 1)) n).getLsbD (c - 1) := by
    rw [getLsbD_fold_wrap c hc hw bit n, Bool.xor_comm, ← Bool.xor_assoc, Bool.xor_self,
      Bool.false_xor]
  unfold leave
  simp only [hcancel, htmp]
  apply eq_of_getLsbD_eq
  intro i hi
  rw [getLsbD_or, getLsbD_place, getLsbD_ushiftRight, Nat.add_comm 1 i]
  by_cases hic : i + 1 < c
  · have hne : i ≠ c - 1 := by omega
    rw [getLsbD_fold_shift c hw bit n i hic]
    simp [hne]
  · rw [getLsbD_fold_of_le c hc bit (n + 1) (i + 1) (by omega)]
    by_cases heq : i = c - 1
    · simp [heq, show c - 1 < w by omega]
    · rw [getLsbD_fold_of_le c hc _ n i (by omega)]
      simp [heq]

def word (w : Nat) (bit : Nat → Bool) : Nat → BitVec w
  | 0 => 0#w
  | n + 1 => word w bit n ||| place w (bit n) n

theorem word_zeros (n : Nat) : word w (fun _ => false) n = 0#w := by
  induction n with
  | zero => rfl
  | succ n ih => simp [word, ih, place]

private theorem getLsbD_word (bit : Nat → Bool) (n i : Nat) :
    (word w bit n).getLsbD i = (bit i && decide (i < n ∧ i < w)) := by
  induction n with
  | zero => simp [word]
  | succ n ih =>
    rw [word, getLsbD_or, ih, getLsbD_place]
    by_cases heq : i = n
    · subst heq
      simp
    · have hiff : (i < n + 1 ∧ i < w) ↔ (i < n ∧ i < w) := by omega
      have hne : ¬ (i = n ∧ i < w) := fun h => heq h.1
      rw [decide_eq_false hne, Bool.and_false, Bool.or_false, decide_eq_decide.mpr hiff]

theorem word_shift (bit : Nat → Bool) (n : Nat) :
    ((word w (fun j => bit (j + 1)) n <<< 1) ||| place w (bit 0) 0) &&&
      BitVec.ofNat w (2 ^ n - 1) = word w bit n := by
  apply eq_of_getLsbD_eq
  intro i hi
  rw [getLsbD_and, getLsbD_or, getLsbD_shiftLeft, getLsbD_place, getLsbD_mask,
    getLsbD_word, getLsbD_word]
  cases i with
  | zero => simp [hi]
  | succ i =>
    by_cases hn : i + 1 < n
    · simp [hi, hn, show i < n by omega, show i < w by omega]
    · simp [hn]

end Gem5Core.Lib.Folding
