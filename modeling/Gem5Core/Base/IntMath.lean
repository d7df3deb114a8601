import Mathlib.Data.Nat.Bitwise

/-! The integer helpers of `base/intmath.hh` on `unsigned`, and the masks that the
predictors compute on `int`. -/
namespace Gem5Core.Base.IntMath

abbrev Unsigned := BitVec 32

def isPowerOf2 (n : Unsigned) : Bool :=
  n != 0 && (n &&& (n - 1)) == 0

def log2Step (mask : Unsigned) (amount : Nat) (acc : Nat × Unsigned) : Nat × Unsigned :=
  if acc.2 &&& mask != 0 then (acc.1 + amount, acc.2 >>> amount) else acc

def floorLog2 (x : Unsigned) : Nat :=
  (log2Step 0x2 1 (log2Step 0xc 2 (log2Step 0xf0 4 (log2Step 0xff00 8
    (log2Step 0xffff0000 16 (0, x)))))).1

def ceilLog2 (n : Unsigned) : Nat := if n = 1 then 0 else floorLog2 (n - 1) + 1

/-- `(1 << k) - 1` on `int`. A count outside 0..31 is undefined; the machine takes it modulo 32. -/
def ones (k : Int) : BitVec 32 := (1#32 <<< (k % 32).toNat) - 1

theorem isPowerOf2_pos {n : Unsigned} (h : isPowerOf2 n = true) : 0 < n.toNat := by
  simp only [isPowerOf2, Bool.and_eq_true, bne_iff_ne, ne_eq] at h
  have hne : n.toNat ≠ 0 := by
    intro hz
    exact h.1 (BitVec.eq_of_toNat_eq (by simpa using hz))
  omega

theorem and_sub_one_lt (a : Nat) {n : Unsigned} (hpos : 0 < n.toNat) :
    a &&& (n - 1).toNat < n.toNat := by
  have hle : a &&& (n - 1).toNat ≤ (n - 1).toNat := Nat.and_le_right
  have hsub : (n - 1).toNat = n.toNat - 1 := by
    simp
    omega
  omega

theorem exists_eq_two_pow {n : Unsigned} (h : isPowerOf2 n = true) :
    ∃ k, k < 32 ∧ n = BitVec.ofNat 32 (2 ^ k) := by
  have hpos := isPowerOf2_pos h
  have hlow : 2 ^ n.toNat.log2 ≤ n.toNat := Nat.log2_self_le (by omega)
  have hhigh : n.toNat < 2 ^ (n.toNat.log2 + 1) := Nat.lt_log2_self
  have hlog : n.toNat.log2 < 32 := (Nat.log2_lt (by omega)).mpr n.isLt
  refine ⟨n.toNat.log2, hlog, ?_⟩
  by_contra hne
  have hgt : 2 ^ n.toNat.log2 < n.toNat := by
    refine lt_of_le_of_ne hlow fun heq => hne ?_
    rw [heq, BitVec.ofNat_toNat, BitVec.setWidth_eq]
  have hsub : (n - 1).toNat = n.toNat - 1 := by
    simp
    omega
  have hbit : (n &&& (n - 1)).toNat.testBit n.toNat.log2 = true := by
    rw [BitVec.toNat_and, Nat.testBit_and,
      Nat.testBit_of_two_pow_le_and_two_pow_add_one_gt hlow hhigh,
      Nat.testBit_of_two_pow_le_and_two_pow_add_one_gt (by omega) (by omega)]
    rfl
  simp only [isPowerOf2, Bool.and_eq_true, beq_iff_eq] at h
  rw [h.2] at hbit
  simp at hbit

private theorem ceilLog2_two_pow : ∀ k < 32, ceilLog2 (BitVec.ofNat 32 (2 ^ k)) = k := by
  decide

theorem two_pow_ceilLog2 {n : Unsigned} (h : isPowerOf2 n = true) :
    ceilLog2 n < 32 ∧ n.toNat = 2 ^ ceilLog2 n := by
  obtain ⟨k, hk, rfl⟩ := exists_eq_two_pow h
  rw [ceilLog2_two_pow k hk]
  exact ⟨hk, Nat.mod_eq_of_lt (Nat.pow_lt_pow_right (by decide) hk)⟩

end Gem5Core.Base.IntMath
