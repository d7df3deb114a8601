import Gem5Core.Lib.RotateMix
import Gem5Core.Pred.TageBase

/-! The hash `F` of the path history. Its rotation is written with shifts in an `int`, which is one
only when the bank is not above the width and the rest of the history fits the word. -/
namespace Gem5Core.Pred.PathHash
open Lib.RotateMix TageBase BitVec

def ltage (takenOnlyHistory : Bool) : Params :=
  { Params.defaults takenOnlyHistory with
    nHistoryTables := 12
    maxHist := 640
    histLengths := fun i => [0, 4, 6, 10, 16, 25, 40, 64, 101, 160, 254, 403, 640].getD i 0
    tagTableTagWidths := fun i => [0, 7, 7, 8, 8, 9, 10, 11, 12, 12, 13, 14, 15].getD i 0
    logTagTableSizes := fun i => [14, 10, 10, 11, 11, 11, 11, 10, 10, 10, 10, 9, 9].getD i 0 }

variable (p : Params)

def shiftAmounts (size bank : Nat) : List Int :=
  let log : Int := p.logTagTableSizes bank
  [size, log, log, bank, log, log - bank, bank, log, log - bank]

section

variable (log size : Nat) (A : BitVec 32)

def low : BitVec log := BitVec.ofNat log (A.toNat % 2 ^ size)

def high : BitVec log := BitVec.ofNat log (A.toNat % 2 ^ size / 2 ^ log)

/-- What `F` is for: a rotation in a word of `log` bits. -/
def pathHash (bank : Nat) : BitVec log :=
  (low log size A ^^^ (high log size A).rotateLeft bank).rotateLeft bank

end

section

def rotated (log bank : Nat) (A : BitVec 32) : BitVec 32 :=
  ((A <<< bank) &&& lowMask log) + asr A ((log : Int) - bank)

variable (A : BitVec 32)

theorem F_eq (size bank : Nat) :
    F p A size bank = rotated (p.logTagTableSizes bank) bank
      (A &&& lowMask size &&& lowMask (p.logTagTableSizes bank) ^^^
        rotated (p.logTagTableSizes bank) bank
          (asr (A &&& lowMask size) (p.logTagTableSizes bank))) := rfl

variable {log bank size : Nat}

private theorem rotated_setWidth (hlog : log ≤ 31) (hbank : bank ≤ log) (x : BitVec log) :
    rotated log bank (x.setWidth 32) = (x.rotateLeft bank).setWidth 32 := by
  have hamount : ((log : Int) - bank).toNat = log - bank := by omega
  rw [rotated, asr, hamount]
  exact rotateLeft_eq_shifts (by omega) hbank x

theorem toNat_and_lowMask (hsize : size ≤ 31) :
    (A &&& lowMask size).toNat = A.toNat % 2 ^ size := by
  have hpow : 2 ^ size ≤ 2 ^ 31 := Nat.pow_le_pow_right (by decide) hsize
  have hmask : (lowMask size).toNat = 2 ^ size - 1 :=
    Nat.mod_eq_of_lt (by omega)
  rw [toNat_and, hmask, Nat.and_two_pow_sub_one_eq_mod]

theorem low_part (hsize : size ≤ 31) (hlog : log ≤ 31) :
    A &&& lowMask size &&& lowMask log = (low log size A).setWidth 32 := by
  have hpow : 2 ^ log ≤ 2 ^ 31 := Nat.pow_le_pow_right (by decide) hlog
  apply eq_of_toNat_eq
  rw [toNat_and_lowMask _ hlog, toNat_and_lowMask _ hsize, low, toNat_setWidth]
  exact (Nat.mod_eq_of_lt ((Nat.mod_lt _ (Nat.two_pow_pos log)).trans_le (by omega))).symm

theorem toNat_asr_log (hsize : size ≤ 31) (log : Nat) :
    (asr (A &&& lowMask size) log).toNat = A.toNat % 2 ^ size / 2 ^ log := by
  have hpow : 2 ^ size ≤ 2 ^ 31 := Nat.pow_le_pow_right (by decide) hsize
  have hlt : (A &&& lowMask size).toNat < 2 ^ 31 := by
    rw [toNat_and_lowMask A hsize]
    exact (Nat.mod_lt _ (Nat.two_pow_pos size)).trans_le hpow
  have hmsb : (A &&& lowMask size).msb = false := msb_eq_false_iff_two_mul_lt.mpr (by omega)
  rw [asr, sshiftRight_eq_of_msb_false hmsb, toNat_ushiftRight,
    toNat_and_lowMask A hsize, Int.toNat_natCast, Nat.shiftRight_eq_div_pow]

private theorem high_part (hsize : size ≤ 31) (hlog : log ≤ 31) (hfit : size ≤ 2 * log) :
    asr (A &&& lowMask size) log = (high log size A).setWidth 32 := by
  have hpow : 2 ^ log ≤ 2 ^ 31 := Nat.pow_le_pow_right (by decide) hlog
  have hrest : A.toNat % 2 ^ size / 2 ^ log < 2 ^ log := by
    rw [Nat.div_lt_iff_lt_mul (Nat.two_pow_pos log), ← Nat.pow_add]
    exact (Nat.mod_lt _ (Nat.two_pow_pos size)).trans_le
      (Nat.pow_le_pow_right (by decide) (by omega))
  apply eq_of_toNat_eq
  rw [toNat_asr_log A hsize, high, toNat_setWidth, toNat_ofNat,
    Nat.mod_eq_of_lt hrest, Nat.mod_eq_of_lt (hrest.trans_le (by omega))]

end

section

variable {p}

private theorem F_eq_pathHash (A : BitVec 32) {size bank : Nat} (hsize : size ≤ 31)
    (hlog : p.logTagTableSizes bank ≤ 31) (hbank : bank ≤ p.logTagTableSizes bank)
    (hfit : size ≤ 2 * p.logTagTableSizes bank) :
    F p A size bank = (pathHash (p.logTagTableSizes bank) size A bank).setWidth 32 := by
  rw [F_eq, low_part A hsize hlog, high_part A hsize hlog hfit, rotated_setWidth hlog hbank,
    ← setWidth_xor, rotated_setWidth hlog hbank]
  rfl

private theorem rotated_overflow :
    ∀ log < 16, ∀ bank < log + 1,
      rotated log bank (rotated log bank (BitVec.ofNat 32 (2 ^ log))) ≠ 0#32 := by
  decide +kernel

theorem F_overflow {size bank : Nat} (hsize : size ≤ 31) (hbank : bank ≤ p.logTagTableSizes bank)
    (hwide : 2 * p.logTagTableSizes bank < size) :
    F p (BitVec.ofNat 32 (2 ^ (2 * p.logTagTableSizes bank))) size bank ≠ 0#32 ∧
      pathHash (p.logTagTableSizes bank) size
        (BitVec.ofNat 32 (2 ^ (2 * p.logTagTableSizes bank))) bank =
          BitVec.ofNat _ 0 := by
  generalize hlog : p.logTagTableSizes bank = log at *
  have hlt : 2 ^ (2 * log) < 2 ^ size := Nat.pow_lt_pow_right (by decide) hwide
  have hpow : 2 ^ size ≤ 2 ^ 31 := Nat.pow_le_pow_right (by decide) hsize
  have hA : (BitVec.ofNat 32 (2 ^ (2 * log))).toNat % 2 ^ size = 2 ^ log * 2 ^ log := by
    rw [toNat_ofNat, Nat.mod_eq_of_lt (a := 2 ^ (2 * log)) (by omega), Nat.mod_eq_of_lt hlt,
      ← Nat.pow_add, Nat.two_mul]
  have hlow : low log size (BitVec.ofNat 32 (2 ^ (2 * log))) = BitVec.ofNat log 0 := by
    rw [low, hA]
    apply eq_of_toNat_eq
    rw [toNat_ofNat, Nat.mul_mod_right]
    rfl
  have hhigh : high log size (BitVec.ofNat 32 (2 ^ (2 * log))) = BitVec.ofNat log 0 := by
    rw [high, hA, Nat.mul_div_cancel _ (Nat.two_pow_pos log)]
    apply eq_of_toNat_eq
    rw [toNat_ofNat, Nat.mod_self]
    rfl
  constructor
  · have hrest : asr (BitVec.ofNat 32 (2 ^ (2 * log)) &&& lowMask size) log =
        BitVec.ofNat 32 (2 ^ log) := by
      apply eq_of_toNat_eq
      rw [toNat_asr_log _ hsize, hA, Nat.mul_div_cancel _ (Nat.two_pow_pos log), toNat_ofNat,
        Nat.mod_eq_of_lt]
      have hle : 2 ^ log ≤ 2 ^ (2 * log) := Nat.pow_le_pow_right (by decide) (by omega)
      omega
    rw [F_eq, hlog, hrest, low_part _ hsize (by omega), hlow, setWidth_zero, zero_xor]
    exact rotated_overflow log (by omega) bank (by omega)
  · rw [pathHash, hlow, hhigh, zero_rotateLeft, zero_xor, zero_rotateLeft]

theorem shiftAmounts_iff {size bank : Nat} (hsize : size ≤ 31) :
    (∀ k ∈ shiftAmounts p size bank, 0 ≤ k ∧ k ≤ 31) ↔
      p.logTagTableSizes bank ≤ 31 ∧ bank ≤ p.logTagTableSizes bank := by
  simp only [shiftAmounts, List.forall_mem_cons]
  constructor
  · rintro ⟨-, hlog, -, -, -, hdiff, -⟩
    omega
  · intro h
    refine ⟨?_, ?_, ?_, ?_, ?_, ?_, ?_, ?_, ?_, nofun⟩ <;> omega

/-- The conditions under which `F` is the hash it is meant to be: the bank is
not above the width, and the history not longer than two words. -/
theorem F_rotates_iff (p : Params) {size : Nat} (hsize : size ≤ 31) (bank : Nat) :
    ((∀ k ∈ shiftAmounts p size bank, 0 ≤ k ∧ k ≤ 31) ∧
      ∀ A, (F p A size bank).toNat < 2 ^ p.logTagTableSizes bank ∧
        (F p A size bank).toNat = (pathHash (p.logTagTableSizes bank) size A bank).toNat) ↔
    p.logTagTableSizes bank ≤ 31 ∧ bank ≤ p.logTagTableSizes bank ∧
      size ≤ 2 * p.logTagTableSizes bank := by
  rw [shiftAmounts_iff hsize]
  constructor
  · rintro ⟨⟨hlog, hbank⟩, hrotates⟩
    refine ⟨hlog, hbank, ?_⟩
    by_contra hwide
    obtain ⟨hF, hhash⟩ := F_overflow hsize hbank (Nat.lt_of_not_le hwide)
    have hzero := (hrotates (BitVec.ofNat 32 (2 ^ (2 * p.logTagTableSizes bank)))).2
    rw [hhash] at hzero
    exact hF (BitVec.eq_of_toNat_eq hzero)
  · rintro ⟨hlog, hbank, hfit⟩
    refine ⟨⟨hlog, hbank⟩, fun A => ?_⟩
    have hpow : 2 ^ p.logTagTableSizes bank ≤ 2 ^ 31 := Nat.pow_le_pow_right (by decide) hlog
    have hlt := (pathHash (p.logTagTableSizes bank) size A bank).isLt
    rw [F_eq_pathHash A hsize hlog hbank hfit, BitVec.toNat_setWidth, Nat.mod_eq_of_lt (by omega)]
    exact ⟨hlt, rfl⟩

theorem F_rotates_tage :
    (∀ k ∈ shiftAmounts (.defaults false) 16 7, 0 ≤ k ∧ k ≤ 31) ∧
      ∀ A, (F (.defaults false) A 16 7).toNat < 2 ^ 9 ∧
        (F (.defaults false) A 16 7).toNat = (pathHash 9 16 A 7).toNat :=
  (F_rotates_iff (.defaults false) (by decide) 7).mpr (by decide)

/-- The last two banks of LTAGE shift by a negative amount, and a history of 31
bits leaves the word of a TAGE bank. -/
theorem F_not_rotates :
    (∃ bank, 1 ≤ bank ∧ bank ≤ (ltage false).nHistoryTables ∧
      ∃ k ∈ shiftAmounts (ltage false) 16 bank, k < 0) ∧
    ∃ bank, 1 ≤ bank ∧ bank ≤ (Params.defaults false).nHistoryTables ∧
      ∃ A, 2 ^ (Params.defaults false).logTagTableSizes bank ≤
        (F (.defaults false) A 31 bank).toNat := by
  exact ⟨⟨11, by decide, by decide, -2, by decide, by decide⟩,
    7, by decide, by decide, 0x400000#32, by decide +kernel⟩

end

end Gem5Core.Pred.PathHash
