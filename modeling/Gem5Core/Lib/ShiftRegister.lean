import Mathlib.Data.Nat.Bitwise

/-! Registers into which outcomes are shifted, newest at position 0, and the window on them that is
read. -/
namespace Gem5Core.Lib.ShiftRegister

variable {w : Nat}

def mask (w n : Nat) : BitVec w := BitVec.ofNat w (2 ^ n - 1)

def push (x : BitVec w) (bit : Bool) : BitVec w := (x <<< 1) ||| (if bit then 1 else 0)

def window (w n : Nat) (bits : List Bool) : BitVec w :=
  (bits.take n).foldr (fun bit x => push x bit) 0

theorem getLsbD_mask (n i : Nat) : (mask w n).getLsbD i = (decide (i < w) && decide (i < n)) := by
  unfold mask
  rw [BitVec.getLsbD_ofNat, Nat.testBit_two_pow_sub_one]

theorem getLsbD_push (x : BitVec w) (bit : Bool) (i : Nat) :
    (push x bit).getLsbD i = (decide (i < w) && if i = 0 then bit else x.getLsbD (i - 1)) := by
  unfold push
  cases i with
  | zero => cases bit <;> by_cases hw : 0 < w <;> simp [hw]
  | succ i => cases bit <;> simp

private theorem getLsbD_foldr (bits : List Bool) (i : Nat) :
    (bits.foldr (fun bit (x : BitVec w) => push x bit) 0).getLsbD i =
      (decide (i < w) && bits.getD i false) := by
  induction bits generalizing i with
  | nil => simp
  | cons bit bits ih =>
    rw [List.foldr_cons, getLsbD_push]
    cases i with
    | zero => rfl
    | succ i =>
      rw [Nat.succ_sub_one, ih, List.getD_cons_succ]
      by_cases hi : i + 1 < w
      · simp [hi, Nat.lt_of_succ_lt hi]
      · simp [hi]

theorem getLsbD_window (n : Nat) (bits : List Bool) (i : Nat) :
    (window w n bits).getLsbD i = (decide (i < w) && decide (i < n) && bits.getD i false) := by
  unfold window
  rw [getLsbD_foldr]
  by_cases hn : i < n
  · simp [hn]
  · rw [List.getD_eq_getElem?_getD, List.getElem?_take, if_neg hn, decide_eq_false hn]
    simp

@[simp] theorem window_nil (n : Nat) : window w n [] = 0 := by
  simp [window]

theorem window_and_mask (n : Nat) (bits : List Bool) :
    window w n bits &&& mask w n = window w n bits := by
  apply BitVec.eq_of_getLsbD_eq
  intro i hi
  rw [BitVec.getLsbD_and, getLsbD_window, getLsbD_mask]
  cases decide (i < w) <;> cases decide (i < n) <;> simp

theorem push_and_mask {n : Nat} {x : BitVec w} {bits : List Bool}
    (h : x &&& mask w n = window w n bits) (bit : Bool) :
    push x bit &&& mask w n = window w n (bit :: bits) := by
  apply BitVec.eq_of_getLsbD_eq
  intro i hi
  rw [BitVec.getLsbD_and, getLsbD_push, getLsbD_mask, getLsbD_window]
  cases i with
  | zero => simp [hi, Bool.and_comm]
  | succ i =>
    have hbit := congrArg (fun y => y.getLsbD i) h
    simp only [BitVec.getLsbD_and, getLsbD_mask, getLsbD_window] at hbit
    have hi' : i < w := Nat.lt_of_succ_lt hi
    by_cases hn : i + 1 < n
    · have hn' : i < n := Nat.lt_of_succ_lt hn
      simp only [hi', hn', decide_true, Bool.and_true, Bool.true_and] at hbit
      simp [hi, hn, hbit]
    · simp [hn]

theorem window_ne_allOnes {n : Nat} (hn : n < w) (bits : List Bool) :
    window w n bits ≠ BitVec.allOnes w := by
  intro h
  have hbit := congrArg (fun y => y.getLsbD n) h
  simp only [getLsbD_window, BitVec.getLsbD_allOnes, hn, lt_irrefl] at hbit
  simp at hbit

end Gem5Core.Lib.ShiftRegister
