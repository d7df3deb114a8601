import Mathlib.Data.List.GetD

/-! A ring of `d` cells read as a history, newest first. `w` is the cell that is written next. -/
namespace Gem5Core.Lib.RingHistory
open List

variable {α : Type*} {d w : Nat}

def slot (d w i : Nat) : Nat := (w + d - 1 - i) % d

/-- The whole ring, newest first; `z` is what an absent cell reads as. -/
def window (d w : Nat) (z : α) (ring : List α) : List α :=
  (List.range d).map fun i => ring.getD (slot d w i) z

section

variable (hw : w < d)
include hw

theorem slot_lt (i : Nat) : slot d w i < d := Nat.mod_lt _ (by omega)

theorem slot_eq {i : Nat} (hi : i < d) :
    slot d w i = if i < w then w - 1 - i else w + d - 1 - i := by
  unfold slot
  split
  · have hsplit : w + d - 1 - i = w - 1 - i + d := by omega
    rw [hsplit, Nat.add_mod_right, Nat.mod_eq_of_lt (by omega)]
  · exact Nat.mod_eq_of_lt (by omega)

theorem slot_injective {i j : Nat} (hi : i < d) (hj : j < d) (h : slot d w i = slot d w j) :
    i = j := by
  rw [slot_eq hw hi, slot_eq hw hj] at h
  split at h <;> split at h <;> omega

theorem advance_eq : (w + 1) % d = if w + 1 = d then 0 else w + 1 := by
  split
  · rename_i h
    rw [h, Nat.mod_self]
  · exact Nat.mod_eq_of_lt (by omega)

theorem advance_lt : (w + 1) % d < d := Nat.mod_lt _ (by omega)

private theorem slot_advance_zero : slot d ((w + 1) % d) 0 = w := by
  rw [slot_eq (advance_lt hw) (by omega), advance_eq hw]
  split <;> split <;> omega

private theorem slot_advance_succ {i : Nat} (hi : i + 1 < d) :
    slot d ((w + 1) % d) (i + 1) = slot d w i := by
  rw [slot_eq (advance_lt hw) hi, slot_eq hw (by omega), advance_eq hw]
  split <;> split <;> split <;> omega

private theorem slot_ne_next {i : Nat} (hi : i + 1 < d) : slot d w i ≠ w := by
  rw [slot_eq hw (by omega)]
  split <;> omega

end

@[simp] theorem length_window (z : α) (ring : List α) : (window d w z ring).length = d := by
  simp [window]

theorem getD_window (z : α) (ring : List α) {i : Nat} (hi : i < d) :
    (window d w z ring).getD i z = ring.getD (slot d w i) z := by
  rw [getD_eq_getElem _ _ (by simpa using hi)]
  simp [window]

theorem window_replicate (z : α) : window d w z (List.replicate d z) = List.replicate d z := by
  apply ext_getElem
  · simp
  · intro i hi _
    simp [window]

theorem window_push (z x : α) {ring : List α} (hlen : ring.length = d) (hw : w < d) :
    window d ((w + 1) % d) z (ring.set w x) = (x :: window d w z ring).take d := by
  apply ext_getElem
  · simp
  · intro i hi _
    have hid : i < d := by simpa using hi
    rw [getElem_take]
    simp only [window, getElem_map, getElem_range]
    cases i with
    | zero =>
      rw [slot_advance_zero hw, getD_eq_getElem _ _ (by simpa [hlen] using hw),
        getElem_set_self]
      rfl
    | succ i =>
      have hslot : slot d w i < ring.length := hlen ▸ slot_lt hw i
      rw [slot_advance_succ hw hid, getD_eq_getElem _ _ (by simpa using hslot),
        getElem_set_ne (slot_ne_next hw hid).symm]
      simp [hslot]

/-- The newest `d` of a history, padded to that length. -/
def padded (d : Nat) (z : α) (history : List α) : List α :=
  (history ++ List.replicate d z).take d

@[simp] theorem length_padded (z : α) (history : List α) : (padded d z history).length = d := by
  simp [padded]

theorem padded_nil (z : α) : padded d z [] = List.replicate d z := by
  simp [padded]

theorem padded_push (z x : α) (history : List α) :
    (x :: padded d z history).take d = padded d z (x :: history) := by
  cases d with
  | zero => rfl
  | succ d =>
    simp only [padded, take_succ_cons, cons_append, take_take]
    rw [Nat.min_eq_left (Nat.le_succ d)]

theorem getD_padded (z : α) (history : List α) {i : Nat} (hi : i < d) :
    (padded d z history).getD i z = history.getD i z := by
  rw [getD_eq_getElem _ _ (by simpa using hi)]
  simp only [padded, getElem_take, getElem_append]
  split
  · rename_i h
    rw [getD_eq_getElem _ _ h]
  · rename_i h
    rw [getElem_replicate, getD_eq_default _ _ (Nat.le_of_not_lt h)]

end Gem5Core.Lib.RingHistory
