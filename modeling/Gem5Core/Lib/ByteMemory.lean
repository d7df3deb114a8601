import Mathlib.Data.List.Nodup

/-! Ranges of bytes, and a memory that remembers the writes made to it in order. -/
namespace Gem5Core.Lib.ByteMemory
open List

structure Range where
  start : Nat
  size : Nat

namespace Range

variable (r s : Range)

def Has (b : Nat) : Prop := r.start ≤ b ∧ b < r.start + r.size

instance (b : Nat) : Decidable (r.Has b) := inferInstanceAs (Decidable (_ ∧ _))

def Overlaps : Prop := ∃ b, r.Has b ∧ s.Has b

def Within : Prop := ∀ b, r.Has b → s.Has b

/-- The range has bytes, and the address behind its last one is below `limit`. So a range that ends
at the last byte does not fit: its end address wraps to 0 where it is computed modulo `limit`. -/
@[mk_iff] structure Fits (limit : Nat) : Prop where
  positive : 0 < r.size
  bounded : r.start + r.size < limit

instance (limit : Nat) : Decidable (r.Fits limit) :=
  decidable_of_iff' _ (fits_iff r limit)

variable {r s}

theorem overlaps_iff (hr : 0 < r.size) (hs : 0 < s.size) :
    r.Overlaps s ↔ r.start < s.start + s.size ∧ s.start < r.start + r.size := by
  constructor
  · rintro ⟨b, hrb, hsb⟩
    unfold Has at hrb hsb
    omega
  · intro h
    refine ⟨max r.start s.start, ?_, ?_⟩ <;> unfold Has <;> omega

theorem within_iff (hr : 0 < r.size) :
    r.Within s ↔ s.start ≤ r.start ∧ r.start + r.size ≤ s.start + s.size := by
  constructor
  · intro h
    have hfirst := h r.start ⟨Nat.le_refl _, by omega⟩
    have hlast := h (r.start + r.size - 1) ⟨by omega, by omega⟩
    unfold Has at hfirst hlast
    omega
  · intro h b hb
    unfold Has at hb ⊢
    omega

theorem Within.overlaps (h : r.Within s) (hr : 0 < r.size) : r.Overlaps s :=
  ⟨r.start, ⟨Nat.le_refl _, by omega⟩, h r.start ⟨Nat.le_refl _, by omega⟩⟩

end Range

/-- What a write is: its bytes, their values, and its place in the order of the program. -/
structure Writes (ω β : Type*) where
  range : ω → Range
  value : ω → Nat → β
  stamp : ω → Nat

namespace Writes

variable {ω β : Type*} (W : Writes ω β) (init : Nat → β)

/-- The value of a byte after writes were made one after the other: that of the last write
to it, or the initial one. -/
def contents (writes : List ω) (b : Nat) : β :=
  match (writes.filter fun w => decide ((W.range w).Has b)).getLast? with
  | some w => W.value w b
  | none => init b

/-- The value that the youngest of the writes in `S` gives the byte, or the initial one. -/
inductive Shows (S : ω → Prop) (b : Nat) : β → Prop
  | written {w : ω} : S w → (W.range w).Has b →
      (∀ w', S w' → (W.range w').Has b → W.stamp w' ≤ W.stamp w) → Shows S b (W.value w b)
  | untouched : (∀ w, S w → ¬ (W.range w).Has b) → Shows S b (init b)

variable {W init} {S S' : ω → Prop} {b : Nat} {v v' : β}

theorem Shows.congr (h : W.Shows init S b v) (hS : ∀ w, (W.range w).Has b → (S' w ↔ S w)) :
    W.Shows init S' b v := by
  cases h with
  | written hw hb hlast =>
    exact .written ((hS _ hb).mpr hw) hb fun w' hw' hb' => hlast w' ((hS w' hb').mp hw') hb'
  | untouched hnone => exact .untouched fun w hw hb => hnone w ((hS w hb).mp hw) hb

theorem Shows.map {ω' : Type*} {W' : Writes ω' β} {f : ω → ω'} {S' : ω' → Prop}
    (h : W.Shows init S b v) (hS : ∀ w', S' w' ↔ ∃ w, S w ∧ f w = w')
    (hrange : ∀ w, S w → W'.range (f w) = W.range w)
    (hvalue : ∀ w, S w → W'.value (f w) b = W.value w b) (hstamp : ∀ w, W'.stamp (f w) = W.stamp w) :
    W'.Shows init S' b v := by
  cases h with
  | written hw hb hlast =>
    rw [← hvalue _ hw]
    refine .written ((hS _).mpr ⟨_, hw, rfl⟩) (hrange _ hw ▸ hb) fun w' hw' hb' => ?_
    obtain ⟨x, hx, rfl⟩ := (hS w').mp hw'
    rw [hstamp, hstamp]
    exact hlast x hx (hrange x hx ▸ hb')
  | untouched hnone =>
    refine .untouched fun w' hw' hb' => ?_
    obtain ⟨x, hx, rfl⟩ := (hS w').mp hw'
    exact hnone x hx (hrange x hx ▸ hb')

theorem Shows.unique (h : W.Shows init S b v) (h' : W.Shows init S b v')
    (hS : ∀ w w', S w → S w' → W.stamp w = W.stamp w' → w = w') : v = v' := by
  cases h with
  | written hw hb hlast =>
    cases h' with
    | written hw' hb' hlast' =>
      rw [hS _ _ hw hw' (Nat.le_antisymm (hlast' _ hw hb) (hlast _ hw' hb'))]
    | untouched hnone => exact absurd hb (hnone _ hw)
  | untouched hnone =>
    cases h' with
    | written hw' hb' _ => exact absurd hb' (hnone _ hw')
    | untouched _ => rfl

variable {writes : List ω}

theorem shows_contents (hs : writes.Pairwise (W.stamp · < W.stamp ·)) (b : Nat) :
    W.Shows init (· ∈ writes) b (W.contents init writes b) := by
  unfold contents
  split
  · next w hlast =>
    obtain ⟨front, hfront⟩ := List.getLast?_eq_some_iff.mp hlast
    have hmem : w ∈ writes.filter fun w => decide ((W.range w).Has b) := by simp [hfront]
    have hb := (mem_filter.mp hmem).2
    refine .written (mem_filter.mp hmem).1 (by simpa using hb) fun w' hw' hb' => ?_
    have hmem' : w' ∈ front ++ [w] := hfront ▸ mem_filter.mpr ⟨hw', by simpa using hb'⟩
    have hsorted := hs.filter fun w => decide ((W.range w).Has b)
    rw [hfront, pairwise_append] at hsorted
    rcases mem_append.mp hmem' with h | h
    · exact Nat.le_of_lt (hsorted.2.2 w' h w (mem_singleton_self w))
    · exact Nat.le_of_eq (congrArg W.stamp (mem_singleton.mp h))
  · next hnone =>
    rw [List.getLast?_eq_none_iff, filter_eq_nil_iff] at hnone
    exact .untouched fun w hw => by simpa using hnone w hw

theorem Shows.eq_contents (h : W.Shows init (· ∈ writes) b v)
    (hs : writes.Pairwise (W.stamp · < W.stamp ·)) : v = W.contents init writes b := by
  have hnodup : (writes.map W.stamp).Nodup :=
    pairwise_map.mpr (hs.imp fun hlt => Nat.ne_of_lt hlt)
  exact h.unique (shows_contents hs b) fun _ _ hw hw' => inj_on_of_nodup_map hnodup hw hw'

end Writes

end Gem5Core.Lib.ByteMemory
