import Gem5Core.Pred.TageWindow

/-! Which buffer sizes make the rollover of the TAGE history safe. `init` accepts every buffer
longer than three times `maxHist`, but the window that is copied is 1000 bits longer than `maxHist`.
-/
namespace Gem5Core.Pred.TageRollover
open TageBase TageWindow List

/-- The sizes that `init` accepts; both are `unsigned`. -/
structure Accepted (p : Params) : Prop where
  unsigned : p.histBufferSize < 2 ^ 32
  size : 3 * p.maxHist < p.histBufferSize

/-- The rollover stayed in the buffer and the newest window reads as before. -/
structure Kept (p : Params) (t t' : ThreadHistory) : Prop where
  inBounds : t'.inBounds = true
  readable : ∀ i : Nat, i < p.maxHist + rollbackBuffer → t.ptGhist + i < p.histBufferSize →
    (0 ≤ t'.ptGhist + i ∧ t'.ptGhist + i < p.histBufferSize) ∧
      t'.globalHist (t'.ptGhist + i) = t.globalHist (t.ptGhist + i)

/-- The rollover before `n` bits are shifted in is safe, whatever the pointer
below `n` and the contents. -/
def Safe (p : Params) (n : Nat) : Prop :=
  ∀ t : ThreadHistory, t.inBounds = true → 0 ≤ t.ptGhist → t.ptGhist < n →
    Kept p t (rollover p t)

section

variable {p : Params} {t : ThreadHistory}

theorem foldl_succ (k : Nat) :
    (range (k + 1)).foldl (copyEntry p) t =
      copyEntry p ((range k).foldl (copyEntry p) t) k := by
  rw [range_succ, foldl_append, foldl_cons, foldl_nil]

theorem foldl_ptGhist (k : Nat) :
    ((range k).foldl (copyEntry p) t).ptGhist = t.ptGhist := by
  induction k with
  | zero => rfl
  | succ k ih => rw [foldl_succ, ← ih]; rfl

theorem foldl_inBounds_iff (k : Nat) :
    ((range k).foldl (copyEntry p) t).inBounds = true ↔
      t.inBounds = true ∧ ∀ i < k, (0 ≤ t.ptGhist + i ∧ t.ptGhist + i < p.histBufferSize) ∧
        (rolloverPoint p + i) % 2 ^ 32 < p.histBufferSize := by
  induction k with
  | zero => simp
  | succ k ih =>
    have hstep : ((range (k + 1)).foldl (copyEntry p) t).inBounds =
        (((range k).foldl (copyEntry p) t).inBounds &&
          decide (0 ≤ t.ptGhist + k ∧ t.ptGhist + k < p.histBufferSize) &&
          decide ((rolloverPoint p + k) % 2 ^ 32 < p.histBufferSize)) := by
      rw [foldl_succ, ← foldl_ptGhist (p := p) (t := t) k]
      simp only [copyEntry, access, Int.natCast_nonneg, true_and, Int.ofNat_lt]
    rw [hstep, Bool.and_eq_true, Bool.and_eq_true, ih, decide_eq_true_eq, decide_eq_true_eq]
    constructor
    · rintro ⟨⟨⟨hin, hall⟩, hread⟩, hwrite⟩
      refine ⟨hin, fun i hi => ?_⟩
      rcases Nat.lt_succ_iff_lt_or_eq.mp hi with hlt | rfl
      · exact hall i hlt
      · exact ⟨hread, hwrite⟩
    · rintro ⟨hin, hall⟩
      have hlast := hall k (Nat.lt_succ_self k)
      exact ⟨⟨⟨hin, fun i hi => hall i (Nat.lt_succ_of_lt hi)⟩, hlast.1⟩, hlast.2⟩

theorem foldl_globalHist_succ {k : Nat} (hwrap : rolloverPoint p + k < 2 ^ 32) :
    ((range (k + 1)).foldl (copyEntry p) t).globalHist =
      Function.update ((range k).foldl (copyEntry p) t).globalHist (rolloverPoint p + k)
        (((range k).foldl (copyEntry p) t).globalHist (t.ptGhist + k)) := by
  rw [foldl_succ, ← foldl_ptGhist (p := p) (t := t) k]
  simp only [copyEntry, access, Nat.mod_eq_of_lt hwrap, Int.natCast_add]

theorem foldl_written {k : Nat} (hwrap : rolloverPoint p + k ≤ 2 ^ 32) {i : Nat} (hi : i < k) :
    ((range k).foldl (copyEntry p) t).globalHist (rolloverPoint p + i) =
      ((range i).foldl (copyEntry p) t).globalHist (t.ptGhist + i) := by
  induction k with
  | zero => omega
  | succ k ih =>
    rw [foldl_globalHist_succ (by omega)]
    rcases Nat.lt_succ_iff_lt_or_eq.mp hi with hlt | rfl
    · rw [Function.update_of_ne (by omega), ih (by omega) hlt]
    · rw [Function.update_self]

private theorem foldl_self (hself : t.ptGhist = rolloverPoint p) {k : Nat}
    (hwrap : rolloverPoint p + k ≤ 2 ^ 32) :
    ((range k).foldl (copyEntry p) t).globalHist = t.globalHist := by
  induction k with
  | zero => rfl
  | succ k ih =>
    rw [foldl_globalHist_succ (by omega), ih (by omega), hself, Function.update_eq_self]

end

section

variable {p : Params} (hp : Accepted p)
include hp

theorem count_eq : (p.maxHist + rollbackBuffer) % 2 ^ 32 = p.maxHist + rollbackBuffer := by
  have hsize := hp.size
  have hunsigned := hp.unsigned
  unfold rollbackBuffer
  exact Nat.mod_eq_of_lt (by omega)

private theorem safe_of_room {n : Nat}
    (hroom : 2 * (p.maxHist + rollbackBuffer) + (n - 1) ≤ p.histBufferSize)
    (hint : p.histBufferSize < 2 ^ 31 + (p.maxHist + rollbackBuffer)) : Safe p n := by
  intro t hin hpos hpt
  have hpoint := rolloverPoint_eq (p := p) (by omega) hp.unsigned
  rw [rollover_eq hin hpos (by omega) hint]
  refine ⟨hin, ?_⟩
  intro i hi _
  have hblock : (rolloverPoint p : Int) ≤ rolloverPoint p + i ∧
      (rolloverPoint p : Int) + i < p.histBufferSize := by omega
  simp only [hblock, and_self, if_true, add_sub_cancel_left, and_true]
  omega

theorem safe_of_window (heq : p.histBufferSize = p.maxHist + rollbackBuffer) : Safe p 1 := by
  intro t hin hpos hpt
  have hunsigned := hp.unsigned
  have hpoint : rolloverPoint p = 0 := by
    rw [rolloverPoint_eq (by omega) hunsigned]
    omega
  have hcopy : ((range (p.maxHist + rollbackBuffer)).foldl (copyEntry p) t).globalHist =
      t.globalHist := foldl_self (by omega) (by omega)
  have hbounds : ((range (p.maxHist + rollbackBuffer)).foldl (copyEntry p) t).inBounds =
      true := by
    rw [foldl_inBounds_iff]
    refine ⟨hin, fun i hi => ⟨by omega, ?_⟩⟩
    omega
  have hpointer := rollover_ptGhist (p := p) (t := t) (by omega)
  constructor
  · simpa only [rollover, count_eq hp] using hbounds
  · intro i _ hi
    have hsame : (rollover p t).ptGhist = t.ptGhist := by omega
    rw [hsame]
    exact ⟨by omega, by simp only [rollover, count_eq hp, hcopy]⟩

theorem Safe.bounds {n : Nat} (hn : 1 ≤ n) (h : Safe p n) (t : ThreadHistory)
    (hin : t.inBounds = true) :
    p.maxHist + rollbackBuffer + (n - 1) ≤ p.histBufferSize ∧
      p.histBufferSize < 2 ^ 31 + (p.maxHist + rollbackBuffer) := by
  have hunsigned := hp.unsigned
  have hkept := h { t with ptGhist := (n - 1 : Nat) } hin (Int.natCast_nonneg _)
    (by change ((n - 1 : Nat) : Int) < n; omega)
  have hloop := hkept.inBounds
  simp only [rollover, foldl_inBounds_iff, count_eq hp] at hloop
  have hlast := (hloop.2 (p.maxHist + rollbackBuffer - 1) (by unfold rollbackBuffer; omega)).1.2
  have hfit : p.maxHist + rollbackBuffer + (n - 1) ≤ p.histBufferSize := by
    omega
  have hpoint := rolloverPoint_eq (p := p) (by omega) hunsigned
  -- a point that no `int` holds gives a negative pointer
  have hfirst := (hkept.readable 0 (by unfold rollbackBuffer; omega)
    (by change ((n - 1 : Nat) : Int) + (0 : Nat) < _; unfold rollbackBuffer at *; omega)).1.1
  simp only [rollover, toInt, Int.bmod] at hfirst
  exact ⟨hfit, by split at hfirst <;> omega⟩

theorem not_kept_of_overlap {t : ThreadHistory}
    (hfit : p.maxHist + rollbackBuffer ≤ p.histBufferSize)
    (hint : rolloverPoint p < 2 ^ 31) (hpos : 0 ≤ t.ptGhist) (habove : t.ptGhist < rolloverPoint p)
    (hoverlap : rolloverPoint p < t.ptGhist + (p.maxHist + rollbackBuffer))
    (hdiffers : t.globalHist (rolloverPoint p) ≠ t.globalHist t.ptGhist) :
    ¬ Kept p t (rollover p t) := by
  have hunsigned := hp.unsigned
  have hpoint := rolloverPoint_eq hfit hunsigned
  intro h
  obtain ⟨d, hd⟩ : ∃ d : Nat, t.ptGhist + d = rolloverPoint p :=
    ⟨(rolloverPoint p - t.ptGhist).toNat, by omega⟩
  -- the entry that stands at the target is read after the first write replaced it
  have hread := (h.readable d (by omega) (by omega)).2
  have hspoilt : (rollover p t).globalHist (rolloverPoint p + d) = t.globalHist t.ptGhist := by
    have hfirst := foldl_written (p := p) (t := t) (k := d) (i := 0) (by omega) (by omega)
    simp only [rollover, count_eq hp]
    rw [foldl_written (by omega) (by omega), hd]
    simpa using hfirst
  rw [hd, rollover_ptGhist hint] at hread
  exact hdiffers (hread.symm.trans hspoilt)

end

/-- Over the sizes that `init` accepts, the rollover before `n` bits is safe for
every pointer and contents exactly when two windows fit above the largest pointer
and the new pointer is an `int`, or one bit meets a buffer of exactly one window. -/
theorem rollover_safe_iff (p : Params) (hp : Accepted p) (n : Nat) (hn : 1 ≤ n) :
    Safe p n ↔
      (2 * (p.maxHist + rollbackBuffer) + (n - 1) ≤ p.histBufferSize ∧
        p.histBufferSize < 2 ^ 31 + (p.maxHist + rollbackBuffer)) ∨
      (n = 1 ∧ p.histBufferSize = p.maxHist + rollbackBuffer) := by
  constructor
  · intro h
    obtain ⟨hfit, hint⟩ := h.bounds hp hn (.init p) rfl
    by_contra hnot
    have hpoint := rolloverPoint_eq (p := p) (by omega) hp.unsigned
    have hpositive : 1 < p.maxHist + rollbackBuffer := by
      unfold rollbackBuffer
      omega
    -- the largest pointer overlaps, or the window above it is exact and the one below overlaps
    obtain ⟨pt, hpt, habove, hoverlap⟩ : ∃ pt : Nat, pt < n ∧ pt < rolloverPoint p ∧
        rolloverPoint p < pt + (p.maxHist + rollbackBuffer) := by
      by_cases hexact : p.histBufferSize = p.maxHist + rollbackBuffer + (n - 1)
      · exact ⟨n - 2, by omega, by omega, by omega⟩
      · exact ⟨n - 1, by omega, by omega, by omega⟩
    refine not_kept_of_overlap hp (t := { ThreadHistory.init p with
      ptGhist := pt, globalHist := fun x => decide (x = rolloverPoint p) }) (by omega) (by omega)
      (Int.natCast_nonneg pt) (Int.ofNat_lt.mpr habove) (Int.ofNat_lt.mpr hoverlap) ?_
      (h _ rfl (Int.natCast_nonneg pt) (Int.ofNat_lt.mpr hpt))
    simp [Int.ofNat_inj, Nat.ne_of_lt habove]
  · rintro (⟨hroom, hint⟩ | ⟨rfl, heq⟩)
    · exact safe_of_room hp hroom hint
    · exact safe_of_window hp heq

theorem rollover_safe_iff_defaults : Safe (.defaults false) 255 :=
  (rollover_safe_iff (.defaults false) ⟨by decide, by decide⟩ 255 (by decide)).mpr
    (.inl ⟨by decide, by decide⟩)

/-- Two accepted buffers, one shorter than the window and one shorter than two
windows: the first is left by the copy, the second loses a bit. -/
theorem short_buffers_not_safe :
    (Accepted { Params.defaults false with histBufferSize := 4, maxHist := 1 } ∧
      (rollover { Params.defaults false with histBufferSize := 4, maxHist := 1 }
        (.init (.defaults false))).inBounds = false) ∧
    (Accepted { Params.defaults false with histBufferSize := 2000 } ∧
      ¬ Safe { Params.defaults false with histBufferSize := 2000 } 1) := by
  refine ⟨⟨⟨by decide, by decide⟩, by decide +kernel⟩, ⟨by decide, by decide⟩, ?_⟩
  intro h
  refine not_kept_of_overlap ⟨by decide, by decide⟩ (t := { ThreadHistory.init (.defaults false) with
    globalHist := fun x => decide (x = 870) }) (by decide) (by decide) (by decide) (by decide)
    (by decide) (by decide) (h _ rfl (by decide) (by decide))

end Gem5Core.Pred.TageRollover
