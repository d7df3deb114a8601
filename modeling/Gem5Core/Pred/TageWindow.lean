import Gem5Core.Lib.Folding
import Gem5Core.Pred.TageBase

/-! The global history buffer of TAGE as a list of bits, newest first, while bits are shifted in and
out and the buffer is rolled over. -/
namespace Gem5Core.Pred.TageWindow
open TageBase Lib.Folding Function

variable (p : Params)

def bitAt (bits : List Bool) (i : Nat) : Bool := bits.getD i false

/-- Room for two windows, a pointer that stays an `int` when every bit in flight at a rollover is
taken out again, history lengths at most `maxHist` and folded lengths at most 31. -/
structure Config : Prop where
  speculative : p.speculativeHistUpdate = true
  size : 2 * (p.maxHist + rollbackBuffer) + 2 ≤ p.histBufferSize
  pointer : p.histBufferSize ≤ 2 ^ 31 + p.maxHist
  lengths : ∀ i ≤ p.nHistoryTables, 1 ≤ i → 1 ≤ p.histLengths i ∧ p.histLengths i ≤ p.maxHist
  indices : ∀ i ≤ p.nHistoryTables, 1 ≤ i →
    1 ≤ p.logTagTableSizes i ∧ p.logTagTableSizes i ≤ 31
  tags : ∀ i ≤ p.nHistoryTables, 1 ≤ i →
    2 ≤ p.tagTableTagWidths i ∧ p.tagTableTagWidths i ≤ 31

theorem toInt_eq {x : Int} (hlow : -2 ^ 31 ≤ x) (hhigh : x < 2 ^ 31) : toInt x = x :=
  Int.bmod_eq_of_le_mul_two (by omega) (by omega)

section

structure Folded (f : FoldedHistory) (orig comp : Nat) (bit : Nat → Bool) : Prop where
  compLength : f.compLength = comp
  origLength : f.origLength = orig
  outpoint : f.outpoint = orig % comp
  comp_eq : f.comp = fold 32 comp bit orig

theorem ofBit_eq_place (bit : Bool) (k : Nat) : ofBit bit <<< k = place 32 bit k := rfl

private theorem update_comp (f : FoldedHistory) (h : Nat → Bool) :
    (f.update h).comp = enter f.compLength f.outpoint (h 0) (h f.origLength) f.comp := by
  simp only [FoldedHistory.update, enter, ofBit_eq_place]
  rw [← ofBit_eq_place (h 0) 0, BitVec.shiftLeft_zero]
  rfl

private theorem ofBit_xor (a b : Bool) : ofBit a ^^^ ofBit b = ofBit (a ^^ b) := by
  cases a <;> cases b <;> decide

private theorem restore_comp (f : FoldedHistory) (h : Nat → Bool) :
    (f.restore h).comp = leave f.compLength f.outpoint (h 0) (h f.origLength) f.comp := by
  have hlow : ∀ x : BitVec 32, x &&& 1 = ofBit (x.getLsbD 0) := fun x =>
    BitVec.and_one_eq_setWidth_ofBool_getLsbD
  simp only [FoldedHistory.restore, leave, hlow, ofBit_xor, ofBit_eq_place]

variable {f : FoldedHistory} {orig comp : Nat}

theorem Folded.update (bit : Nat → Bool) (hfolded : Folded f orig comp fun j => bit (j + 1))
    (hpos : 1 ≤ comp) (hle : comp ≤ 31) (h : Nat → Bool) (hnew : h 0 = bit 0)
    (hold : h orig = bit orig) : Folded (f.update h) orig comp bit := by
  refine ⟨hfolded.compLength, hfolded.origLength, hfolded.outpoint, ?_⟩
  rw [update_comp, hfolded.compLength, hfolded.origLength, hfolded.outpoint, hfolded.comp_eq, hnew,
    hold]
  exact enter_fold comp hpos (by omega) bit orig

theorem Folded.restore (bit : Nat → Bool) (hfolded : Folded f orig comp bit) (hpos : 1 ≤ comp)
    (hle : comp ≤ 31) (h : Nat → Bool) (hnew : h 0 = bit 0) (hold : h orig = bit orig) :
    Folded (f.restore h) orig comp fun j => bit (j + 1) := by
  refine ⟨hfolded.compLength, hfolded.origLength, hfolded.outpoint, ?_⟩
  rw [restore_comp, hfolded.compLength, hfolded.origLength, hfolded.outpoint, hfolded.comp_eq, hnew,
    hold]
  exact leave_fold comp hpos (by omega) bit orig

end

section

def Tables (fs : Nat → FoldedHistory) (comps : Nat → Nat) (bits : List Bool) : Prop :=
  ∀ i ≤ p.nHistoryTables, 1 ≤ i → Folded (fs i) (p.histLengths i) (comps i) (bitAt bits)

/-- The global history holds `bits` from the pointer to the end of the buffer,
the folded histories are its folds, and the newest `flight` bits can be taken
out again. -/
structure Reflects (t : ThreadHistory) (bits : List Bool) (path : BitVec 32) (flight : Nat) :
    Prop where
  path_eq : t.pathHist = path
  asserted : t.asserted = true
  inBounds : t.inBounds = true
  pointer : 0 ≤ t.ptGhist ∧ t.ptGhist + flight < 2 ^ 31
  room : t.ptGhist + flight + p.maxHist < p.histBufferSize
  entries : ∀ i : Nat, t.ptGhist + i < p.histBufferSize → t.globalHist (t.ptGhist + i) = bitAt bits i
  indices : Tables p t.computeIndices p.logTagTableSizes bits
  tags0 : Tables p t.computeTags0 p.tagTableTagWidths bits
  tags1 : Tables p t.computeTags1 (fun i => p.tagTableTagWidths i - 1) bits

variable {p} {t : ThreadHistory} {bits : List Bool} {path : BitVec 32} {flight : Nat}

theorem Config.compLengths (hconfig : Config p) (i : Nat) (hle : i ≤ p.nHistoryTables)
    (hpos : 1 ≤ i) :
    (1 ≤ p.logTagTableSizes i ∧ p.logTagTableSizes i ≤ 31) ∧
      (1 ≤ p.tagTableTagWidths i ∧ p.tagTableTagWidths i ≤ 31) ∧
      (1 ≤ p.tagTableTagWidths i - 1 ∧ p.tagTableTagWidths i - 1 ≤ 31) := by
  have hindices := hconfig.indices i hle hpos
  have htags := hconfig.tags i hle hpos
  omega

theorem Reflects.mono (h : Reflects p t bits path flight) {flight' : Nat} (hle : flight' ≤ flight) :
    Reflects p t bits path flight' :=
  { h with
    pointer := by have hpointer := h.pointer; omega
    room := by have hroom := h.room; omega }

theorem Reflects.withPath (h : Reflects p t bits path flight) (path' : BitVec 32) :
    Reflects p { t with pathHist := path' } bits path' flight :=
  { h with path_eq := rfl }

theorem bitAt_succ (bit : Bool) (bits : List Bool) :
    (fun j => bitAt (bit :: bits) (j + 1)) = bitAt bits := by
  funext j
  simp [bitAt]

theorem Tables.reads_lt (hconfig : Config p) {fs : Nat → FoldedHistory} {comps : Nat → Nat}
    (h : Tables p fs comps bits) (hroom : t.ptGhist + p.maxHist < p.histBufferSize) (i : Nat)
    (hi : i < p.nHistoryTables) : t.ptGhist + (fs (i + 1)).origLength < p.histBufferSize := by
  have hlength := (hconfig.lengths (i + 1) hi (by omega)).2
  rw [(h (i + 1) hi (by omega)).origLength]
  omega

theorem Tables.pass {fs : Nat → FoldedHistory} {comps : Nat → Nat} {bits' : List Bool}
    (h : Tables p fs comps bits) (f : FoldedHistory → FoldedHistory)
    (hf : ∀ i ≤ p.nHistoryTables, 1 ≤ i →
      Folded (fs i) (p.histLengths i) (comps i) (bitAt bits) →
        Folded (f (fs i)) (p.histLengths i) (comps i) (bitAt bits')) :
    Tables p (forTables p (fun i => f (fs i)) fs) comps bits' := by
  intro i hle hpos
  rw [forTables, if_pos ⟨hpos, hle⟩]
  exact hf i hle hpos (h i hle hpos)

theorem mapFolded_tables (hconfig : Config p) (t : ThreadHistory) (bits bits' : List Bool)
    (f : FoldedHistory → (Nat → Bool) → FoldedHistory)
    (hroom : t.ptGhist + p.maxHist < p.histBufferSize)
    (hindices : Tables p t.computeIndices p.logTagTableSizes bits)
    (htags0 : Tables p t.computeTags0 p.tagTableTagWidths bits)
    (htags1 : Tables p t.computeTags1 (fun i => p.tagTableTagWidths i - 1) bits)
    (hf : ∀ fs orig comp, orig ≤ p.maxHist → 1 ≤ comp → comp ≤ 31 →
      Folded fs orig comp (bitAt bits) →
        Folded (f fs fun k => t.globalHist (t.ptGhist + (k : Nat))) orig comp (bitAt bits')) :
    (mapFolded p f t).inBounds = t.inBounds ∧
      Tables p (mapFolded p f t).computeIndices p.logTagTableSizes bits' ∧
      Tables p (mapFolded p f t).computeTags0 p.tagTableTagWidths bits' ∧
      Tables p (mapFolded p f t).computeTags1 (fun i => p.tagTableTagWidths i - 1) bits' := by
  refine ⟨?_, ?_, ?_, ?_⟩
  · simp only [mapFolded, Bool.and_eq_left_iff_imp, List.all_eq_true, List.mem_range,
      Bool.and_eq_true, decide_eq_true_eq]
    intro _ i hi
    exact ⟨⟨hindices.reads_lt hconfig hroom i hi, htags0.reads_lt hconfig hroom i hi⟩,
      htags1.reads_lt hconfig hroom i hi⟩
  · apply hindices.pass fun fs => f fs fun k => t.globalHist (t.ptGhist + (k : Nat))
    intro i hle hpos
    obtain ⟨hone, hmax⟩ := (hconfig.compLengths i hle hpos).1
    exact hf _ _ _ (hconfig.lengths i hle hpos).2 hone hmax
  · apply htags0.pass fun fs => f fs fun k => t.globalHist (t.ptGhist + (k : Nat))
    intro i hle hpos
    obtain ⟨hone, hmax⟩ := (hconfig.compLengths i hle hpos).2.1
    exact hf _ _ _ (hconfig.lengths i hle hpos).2 hone hmax
  · apply htags1.pass fun fs => f fs fun k => t.globalHist (t.ptGhist + (k : Nat))
    intro i hle hpos
    obtain ⟨hone, hmax⟩ := (hconfig.compLengths i hle hpos).2.2
    exact hf _ _ _ (hconfig.lengths i hle hpos).2 hone hmax

theorem Reflects.shiftIn (hconfig : Config p) (h : Reflects p t bits path flight) (bit : Bool)
    (hpt : 0 < t.ptGhist) : Reflects p (shiftIn p t bit) (bit :: bits) path (flight + 1) := by
  have hroom := h.room
  have hpointer := h.pointer
  let t₁ : ThreadHistory := { t with
    ptGhist := t.ptGhist - 1
    inBounds := t.inBounds && decide (0 ≤ t.ptGhist - 1 ∧ t.ptGhist - 1 < p.histBufferSize)
    globalHist := update t.globalHist (t.ptGhist - 1) bit }
  have ht₁ : TageBase.shiftIn p t bit = mapFolded p .update t₁ := by
    simp only [TageBase.shiftIn, access, toInt_eq (x := t.ptGhist - 1) (by omega) (by omega), t₁]
  rw [ht₁]
  have hentries : ∀ i : Nat, t₁.ptGhist + i < p.histBufferSize →
      t₁.globalHist (t₁.ptGhist + i) = bitAt (bit :: bits) i := by
    intro i hi
    cases i with
    | zero => simp [t₁, bitAt]
    | succ i =>
      have hne : t.ptGhist - 1 + (i + 1 : Nat) ≠ t.ptGhist - 1 := by omega
      have heq : t.ptGhist - 1 + (i + 1 : Nat) = t.ptGhist + i := by omega
      change t.ptGhist - 1 + (i + 1 : Nat) < p.histBufferSize at hi
      change update t.globalHist (t.ptGhist - 1) bit (t.ptGhist - 1 + (i + 1 : Nat)) = _
      rw [update_of_ne hne, heq, h.entries i (by omega), ← bitAt_succ bit bits]
  have hroom₁ : t₁.ptGhist + p.maxHist < p.histBufferSize := by
    simp only [t₁]
    omega
  obtain ⟨hin, hindices, htags0, htags1⟩ := mapFolded_tables hconfig t₁ bits (bit :: bits) .update
    hroom₁ h.indices h.tags0 h.tags1 (by
      intro fs orig comp horig hone hmax hfolded
      rw [← bitAt_succ bit bits] at hfolded
      exact hfolded.update _ hone hmax _ (hentries 0 (by omega)) (hentries orig (by omega)))
  refine ⟨h.path_eq, h.asserted, ?_, ?_, ?_, hentries, hindices, htags0, htags1⟩
  · rw [hin]
    simp [t₁, h.inBounds]
    omega
  · change 0 ≤ t.ptGhist - 1 ∧ t.ptGhist - 1 + (flight + 1 : Nat) < 2 ^ 31
    omega
  · change t.ptGhist - 1 + (flight + 1 : Nat) + p.maxHist < p.histBufferSize
    omega

theorem Reflects.shiftOut (hconfig : Config p) {bit : Bool}
    (h : Reflects p t (bit :: bits) path (flight + 1)) :
    Reflects p (shiftOut p t) bits path flight := by
  have hroom := h.room
  have hpointer := h.pointer
  have hnext : toInt (t.ptGhist + 1) = t.ptGhist + 1 := toInt_eq (by omega) (by omega)
  let t₁ : ThreadHistory := access p t.ptGhist t
  obtain ⟨hin, hindices, htags0, htags1⟩ := mapFolded_tables hconfig t₁ (bit :: bits) bits .restore
    (by simp only [t₁, access]; omega) h.indices h.tags0 h.tags1 (by
      intro fs orig comp horig hone hmax hfolded
      rw [← bitAt_succ bit bits]
      exact hfolded.restore _ hone hmax _ (h.entries 0 (by omega)) (h.entries orig (by omega)))
  refine ⟨h.path_eq, ?_, ?_, ?_, ?_, ?_, hindices, htags0, htags1⟩
  · have hassert : (t.ptGhist + 1 + p.maxHist) % 2 ^ 32 < p.histBufferSize := by omega
    simp only [TageBase.shiftOut, ThreadHistory.check, mapFolded, access, h.asserted, hnext,
      hassert, decide_true, Bool.and_true]
  · change (mapFolded p .restore t₁).inBounds = true
    rw [hin]
    simp [t₁, access, h.inBounds]
    omega
  · change 0 ≤ toInt (t.ptGhist + 1) ∧ toInt (t.ptGhist + 1) + flight < 2 ^ 31
    omega
  · change toInt (t.ptGhist + 1) + flight + p.maxHist < p.histBufferSize
    omega
  · intro i hi
    change toInt (t.ptGhist + 1) + i < p.histBufferSize at hi
    change t.globalHist (toInt (t.ptGhist + 1) + i) = bitAt bits i
    have hentry := h.entries (i + 1) (by omega)
    rwa [show t.ptGhist + (i + 1 : Nat) = toInt (t.ptGhist + 1) + i by omega,
      congrFun (bitAt_succ bit bits) i] at hentry

theorem Reflects.shiftOut_iterate (hconfig : Config p) (newest : List Bool)
    (h : Reflects p t (newest ++ bits) path (flight + newest.length)) :
    Reflects p ((TageBase.shiftOut p)^[newest.length] t) bits path flight := by
  induction newest generalizing t with
  | nil => exact h
  | cons bit newest ih =>
    exact ih (h.shiftOut hconfig)

def lowBits (bv : BitVec 64) : Nat → List Bool
  | 0 => []
  | n + 1 => lowBits (bv >>> 1) n ++ [bv.getLsbD 0]

theorem Reflects.shiftLoop (hconfig : Config p) (bv : BitVec 64) (n : Nat)
    (h : Reflects p t bits path flight) (hpt : n ≤ t.ptGhist) :
    Reflects p (shiftLoop p bv n t) (lowBits bv n ++ bits) path (flight + n) := by
  induction n generalizing t bv bits flight with
  | zero => exact h
  | succ n ih =>
    have hin := h.shiftIn hconfig (bv.getLsbD 0) (by omega)
    have hpointer := h.pointer
    have hpt' : (TageBase.shiftIn p t (bv.getLsbD 0)).ptGhist = t.ptGhist - 1 :=
      toInt_eq (by omega) (by omega)
    have hrest := ih (bv >>> 1) hin (by omega)
    rw [show flight + (n + 1) = flight + 1 + n by omega, lowBits, List.append_assoc]
    exact hrest

theorem rolloverPoint_eq (hsize : p.maxHist + rollbackBuffer ≤ p.histBufferSize)
    (hlt : p.histBufferSize < 2 ^ 32) :
    rolloverPoint p = p.histBufferSize - (p.maxHist + rollbackBuffer) := by
  unfold rolloverPoint rollbackBuffer at *
  rw [BitVec.toNat_sub, BitVec.toNat_sub, BitVec.toNat_ofNat, BitVec.toNat_ofNat,
    BitVec.toNat_ofNat]
  omega

theorem copyEntry_foldl (k : Nat) (hin : t.inBounds = true) (hpt : 0 ≤ t.ptGhist)
    (hdisjoint : t.ptGhist + k ≤ rolloverPoint p) (hsize : rolloverPoint p + k ≤ p.histBufferSize)
    (hlt : p.histBufferSize < 2 ^ 32) :
    (List.range k).foldl (copyEntry p) t =
      { t with globalHist := fun x =>
          if rolloverPoint p ≤ x ∧ x < rolloverPoint p + k
          then t.globalHist (t.ptGhist + (x - rolloverPoint p)) else t.globalHist x } := by
  induction k with
  | zero =>
    have hnone : ∀ x : Int, ¬ (rolloverPoint p ≤ x ∧ x < rolloverPoint p + (0 : Nat)) :=
      fun x => by omega
    simp only [hnone, if_false]
    rfl
  | succ k ih =>
    rw [List.range_succ, List.foldl_append, ih (by omega) (by omega), List.foldl_cons,
      List.foldl_nil]
    -- the entry read lies below everything written so far
    have hsource : ¬ (rolloverPoint p ≤ t.ptGhist + k ∧ t.ptGhist + k < rolloverPoint p + k) := by
      omega
    have hread : 0 ≤ t.ptGhist + k ∧ t.ptGhist + k < p.histBufferSize := by omega
    have hwrite : (0 : Int) ≤ (rolloverPoint p + k : Nat) ∧
        ((rolloverPoint p + k : Nat) : Int) < p.histBufferSize := by omega
    have htarget : (rolloverPoint p + k) % 2 ^ 32 = rolloverPoint p + k :=
      Nat.mod_eq_of_lt (by omega)
    simp only [copyEntry, access, htarget, hin, hread, hwrite, decide_true, Bool.and_true, hsource,
      if_false, ThreadHistory.mk.injEq, true_and, and_true]
    funext x
    by_cases hx : x = (rolloverPoint p + k : Nat)
    · subst hx
      rw [update_self, if_pos (by omega), show
        ((rolloverPoint p + k : Nat) : Int) - rolloverPoint p = k by omega]
    · rw [update_of_ne hx]
      have hiff : ((rolloverPoint p : Int) ≤ x ∧ x < rolloverPoint p + (k + 1 : Nat)) ↔
          (rolloverPoint p ≤ x ∧ x < rolloverPoint p + k) := by omega
      simp only [hiff]

theorem rollover_ptGhist (hpoint : rolloverPoint p < 2 ^ 31) :
    (rollover p t).ptGhist = rolloverPoint p := by
  simp only [rollover]
  exact toInt_eq (by omega) (by omega)

theorem rollover_eq (hin : t.inBounds = true) (hpt : 0 ≤ t.ptGhist)
    (hsize : 2 * (p.maxHist + rollbackBuffer) + t.ptGhist ≤ p.histBufferSize)
    (hpoint : p.histBufferSize < 2 ^ 31 + (p.maxHist + rollbackBuffer)) :
    rollover p t =
      { t with
        globalHist := fun x =>
          if rolloverPoint p ≤ x ∧ x < p.histBufferSize
          then t.globalHist (t.ptGhist + (x - rolloverPoint p)) else t.globalHist x
        ptGhist := rolloverPoint p } := by
  have heq : rolloverPoint p = p.histBufferSize - (p.maxHist + rollbackBuffer) :=
    rolloverPoint_eq (by omega) (by omega)
  have hend : rolloverPoint p + (p.maxHist + rollbackBuffer) = p.histBufferSize := by omega
  have hcount : (p.maxHist + rollbackBuffer) % 2 ^ 32 = p.maxHist + rollbackBuffer :=
    Nat.mod_eq_of_lt (by omega)
  have hint : toInt (rolloverPoint p) = rolloverPoint p := toInt_eq (by omega) (by omega)
  unfold rollover
  rw [hcount, copyEntry_foldl _ hin hpt (by omega) (by omega) (by omega), ← hend, hint]
  rfl

theorem Reflects.rollover (hconfig : Config p) (h : Reflects p t bits path flight)
    (hpt : t.ptGhist ≤ 1) (hflight : flight < rollbackBuffer) :
    Reflects p (rollover p t) bits path flight := by
  have hsize := hconfig.size
  have hpointer := hconfig.pointer
  have hpoint : rolloverPoint p = p.histBufferSize - (p.maxHist + rollbackBuffer) :=
    rolloverPoint_eq (by omega) (by omega)
  rw [rollover_eq h.inBounds h.pointer.1 (by omega) (by omega)]
  refine ⟨h.path_eq, h.asserted, h.inBounds, ?_, ?_, ?_, h.indices, h.tags0, h.tags1⟩
  · change (0 : Int) ≤ rolloverPoint p ∧ (rolloverPoint p : Int) + flight < 2 ^ 31
    omega
  · change (rolloverPoint p : Int) + flight + p.maxHist < p.histBufferSize
    omega
  · intro i hi
    change (rolloverPoint p : Int) + i < p.histBufferSize at hi
    have hblock : (rolloverPoint p : Int) ≤ rolloverPoint p + i ∧
        (rolloverPoint p : Int) + i < p.histBufferSize := by omega
    simp only [hblock, and_self, if_true, add_sub_cancel_left]
    exact h.entries i (by omega)

theorem Reflects.updateGHist (hconfig : Config p) (h : Reflects p t bits path flight)
    (hflight : flight < rollbackBuffer) (bv : BitVec 64) (n : Nat) (hn : n ≤ 2) :
    Reflects p (updateGHist p t bv n) (lowBits bv n ++ bits) path (flight + n) := by
  have hsize := hconfig.size
  unfold TageBase.updateGHist
  by_cases hzero : n = 0
  · subst hzero
    exact h
  rw [if_neg hzero]
  by_cases hpt : t.ptGhist < n
  · have hpointer := hconfig.pointer
    have hpoint := rolloverPoint_eq (p := p) (by omega) (by omega)
    simp only [hpt, if_true]
    apply (h.rollover hconfig (by omega) hflight).shiftLoop hconfig
    rw [rollover_ptGhist (by omega)]
    omega
  · simp only [hpt, if_false]
    exact h.shiftLoop hconfig bv n (by omega)

end

end Gem5Core.Pred.TageWindow
