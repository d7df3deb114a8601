import Gem5Core.Pred.Tage
import Gem5Core.Pred.TageWindow

/-! The histories of TAGE computed from scratch from the surviving branches, and that the
incremental ones always equal them. -/
namespace Gem5Core.Pred.TageExact
open Branch TageBase TageWindow Tage Lib.Folding Lib.Speculation

variable (p : Params)

def contribution (branch : Branch) : List Bool :=
  if p.takenOnlyHistory then
    if branch.taken then
      let hash := ((branch.pc >>> p.instShiftAmt) >>> 2) ^^^
        ((branch.target >>> p.instShiftAmt) >>> 3)
      [hash.getLsbD 1, hash.getLsbD 0]
    else []
  else [branch.taken]

def globalBits (branches : List Branch) : List Bool := branches.flatMap (contribution p)

/-- The path history has one bit of the PC of every branch, or of every taken
branch. -/
def pathBits (branches : List Branch) : List Bool :=
  let recorded : List Branch :=
    branches.filter fun branch => !p.takenOnlyHistory || branch.taken
  recorded.map fun (branch : Branch) => (branch.pc >>> p.instShiftAmt).getLsbD 0

def pathOf (branches : List Branch) : BitVec 32 :=
  word 32 (bitAt (pathBits p branches)) p.pathHistBits

/-- The histories are those computed from scratch from the branches, youngest
first, and the window lies in the buffer. -/
structure FromScratch (branches : List Branch) (t : ThreadHistory) : Prop where
  asserted : t.asserted = true
  inBounds : t.inBounds = true
  window : ∀ i : Nat, i < p.maxHist →
    (0 ≤ t.ptGhist + i ∧ t.ptGhist + i < p.histBufferSize) ∧
      t.globalHist (t.ptGhist + i) = bitAt (globalBits p branches) i
  path : t.pathHist = pathOf p branches
  indices : ∀ i ≤ p.nHistoryTables, 1 ≤ i → (t.computeIndices i).comp =
    fold 32 (p.logTagTableSizes i) (bitAt (globalBits p branches)) (p.histLengths i)
  tags0 : ∀ i ≤ p.nHistoryTables, 1 ≤ i → (t.computeTags0 i).comp =
    fold 32 (p.tagTableTagWidths i) (bitAt (globalBits p branches)) (p.histLengths i)
  tags1 : ∀ i ≤ p.nHistoryTables, 1 ≤ i → (t.computeTags1 i).comp =
    fold 32 (p.tagTableTagWidths i - 1) (bitAt (globalBits p branches)) (p.histLengths i)

/-- Fewer than 1000 history bits are in flight after the step. -/
def Roomy (st : Lib.Speculation.State ThreadHistory Branch (Option BranchInfo))
    (event : Event Branch (Bool × Addr) Empty) : Prop :=
  (globalBits p (step (machine p) st event).inFlight).length < rollbackBuffer

instance (st : Lib.Speculation.State ThreadHistory Branch (Option BranchInfo))
    (event : Event Branch (Bool × Addr) Empty) : Decidable (Roomy p st event) :=
  inferInstanceAs (Decidable (_ < _))

def Holds (live committed : List Branch) (t : ThreadHistory) : Prop :=
  Reflects p t (globalBits p (live ++ committed)) (pathOf p (live ++ committed))
    (globalBits p live).length

def Recorded (branch : Branch) (record : Option BranchInfo) (path : BitVec 32) : Prop :=
  ∃ bi, record = some bi ∧ bi.branchPC = branch.pc ∧ bi.modified = true ∧
    bi.nGhist = (contribution p branch).length ∧ bi.pathHist = path

def Restores (older : List Branch) (branch : Branch) (record : Option BranchInfo) : Prop :=
  Recorded p branch record (pathOf p older)

variable (branch : Branch)

section
variable {p} {t : ThreadHistory} {bits : List Bool} {path : BitVec 32} {flight : Nat}

theorem calcNewPathHist_pathOf (branches : List Branch) :
    calcNewPathHist p branch.pc (pathOf p branches) branch.taken =
      pathOf p (branch :: branches) := by
  unfold calcNewPathHist
  by_cases hskip : (p.takenOnlyHistory && !branch.taken) = true
  · have hfilter : (!p.takenOnlyHistory || branch.taken) = false := by
      revert hskip
      cases p.takenOnlyHistory <;> cases branch.taken <;> decide
    rw [if_pos hskip]
    simp [pathOf, pathBits, hfilter]
  · have hfilter : (!p.takenOnlyHistory || branch.taken) = true := by
      revert hskip
      cases p.takenOnlyHistory <;> cases branch.taken <;> decide
    have hbits : pathBits p (branch :: branches) =
        (branch.pc >>> p.instShiftAmt).getLsbD 0 :: pathBits p branches := by
      simp [pathBits, hfilter]
    have hdisjoint : ∀ (x : BitVec 32) (bit : Bool), (x <<< 1) &&& ofBit bit = 0#32 := by
      intro x bit
      apply BitVec.eq_of_getLsbD_eq
      intro i hi
      rw [BitVec.getLsbD_and, ← BitVec.shiftLeft_zero (ofBit bit),
        ofBit_eq_place, getLsbD_place]
      cases i <;> simp
    rw [if_neg hskip]
    dsimp only
    rw [BitVec.add_eq_or_of_and_eq_zero _ _ (hdisjoint _ _), pathOf, pathOf, hbits,
      ← BitVec.shiftLeft_zero (ofBit _)]
    exact word_shift (bitAt (_ :: pathBits p branches)) p.pathHistBits

section

variable (hconfig : Config p)
include hconfig

theorem updatePathAndGlobalHistory_spec (h : Reflects p t bits path flight)
    (hflight : flight < rollbackBuffer) (branch : Branch) (bi : BranchInfo)
    (hzero : bi.nGhist = 0) :
    let w := updatePathAndGlobalHistory p t branch.taken branch.pc branch.target bi
    Reflects p w.1 (contribution p branch ++ bits)
        (calcNewPathHist p branch.pc path branch.taken)
        (flight + (contribution p branch).length) ∧
      w.2.nGhist = (contribution p branch).length ∧ w.2.branchPC = bi.branchPC ∧
      w.2.pathHist = bi.pathHist := by
  have hpath := h.withPath (calcNewPathHist p branch.pc path branch.taken)
  unfold updatePathAndGlobalHistory contribution
  rw [h.path_eq]
  cases hmode : p.takenOnlyHistory with
  | false =>
    have hlow : lowBits (if branch.taken then 1 else 0) 1 = [branch.taken] := by
      cases branch.taken <;> decide
    refine ⟨?_, by simp⟩
    rw [← hlow]
    exact hpath.updateGHist hconfig hflight _ 1 (by omega)
  | true =>
    cases htaken : branch.taken with
    | false =>
      rw [htaken] at hpath
      simp only [Bool.false_eq_true, if_false, if_true, hzero, updateGHist]
      exact ⟨hpath, by simp⟩
    | true =>
      rw [htaken] at hpath
      refine ⟨?_, by simp⟩
      have hloop := hpath.updateGHist hconfig hflight
        (((branch.pc >>> p.instShiftAmt) >>> 2) ^^^ ((branch.target >>> p.instShiftAmt) >>> 3)) 2
        (by omega)
      exact hloop

theorem advance_spec (h : Reflects p t bits path flight) (hflight : flight < rollbackBuffer)
    (branch : Branch) (bi : BranchInfo) (hzero : bi.nGhist = 0) (hpc : bi.branchPC = branch.pc)
    (hpath : bi.pathHist = path) : let w := advance p t branch.pc branch.taken branch.target bi
    Reflects p w.1 (contribution p branch ++ bits)
        (calcNewPathHist p branch.pc path branch.taken)
        (flight + (contribution p branch).length) ∧
      Recorded p branch (some w.2) path := by
  -- the indices and tags do not matter here
  obtain ⟨bi', hbi', hzero', hpc', hpath'⟩ : ∃ bi' : BranchInfo,
      (if !bi.valid && bi.condBranch then calculateIndicesAndTags p t branch.pc bi else bi) = bi' ∧
        bi'.nGhist = 0 ∧ bi'.branchPC = branch.pc ∧ bi'.pathHist = path := by
    refine ⟨_, rfl, ?_⟩
    split
    · exact ⟨hzero, hpc, hpath⟩
    · exact ⟨hzero, hpc, hpath⟩
  have hcheck : t.check (decide (bi'.nGhist = 0)) = t := by
    simp [ThreadHistory.check, hzero']
  obtain ⟨hreflects, hlength, hpc'', hpath''⟩ :=
    updatePathAndGlobalHistory_spec hconfig h hflight branch bi' hzero'
  unfold advance
  simp only [hbi', hcheck]
  exact ⟨hreflects, _, rfl, hpc''.trans hpc', rfl, hlength, hpath''.trans hpath'⟩

theorem restoreHistState_spec (branch : Branch) (bi : BranchInfo) {path' : BitVec 32}
    (h : Reflects p t (contribution p branch ++ bits) path' (flight + (contribution p branch).length))
    (hmodified : bi.modified = true) (hlength : bi.nGhist = (contribution p branch).length)
    (hpath : bi.pathHist = path) : let w := restoreHistState p t bi
    Reflects p w.1 bits path flight ∧ w.2.nGhist = 0 ∧ w.2.branchPC = bi.branchPC ∧
      w.2.pathHist = path := by
  have hout := (h.withPath path).shiftOut_iterate hconfig (contribution p branch)
  unfold restoreHistState
  simp only [hconfig.speculative, hmodified, Bool.not_true, Bool.false_eq_true, if_false, hpath,
    hlength]
  by_cases hzero : (contribution p branch).length = 0
  · rw [if_pos hzero]
    rw [hzero] at hout
    exact ⟨hout, hlength.trans hzero, rfl, hpath⟩
  · rw [if_neg hzero]
    exact ⟨hout, rfl, rfl, rfl⟩

private theorem updateHistories_new (h : Reflects p t bits path flight)
    (hflight : flight < rollbackBuffer) (branch : Branch) (bi : BranchInfo)
    (hmodified : bi.modified = false) (hzero : bi.nGhist = 0) (hpc : bi.branchPC = branch.pc) :
    let w := TageBase.updateHistories p t branch.pc true branch.taken branch.target bi
    Reflects p w.1 (contribution p branch ++ bits)
        (calcNewPathHist p branch.pc path branch.taken)
        (flight + (contribution p branch).length) ∧
      Recorded p branch (some w.2) path := by
  have hrewind : rewind p t bi = (t, recordHistState p t bi) := by
    have hkept : (recordHistState p t bi).modified = false := hmodified
    simp [rewind, hconfig.speculative, hmodified, hkept]
  unfold TageBase.updateHistories
  simp only [hconfig.speculative, ne_eq, not_true, if_false, hrewind]
  exact advance_spec hconfig h hflight branch _ hzero hpc h.path_eq

theorem updateHistories_correct (branch branch' : Branch) (hsame : branch'.pc = branch.pc)
    (bi : BranchInfo) {path' : BitVec 32}
    (h : Reflects p t (contribution p branch ++ bits) path' (flight + (contribution p branch).length))
    (hflight : flight < rollbackBuffer) (hrecorded : Recorded p branch (some bi) path) :
    let w := TageBase.squash p t branch'.taken branch'.target bi
    Reflects p w.1 (contribution p branch' ++ bits)
        (calcNewPathHist p branch'.pc path branch'.taken)
        (flight + (contribution p branch').length) ∧
      Recorded p branch' (some w.2) path := by
  obtain ⟨bi', heq, hpc, hmodified, hlength, hpath⟩ := hrecorded
  cases heq
  obtain ⟨hrestored, hzero, hpc', hpath'⟩ :=
    restoreHistState_spec hconfig branch bi h hmodified hlength hpath
  have hrewind : rewind p t bi = restoreHistState p t bi := by
    simp [rewind, hmodified]
  unfold TageBase.squash TageBase.updateHistories
  simp only [hconfig.speculative, ne_eq, not_true, if_false, hrewind, hpc, ← hsame]
  exact advance_spec hconfig hrestored hflight branch' _ hzero
    (hpc'.trans (hpc.trans hsame.symm)) hpath'

end

private theorem newRecord_fresh (t : ThreadHistory) :
    ∃ bi : BranchInfo, bi.modified = false ∧ bi.nGhist = 0 ∧ bi.branchPC = branch.pc ∧
      (machine p).enter t branch =
        ((TageBase.updateHistories p t branch.pc true branch.taken branch.target bi).1,
          some (TageBase.updateHistories p t branch.pc true branch.taken branch.target bi).2) := by
  obtain ⟨pc, taken, target, origin⟩ := branch
  cases origin with
  | lookup => exact ⟨lookup p t pc, rfl, rfl, rfl, rfl⟩
  | placeholder uncond => exact ⟨branchPlaceholder pc uncond, rfl, rfl, rfl, rfl⟩
  | unconditional =>
    have hcheck : t.check true = t := by simp [ThreadHistory.check]
    refine ⟨makeBranchInfo pc false, rfl, rfl, rfl, ?_⟩
    simp only [machine, Tage.updateHistories, newRecord, Origin.uncond, hcheck]

theorem globalBits_length_cons (branches : List Branch) :
    (globalBits p (branch :: branches)).length =
      (globalBits p branches).length + (contribution p branch).length := by
  simp [globalBits, Nat.add_comm]

theorem Holds.cons {live committed : List Branch}
    (h : Reflects p t (contribution p branch ++ globalBits p (live ++ committed))
      (calcNewPathHist p branch.pc (pathOf p (live ++ committed)) branch.taken)
      ((globalBits p live).length + (contribution p branch).length)) :
    Holds p (branch :: live) committed t := by
  unfold Holds
  rw [globalBits_length_cons, List.cons_append, ← calcNewPathHist_pathOf]
  exact h

theorem Holds.uncons {live committed : List Branch} (h : Holds p (branch :: live) committed t) :
    Reflects p t (contribution p branch ++ globalBits p (live ++ committed))
      (pathOf p (branch :: (live ++ committed)))
      ((globalBits p live).length + (contribution p branch).length) := by
  rw [← globalBits_length_cons]
  exact h

theorem machine_exact (hconfig : Config p) :
    Exact (machine p) (Holds p) (Restores p) (Roomy p) where
  enter := by
    intro t live committed branch h hroomy
    obtain ⟨bi, hmodified, hzero, hpc, hupdate⟩ := newRecord_fresh (p := p) branch t
    have hflight : (globalBits p (branch :: live.map Prod.fst)).length < rollbackBuffer := hroomy
    rw [globalBits_length_cons] at hflight
    obtain ⟨hreflects, hrecorded⟩ :=
      updateHistories_new hconfig h (by omega) branch bi hmodified hzero hpc
    rw [hupdate]
    exact ⟨.cons branch hreflects, hrecorded⟩
  correct := by
    rintro t branch record rest committed ⟨taken, target⟩ h hrestores hroomy
    have hflight : (globalBits p (({ branch with taken, target } : Branch) ::
      rest.map Prod.fst)).length < rollbackBuffer := hroomy
    obtain ⟨bi, rfl, hbi⟩ := hrestores
    rw [globalBits_length_cons] at hflight
    obtain ⟨hreflects, hrecorded⟩ := updateHistories_correct hconfig branch
      { branch with taken, target } rfl bi (h.uncons branch) (by omega) ⟨bi, rfl, hbi⟩
    exact ⟨.cons _ hreflects, hrecorded⟩
  undo := by
    rintro t branch record rest committed h ⟨bi, rfl, -, hmodified, hbits, hpath⟩ -
    exact (restoreHistState_spec hconfig branch bi (h.uncons branch) hmodified hbits hpath).1
  retire := by
    rintro t branch record rest committed h ⟨bi, rfl, -⟩ -
    -- only the non-speculative path history changes
    have hhistory : (machine p).retire t branch (some bi) =
        { t with nonSpecPathHist := calcNewPathHist p branch.pc bi.pathHist branch.taken } := by
      simp [machine, Tage.update, TageBase.updateHistories, hconfig.speculative]
    have hless : (globalBits p (rest.map Prod.fst)).length ≤
        (globalBits p (rest.map Prod.fst ++ [branch])).length := by
      simp [globalBits]
    rw [hhistory, Holds, List.append_cons]
    exact { h.mono hless with }
  other := fun w => w.elim

theorem init_folded (orig comp : Nat) : Folded (.init orig comp) orig comp (bitAt []) where
  compLength := rfl
  origLength := rfl
  outpoint := rfl
  comp_eq := (fold_zeros comp orig).symm

theorem start_holds (hconfig : Config p) : Holds p [] [] (.init p) := by
  have hsize := hconfig.size
  refine ⟨?_, rfl, rfl, ⟨le_refl 0, ?_⟩, ?_, fun _ _ => rfl, ?_, ?_, ?_⟩
  · exact (word_zeros p.pathHistBits).symm
  · change (0 : Int) + (0 : Nat) < 2 ^ 31
    decide
  · change (0 : Int) + (0 : Nat) + p.maxHist < p.histBufferSize
    omega
  · exact fun i _ _ => init_folded _ _
  · exact fun i _ _ => init_folded _ _
  · exact fun i _ _ => init_folded _ _

theorem Holds.fromScratch {live committed : List Branch} (h : Holds p live committed t) :
    FromScratch p (live ++ committed) t where
  asserted := h.asserted
  inBounds := h.inBounds
  window := by
    intro i hi
    have hroom := h.room
    have hpointer := h.pointer
    exact ⟨by omega, h.entries i (by omega)⟩
  path := h.path_eq
  indices := fun i hle hpos => (h.indices i hle hpos).comp_eq
  tags0 := fun i hle hpos => (h.tags0 i hle hpos).comp_eq
  tags1 := fun i hle hpos => (h.tags1 i hle hpos).comp_eq

/-- With room for the bits in flight, the histories are always those computed
from scratch from the surviving branches, as long as an `int` can point at every
bit that a rollover keeps for the branches in flight. -/
theorem histories_exact (hconfig : Config p) (events : List (Event Branch (Bool × Addr) Empty))
    (hroomy : Legal (machine p) (Roomy p) (.init p) events) :
    let st := run (machine p) (.init p) events
    FromScratch p st.survivors st.history :=
  ((machine_exact hconfig).run_inv (start_holds hconfig) hroomy).reflects.fromScratch

/-- Branches of all origins; the second is corrected twice, the third squashed,
the first committed, and another branch follows. -/
def mixture : List (Event Branch (Bool × Addr) Empty) :=
  [.enter ⟨0x400, true, 0x480, .lookup⟩,
    .enter ⟨0x480, false, 0x484, .lookup⟩,
    .correct (true, 0x5a8),
    .correct (false, 0x484),
    .enter ⟨0x484, true, 0x700, .unconditional⟩,
    .undo,
    .correct (true, 0x5a8),
    .retire,
    .enter ⟨0x5a8, true, 0x400, .placeholder false⟩]

private theorem defaults_config (takenOnly : Bool) : Config (.defaults takenOnly) where
  speculative := rfl
  size := by cases takenOnly <;> decide
  pointer := by cases takenOnly <;> decide
  lengths := by cases takenOnly <;> decide
  indices := by cases takenOnly <;> decide
  tags := by cases takenOnly <;> decide

end

theorem histories_exact_mixture :
    let st := run (machine (.defaults true)) (.init (.defaults true)) mixture
    Legal (machine (.defaults true)) (Roomy (.defaults true)) (.init (.defaults true)) mixture ∧
      (globalBits (.defaults true) st.inFlight).length = 4 ∧
      FromScratch (.defaults true) st.survivors st.history :=
  ⟨by decide +kernel, by decide +kernel,
    histories_exact (defaults_config true) mixture (by decide +kernel)⟩

/-- A buffer so large that the pointer after a rollover is a negative `int`, also
when it has been decremented. -/
def hugeBuffer : Params :=
  { Params.defaults false with
    nHistoryTables := 1
    histBufferSize := 2147484650
    maxHist := 1
    histLengths := fun _ => 1 }

/-- The first branch already rolls the buffer over, to the pointer `1 - 2 ^ 31`. -/
theorem hugeBuffer_not_exact :
    let events := [.enter ⟨0x400, true, 0x480, .lookup⟩]
    hugeBuffer.speculativeHistUpdate = true ∧
      2 * (hugeBuffer.maxHist + rollbackBuffer) + 2 ≤ hugeBuffer.histBufferSize ∧
      (∀ i ≤ hugeBuffer.nHistoryTables, 1 ≤ i →
        (1 ≤ hugeBuffer.histLengths i ∧ hugeBuffer.histLengths i ≤ hugeBuffer.maxHist) ∧
        (1 ≤ hugeBuffer.logTagTableSizes i ∧ hugeBuffer.logTagTableSizes i ≤ 31) ∧
        2 ≤ hugeBuffer.tagTableTagWidths i ∧ hugeBuffer.tagTableTagWidths i ≤ 31) ∧
      Legal (machine hugeBuffer) (Roomy hugeBuffer) (.init hugeBuffer) events ∧
      (run (machine hugeBuffer) (.init hugeBuffer) events).history.ptGhist = -2 ^ 31 ∧
      ¬ FromScratch hugeBuffer (run (machine hugeBuffer) (.init hugeBuffer) events).survivors
        (run (machine hugeBuffer) (.init hugeBuffer) events).history := by
  refine ⟨rfl, by decide, by decide, by decide +kernel, by decide +kernel, ?_⟩
  intro h
  have hout : (run (machine hugeBuffer) (.init hugeBuffer)
      [.enter ⟨0x400, true, 0x480, .lookup⟩]).history.inBounds = false := by decide +kernel
  rw [h.inBounds] at hout
  cases hout

end Gem5Core.Pred.TageExact
