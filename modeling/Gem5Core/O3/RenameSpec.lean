import Gem5Core.O3.Rename

/-! What each operation of the rename stage does to the threads and to the free lists,
and how an invariant is carried through its loops. -/
namespace Gem5Core.O3.RenameSpec
open Pred.Branch Rename Function RenameState

section

variable (m : RenameMap) {reg : RegId} (r r' : PhysRegId)

theorem setEntry_setEntry : (m.setEntry reg r).setEntry reg r' = m.setEntry reg r' := by
  unfold RenameMap.setEntry
  split <;> simp

theorem setEntry_eq_self : m.setEntry reg (m reg.classValue reg.index) = m := by
  unfold RenameMap.setEntry
  split <;> simp

def rewindOne (m : RenameMap) (e : RenameHistory) : RenameMap :=
  if e.changed then m.setEntry e.archReg e.prevPhysReg else m

end

section

variable (p : Params) (s : RenameState) (tid : ThreadID) (e : RenameHistory)
  (rest : List RenameHistory)

def undone (t : ThreadRename) (e : RenameHistory) (rest : List RenameHistory) : ThreadRename where
  renameMap := rewindOne t.renameMap e
  historyBuffer := rest
  freeingInProgress := t.freeingInProgress ++ if e.changed then [e.newPhysReg] else []

theorem undoEntry_threads :
    (s.undoEntry tid e rest).threads =
      update s.threads tid (undone (s.threads tid) e rest) := by
  unfold undoEntry undone rewindOne
  by_cases h : e.changed <;> simp [h, RenameState.modify]

@[simp] theorem undoEntry_freeLists : (s.undoEntry tid e rest).freeLists = s.freeLists := by
  unfold undoEntry
  by_cases h : e.changed <;> simp [h, RenameState.modify]

@[simp] theorem undoEntry_getRegFailed :
    (s.undoEntry tid e rest).getRegFailed = s.getRegFailed := by
  unfold undoEntry
  by_cases h : e.changed <;> simp [h, RenameState.modify]

theorem commitEntry_threads :
    (s.commitEntry tid e rest).threads =
      update s.threads tid { s.threads tid with historyBuffer := rest.reverse } := by
  unfold commitEntry
  by_cases h : e.changed <;> simp [h, RenameState.modify, addReg]

theorem commitEntry_freeLists :
    (s.commitEntry tid e rest).freeLists =
      if e.changed then (s.addReg e.prevPhysReg).freeLists else s.freeLists := by
  unfold commitEntry
  by_cases h : e.changed <;> simp [h, RenameState.modify]

@[simp] theorem commitEntry_getRegFailed :
    (s.commitEntry tid e rest).getRegFailed = s.getRegFailed := by
  unfold commitEntry
  by_cases h : e.changed <;> simp [h, RenameState.modify, addReg]

theorem renameDestReg_cases (seqNum : InstSeqNum) (reg : RegId) :
    (∃ r, (s.renameDestReg p tid seqNum reg).threads = update s.threads tid
        { s.threads tid with
          historyBuffer := ⟨seqNum, reg, r, r⟩ :: (s.threads tid).historyBuffer } ∧
      (s.renameDestReg p tid seqNum reg).freeLists = s.freeLists ∧
      ((s.renameDestReg p tid seqNum reg).getRegFailed = s.getRegFailed ∨
        reg.classValue.isRenameable = true ∧ s.freeLists reg.classValue = [])) ∨
    ∃ r free, reg.classValue.isRenameable = true ∧ s.freeLists reg.classValue = r :: free ∧
      (s.renameDestReg p tid seqNum reg).threads = update s.threads tid
        { s.threads tid with
          renameMap := (s.threads tid).renameMap.setEntry reg r
          historyBuffer :=
            ⟨seqNum, reg, r, (s.threads tid).renameMap reg.classValue reg.index⟩ ::
              (s.threads tid).historyBuffer } ∧
      (s.renameDestReg p tid seqNum reg).freeLists =
        update s.freeLists reg.classValue free ∧
      (s.renameDestReg p tid seqNum reg).getRegFailed = s.getRegFailed := by
  unfold renameDestReg rename
  by_cases hr : reg.classValue.isRenameable
  · rw [if_pos hr]
    unfold renameSimple
    by_cases hpin : 0 < s.numPinnedWrites ((s.threads tid).renameMap reg.classValue reg.index)
    · exact .inl ⟨(s.threads tid).renameMap reg.classValue reg.index, by
        simp [hpin, RenameState.modify]⟩
    · cases hfree : s.freeLists reg.classValue with
      | nil =>
        exact .inl ⟨(s.threads tid).renameMap reg.classValue reg.index, by
          simp [hpin, hr, RenameState.modify]⟩
      | cons r free =>
        exact .inr ⟨r, free, by
          simp [hpin, hr, RenameState.modify, setPins]⟩
  · rw [if_neg hr]
    refine .inl ⟨(s.threads tid).renameMap.lookup reg, ?_⟩
    cases ha : p.isAlwaysReady ((s.threads tid).renameMap.lookup reg) <;>
      simp [ha, RenameState.modify, setPins]

private theorem incrPins_frame (written : Bool) (reg : PhysRegId) :
    (s.incrPins written reg).threads = s.threads ∧
      (s.incrPins written reg).freeLists = s.freeLists ∧
      (s.incrPins written reg).getRegFailed = s.getRegFailed := by
  unfold incrPins
  cases s.pinned reg <;> exact ⟨rfl, rfl, rfl⟩

theorem setSquashed_frame (dests : List PhysRegId) (written : Bool) (s : RenameState) :
    (s.setSquashed dests written).threads = s.threads ∧
      (s.setSquashed dests written).freeLists = s.freeLists ∧
      (s.setSquashed dests written).getRegFailed = s.getRegFailed := by
  induction dests generalizing s with
  | nil => exact ⟨rfl, rfl, rfl⟩
  | cons reg dests ih =>
    obtain ⟨hthreads, hfree, hfailed⟩ := incrPins_frame s written reg
    obtain ⟨hthreads', hfree', hfailed'⟩ := ih (s.incrPins written reg)
    exact ⟨hthreads'.trans hthreads, hfree'.trans hfree, hfailed'.trans hfailed⟩

theorem addRegs_frame (regs : List PhysRegId) (s : RenameState) :
    (regs.foldl addReg s).threads = s.threads ∧
      (regs.foldl addReg s).getRegFailed = s.getRegFailed := by
  induction regs generalizing s with
  | nil => exact ⟨rfl, rfl⟩
  | cons reg regs ih => exact ih (s.addReg reg)

end

section

variable {s : RenameState} {tid : ThreadID} {sn : InstSeqNum} (Inv : RenameState → Prop)

theorem doSquash_inv
    (hstep : ∀ s e rest, (s.threads tid).historyBuffer = e :: rest → sn < e.instSeqNum → Inv s →
      Inv (s.undoEntry tid e rest)) (h : Inv s) :
    Inv (s.doSquash sn tid) ∧
      ∀ e ∈ ((s.doSquash sn tid).threads tid).historyBuffer.head?, e.instSeqNum ≤ sn := by
  unfold doSquash
  generalize hhist : (s.threads tid).historyBuffer = entries
  induction entries generalizing s with
  | nil => simpa [doSquashLoop, hhist] using h
  | cons e rest ih =>
    by_cases hlt : sn < e.instSeqNum
    · simp only [doSquashLoop, hlt, if_true]
      exact ih (hstep s e rest hhist hlt h) (by simp [undoEntry_threads, undone])
    · simpa [doSquashLoop, hlt, hhist] using ⟨h, Nat.le_of_not_lt hlt⟩

theorem removeFromHistory_inv
    (hstep : ∀ s e rest, (s.threads tid).historyBuffer = rest.reverse ++ [e] →
      e.instSeqNum ≤ sn → Inv s → Inv (s.commitEntry tid e rest)) (h : Inv s) :
    Inv (s.removeFromHistory sn tid) ∧
      ∀ e ∈ ((s.removeFromHistory sn tid).threads tid).historyBuffer.getLast?,
        sn < e.instSeqNum := by
  unfold removeFromHistory
  generalize hhist : (s.threads tid).historyBuffer.reverse = entries
  induction entries generalizing s with
  | nil =>
    have hnil : (s.threads tid).historyBuffer = [] := by simpa using hhist
    simpa [removeLoop, hnil] using h
  | cons e rest ih =>
    have hcat : (s.threads tid).historyBuffer = rest.reverse ++ [e] := by
      rw [← List.reverse_reverse (s.threads tid).historyBuffer, hhist, List.reverse_cons]
    by_cases hle : e.instSeqNum ≤ sn
    · simp only [removeLoop, hle, if_true]
      exact ih (hstep s e rest hcat hle h) (by simp [commitEntry_threads])
    · simpa [removeLoop, hle, hcat] using ⟨h, Nat.lt_of_not_le hle⟩

theorem renameDestRegs_inv {p : Params} {seqNum : InstSeqNum}
    (hstep : ∀ s reg, Inv s → Inv (s.renameDestReg p tid seqNum reg)) (destRegs : List RegId)
    {s : RenameState} (h : Inv s) : Inv (s.renameDestRegs p tid seqNum destRegs) := by
  induction destRegs generalizing s with
  | nil => exact h
  | cons reg destRegs ih => exact ih (hstep s reg h)

end

section

variable {p : Params} {s : RenameState} {t tid : ThreadID}

def thread : Event → Option ThreadID
  | .rename tid _ _ | .commit tid _ | .squash tid _ | .release tid => some tid
  | .setSquashed _ _ => none

theorem releaseRegs_threads :
    (s.releaseRegs tid).threads =
      update s.threads tid { s.threads tid with freeingInProgress := [] } := by
  unfold releaseRegs RenameState.modify
  rw [(addRegs_frame _ s).1]

theorem step_other (e : Event) (h : thread e ≠ some t) : (step p s e).threads t = s.threads t := by
  cases e with
  | rename tid seqNum destRegs =>
    have ht : t ≠ tid := fun heq => h (congrArg some heq.symm)
    refine renameDestRegs_inv (fun s' => s'.threads t = s.threads t) (fun s' reg hs' => ?_)
      destRegs rfl
    obtain ⟨r, hthreads, -⟩ | ⟨r, free, -, -, hthreads, -⟩ :=
      renameDestReg_cases p s' tid seqNum reg <;>
      rw [hthreads, update_of_ne ht, hs']
  | commit tid c =>
    have ht : t ≠ tid := fun heq => h (congrArg some heq.symm)
    refine (removeFromHistory_inv (fun s' => s'.threads t = s.threads t)
      (fun s' e rest _ _ hs' => ?_) rfl).1
    rw [commitEntry_threads, update_of_ne ht, hs']
  | squash tid sn =>
    have ht : t ≠ tid := fun heq => h (congrArg some heq.symm)
    refine (doSquash_inv (fun s' => s'.threads t = s.threads t)
      (fun s' e rest _ _ hs' => ?_) rfl).1
    rw [undoEntry_threads, update_of_ne ht, hs']
  | release tid =>
    have ht : t ≠ tid := fun heq => h (congrArg some heq.symm)
    exact (congrFun releaseRegs_threads t).trans (update_of_ne ht _ _)
  | setSquashed dests written => exact congrFun (setSquashed_frame dests written s).1 t

end

end Gem5Core.O3.RenameSpec
