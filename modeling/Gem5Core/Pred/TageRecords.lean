import Gem5Core.Pred.TageBase

/-! What the history operations of `TAGEBase` leave of the record of a branch: its
identity always, and its table indices once they are computed. -/
namespace Gem5Core.Pred.TageRecords
open Branch TageBase

variable {q : Params}

structure SameIndices (bi bi' : BranchInfo) : Prop where
  branchPC : bi'.branchPC = bi.branchPC
  condBranch : bi'.condBranch = bi.condBranch
  valid : bi'.valid = bi.valid
  tableIndices : bi'.tableIndices = bi.tableIndices

theorem SameIndices.refl (bi : BranchInfo) : SameIndices bi bi := ⟨rfl, rfl, rfl, rfl⟩

variable {bi : BranchInfo}

theorem SameIndices.trans {bi' bi'' : BranchInfo} (h : SameIndices bi bi')
    (h' : SameIndices bi' bi'') : SameIndices bi bi'' :=
  ⟨h'.branchPC.trans h.branchPC, h'.condBranch.trans h.condBranch, h'.valid.trans h.valid,
    h'.tableIndices.trans h.tableIndices⟩

variable (t : ThreadHistory)

private theorem restoreHistState_sameIndices (bi : BranchInfo) :
    SameIndices bi (restoreHistState q t bi).2 := by
  unfold restoreHistState
  split
  · exact .refl bi
  · split
    · exact .refl bi
    · split
      · exact .refl bi
      · exact ⟨rfl, rfl, rfl, rfl⟩

theorem rewind_sameIndices (bi : BranchInfo) : SameIndices bi (rewind q t bi).2 := by
  have hrecord : SameIndices bi
      (if q.speculativeHistUpdate && !bi.modified then recordHistState q t bi else bi) := by
    split
    · exact ⟨rfl, rfl, rfl, rfl⟩
    · exact .refl bi
  have hrestore : ∀ bi' : BranchInfo,
      SameIndices bi' (if bi'.modified then restoreHistState q t bi' else (t, bi')).2 := by
    intro bi'
    split
    · exact restoreHistState_sameIndices t bi'
    · exact .refl bi'
  exact hrecord.trans (hrestore _)

private theorem updatePathAndGlobalHistory_sameIndices (taken : Bool) (branch_pc target : Addr)
    (bi : BranchInfo) :
    SameIndices bi (updatePathAndGlobalHistory q t taken branch_pc target bi).2 := by
  unfold updatePathAndGlobalHistory
  split
  · split
    · exact ⟨rfl, rfl, rfl, rfl⟩
    · exact .refl bi
  · exact ⟨rfl, rfl, rfl, rfl⟩

variable (branch_pc : Addr)

theorem advance_indices (taken : Bool) (target : Addr) (bi : BranchInfo) :
    SameIndices (if !bi.valid && bi.condBranch then calculateIndicesAndTags q t branch_pc bi else bi)
      (advance q t branch_pc taken target bi).2 := by
  have h := updatePathAndGlobalHistory_sameIndices (q := q)
    (t.check (decide ((if !bi.valid && bi.condBranch then calculateIndicesAndTags q t branch_pc bi
      else bi).nGhist = 0))) taken branch_pc target
    (if !bi.valid && bi.condBranch then calculateIndicesAndTags q t branch_pc bi else bi)
  exact { h with }

theorem updateHistories_sameIndices (speculative taken : Bool) (target : Addr)
    (h : bi.valid = true ∨ bi.condBranch = false) :
    SameIndices bi (updateHistories q t branch_pc speculative taken target bi).2 := by
  unfold updateHistories
  split
  · split <;> exact .refl bi
  · have hrewind := rewind_sameIndices (q := q) t bi
    have hkeep : (!(rewind q t bi).2.valid && (rewind q t bi).2.condBranch) = false := by
      rw [hrewind.valid, hrewind.condBranch]
      obtain h | h := h <;> simp [h]
    have hadvance := advance_indices (q := q) (rewind q t bi).1 branch_pc taken target
      (rewind q t bi).2
    rw [hkeep] at hadvance
    exact hrewind.trans hadvance

theorem updateHistories_identity (speculative taken : Bool) (target : Addr) (bi : BranchInfo) :
    (updateHistories q t branch_pc speculative taken target bi).2.branchPC =
        bi.branchPC ∧
      (updateHistories q t branch_pc speculative taken target bi).2.condBranch =
        bi.condBranch := by
  unfold updateHistories
  split
  · split <;> exact ⟨rfl, rfl⟩
  · have hrewind := rewind_sameIndices (q := q) t bi
    have hadvance := advance_indices (q := q) (rewind q t bi).1 branch_pc taken target
      (rewind q t bi).2
    refine ⟨hadvance.branchPC.trans (.trans ?_ hrewind.branchPC),
      hadvance.condBranch.trans (.trans ?_ hrewind.condBranch)⟩ <;> split <;> rfl

theorem updateHistories_fills (taken : Bool) (target : Addr)
    (hspec : q.speculativeHistUpdate = true) (hvalid : bi.valid = false)
    (hcond : bi.condBranch = true) (hmodified : bi.modified = false) :
    SameIndices (calculateIndicesAndTags q t branch_pc bi)
      (updateHistories q t branch_pc true taken target bi).2 := by
  have hrewind : rewind q t bi = (t, recordHistState q t bi) := by
    have hkept : (recordHistState q t bi).modified = false := hmodified
    unfold rewind
    rw [hspec, hmodified]
    change (if (recordHistState q t bi).modified then
      restoreHistState q t (recordHistState q t bi) else (t, recordHistState q t bi)) = _
    rw [hkept]
    rfl
  have hadvance := advance_indices (q := q) t branch_pc taken target (recordHistState q t bi)
  have hfill : (!(recordHistState q t bi).valid && (recordHistState q t bi).condBranch) = true := by
    change (!bi.valid && bi.condBranch) = true
    rw [hvalid, hcond]
    rfl
  rw [hfill] at hadvance
  unfold updateHistories
  rw [hspec, hrewind]
  exact { hadvance with }

end Gem5Core.Pred.TageRecords
