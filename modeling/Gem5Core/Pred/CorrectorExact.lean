import Gem5Core.Lib.Speculation
import Gem5Core.Pred.StatisticalCorrector

/-! The histories of the statistical corrector against those of the surviving branches. A record
restores every history but one: the path history that was copied from TAGE stays as the squashed
branch left it. -/
namespace Gem5Core.Pred.CorrectorExact
open Branch Lib.Speculation StatisticalCorrector

/-- `phist` is the path history of TAGE at the update; `lookedUp`: `scPredict`
has recorded the histories before it. -/
structure Branch where
  pc : Addr
  inst : Inst
  lookedUp : Bool
  taken : Bool
  target : Addr
  phist : Register

structure Outcome where
  taken : Bool
  target : Addr
  phist : Register

variable (p : Params)

def newRecord (h : SCThreadHistory) (b : Branch) : BranchInfo :=
  if b.lookedUp then scRecordHistState p h b.pc {} else {}

/-- The calls of `TAGE_SC_L`. A commit also trains the weights, which leaves the
histories alone. -/
def machine : Machine SCThreadHistory Branch BranchInfo Outcome Empty where
  enter := fun h b =>
    updateHistories p h b.pc true b.inst b.taken (newRecord p h b) b.target b.phist
  amend := fun b outcome =>
    { b with taken := outcome.taken, target := outcome.target, phist := outcome.phist }
  correct := fun h b bi outcome =>
    if p.speculativeHistUpdate then
      updateHistories p h b.pc true b.inst outcome.taken bi outcome.target outcome.phist
    else (h, bi)
  undo := fun h _ bi => scRestoreHistState p h bi
  retire := fun h b bi =>
    (updateHistories p h b.pc false b.inst b.taken bi b.target b.phist).1
  other := fun h _ => h

def advance (h : SCThreadHistory) (b : Branch) : SCThreadHistory :=
  scHistoryUpdate p h b.pc b.inst b.taken b.target b.phist

def replay (branches : List Branch) : SCThreadHistory :=
  branches.foldr (fun b h => advance p h b) {}

def Replayed (st : Lib.Speculation.State SCThreadHistory Branch BranchInfo) : Prop :=
  st.history = replay p st.survivors

/-- The path history that the youngest branch was handed. -/
def newestPath (branches : List Branch) : Register := (branches.head?.map Branch.phist).getD 0

/-- A branch that is squashed was handed the same path history as the next older
survivor. -/
def PathKept (st : Lib.Speculation.State SCThreadHistory Branch BranchInfo) :
    Event Branch Outcome Empty → Prop
  | .undo =>
      match st.live with
      | [] => True
      | (b, _) :: older => b.phist = newestPath (older.map Prod.fst ++ st.committed)
  | _ => True

instance : ∀ (st : Lib.Speculation.State SCThreadHistory Branch BranchInfo)
    (event : Event Branch Outcome Empty), Decidable (PathKept st event) := by
  rintro ⟨_, _ | _, _⟩ (_ | _) <;> dsimp only [PathKept] <;> infer_instance

def Holds (live committed : List Branch) (h : SCThreadHistory) : Prop :=
  h = replay p (live ++ committed)

/-- The record was made in the histories of the `older` branches. -/
def Restores (older : List Branch) (b : Branch) (bi : BranchInfo) : Prop :=
  ∃ blank, bi = { scRecordHistState p (replay p older) b.pc blank with modified := true }

def withPath (h : SCThreadHistory) (phist : Register) : SCThreadHistory := { h with pHist := phist }

private theorem withPath_eq_self {h : SCThreadHistory} {phist : Register} :
    withPath h phist = h ↔ h.pHist = phist := by
  constructor
  · intro heq
    rw [← heq]
    rfl
  · rintro rfl
    rfl

section

variable {p}

private theorem scRecordHistState_pc (h : SCThreadHistory) (pc : Addr) (bi : BranchInfo) :
    (scRecordHistState p h pc bi).pc = pc := by
  unfold scRecordHistState
  split <;> rfl

private theorem scRecordHistState_modified (h : SCThreadHistory) (pc : Addr) (bi : BranchInfo) :
    (scRecordHistState p h pc bi).modified = bi.modified := by
  unfold scRecordHistState
  split <;> rfl

theorem advance_pHist (h : SCThreadHistory) (b : Branch) : (advance p h b).pHist = b.phist := by
  unfold advance scHistoryUpdate baseHistoryUpdate
  split <;> rfl

private theorem replay_pHist (branches : List Branch) :
    (replay p branches).pHist = newestPath branches := by
  cases branches with
  | nil => rfl
  | cons b older => exact advance_pHist _ b

private theorem advance_withPath (h : SCThreadHistory) (x : Register) (b : Branch) :
    advance p (withPath h x) b = advance p h b := by
  unfold advance scHistoryUpdate variantHistoryUpdate
  split
  · split <;> rfl
  · rfl

def ordinals (p : Params) : List Nat :=
  match p.variant with
  | .kb64 .. => [1, 2, 3]
  | .kb8 => [1]

/-- From `h` to `h'` only such histories changed as a record at `pc` saves. -/
structure Frame (p : Params) (pc : Addr) (h h' : SCThreadHistory) : Prop where
  locals : ∀ ordinal entry, (ordinal ∈ ordinals p → entry ≠ getEntry p pc ordinal) →
    h'.localHistories ordinal entry = h.localHistories ordinal entry
  imHist : ∀ count, (p.variant ≠ .kb8 → count ≠ h.imliCount) → h'.imHist count = h.imHist count
  globalHist : p.variant ≠ .kb8 → h'.globalHist = h.globalHist

section

variable (h : SCThreadHistory)
include h

theorem setLocalHistory_apply (ordinal' : Nat) (pc : Addr) (value : Register)
    (ordinal entry : Nat) :
    (setLocalHistory p h ordinal' pc value).localHistories ordinal entry =
      if ordinal = ordinal' ∧ entry = getEntry p pc ordinal then value
      else h.localHistories ordinal entry := by
  by_cases heq : ordinal = ordinal'
  · subst heq
    simp [setLocalHistory, Function.update_apply]
  · simp [setLocalHistory, heq]

theorem advance_frame (b : Branch) : Frame p b.pc h (advance p h b) := by
  unfold advance scHistoryUpdate baseHistoryUpdate
  by_cases hcond : brtype b.inst &&& 1 ≠ 0
  · rw [if_pos hcond, if_pos hcond]
    unfold variantHistoryUpdate
    refine ⟨?_, ?_, ?_⟩
    · intro ordinal entry hne
      unfold ordinals at hne
      unfold updateLocalHistory
      cases hvariant : p.variant with
      | kb64 second third logTnb =>
        rw [hvariant] at hne
        rw [setLocalHistory_apply, setLocalHistory_apply, setLocalHistory_apply, if_neg, if_neg,
          if_neg]
        all_goals
          rintro ⟨rfl, hentry⟩
          exact hne (by simp) hentry
      | kb8 =>
        rw [hvariant] at hne
        rw [setLocalHistory_apply, if_neg]
        rintro ⟨rfl, hentry⟩
        exact hne (by simp) hentry
    · intro count hne
      cases hvariant : p.variant with
      | kb64 second third logTnb =>
        exact Function.update_of_ne (hne (by rw [hvariant]; exact nofun)) _ _
      | kb8 => rfl
    · intro hne
      cases hvariant : p.variant with
      | kb64 second third logTnb => rfl
      | kb8 => exact absurd hvariant hne
  · rw [if_neg hcond, if_neg hcond]
    exact ⟨fun _ _ _ => rfl, fun _ _ => rfl, fun _ => rfl⟩

theorem restore_locals {bi : BranchInfo} (hmodified : bi.modified = true) (ordinal entry : Nat) :
    (scRestoreHistState p h bi).localHistories ordinal entry =
      if ordinal ∈ ordinals p ∧ entry = getEntry p bi.pc ordinal then bi.localHistories ordinal
      else h.localHistories ordinal entry := by
  unfold scRestoreHistState ordinals
  rw [hmodified]
  cases hvariant : p.variant with
  | kb64 second third logTnb =>
    change (setLocalHistory _ (setLocalHistory _ (setLocalHistory _ h _ _ _) _ _ _) _ _
      _).localHistories _ _ = _
    rw [setLocalHistory_apply, setLocalHistory_apply, setLocalHistory_apply]
    grind
  | kb8 =>
    change (setLocalHistory _ h _ _ _).localHistories _ _ = _
    rw [setLocalHistory_apply]
    grind

private theorem record_locals (pc : Addr) (blank : BranchInfo) {ordinal : Nat}
    (hmem : ordinal ∈ ordinals p) :
    (scRecordHistState p h pc blank).localHistories ordinal =
      h.localHistories ordinal (getEntry p pc ordinal) := by
  unfold ordinals at hmem
  unfold scRecordHistState baseRecordHistState
  cases hvariant : p.variant with
  | kb64 second third logTnb =>
    rw [hvariant] at hmem
    obtain rfl | rfl | rfl : ordinal = 1 ∨ ordinal = 2 ∨ ordinal = 3 := by simpa using hmem
    all_goals rfl
  | kb8 =>
    rw [hvariant] at hmem
    obtain rfl : ordinal = 1 := by simpa using hmem
    rfl

end

theorem restore_of_frame {h h' : SCThreadHistory} {pc : Addr} (hframe : Frame p pc h h')
    (blank : BranchInfo) :
    scRestoreHistState p h' { scRecordHistState p h pc blank with modified := true } =
      withPath h h'.pHist := by
  obtain ⟨hlocals, him, hglobal⟩ := hframe
  have hpc := scRecordHistState_pc (p := p) h pc blank
  apply SCThreadHistory.ext
  case localHistories =>
    funext ordinal entry
    rw [restore_locals _ rfl]
    change (if _ ∧ entry = getEntry p (scRecordHistState p h pc blank).pc ordinal then
      (scRecordHistState p h pc blank).localHistories ordinal else _) = h.localHistories _ _
    rw [hpc]
    split
    · rename_i hsaved
      rw [record_locals _ _ _ hsaved.1, hsaved.2]
    · rename_i hother
      exact hlocals ordinal entry fun hmem hentry => hother ⟨hmem, hentry⟩
  case imHist =>
    funext count
    have hrest := him count
    unfold scRestoreHistState scRecordHistState
    cases hvariant : p.variant with
    | kb64 second third logTnb =>
      by_cases hcount : count = h.imliCount
      · subst hcount
        exact Function.update_self _ _ _
      · exact (Function.update_of_ne hcount _ _).trans (hrest fun _ => hcount)
    | kb8 => exact hrest (absurd hvariant)
  case globalHist =>
    unfold scRestoreHistState scRecordHistState
    cases hvariant : p.variant with
    | kb64 second third logTnb => exact hglobal (by rw [hvariant]; exact nofun)
    | kb8 => rfl
  all_goals
    unfold scRestoreHistState scRecordHistState
    cases p.variant <;> rfl

end

section

variable {p} {live committed older : List Branch} {b : Branch} {h : SCThreadHistory}
  {bi : BranchInfo}

section

variable (hspec : p.speculativeHistUpdate = true)
include hspec

theorem enter_eq (h : SCThreadHistory) (b : Branch) :
    (machine p).enter h b =
      (advance p h b, { scRecordHistState p h b.pc (newRecord p h b) with modified := true }) := by
  have hnew : (newRecord p h b).modified = false := by
    unfold newRecord
    split
    · exact scRecordHistState_modified _ _ _
    · rfl
  simp [machine, updateHistories, hspec, hnew, scRecordHistState_modified, advance]

theorem correct_eq (h : SCThreadHistory) (b : Branch) (bi : BranchInfo) (outcome : Outcome) :
    (machine p).correct h b { bi with modified := true } outcome =
      (advance p (scRestoreHistState p h { bi with modified := true })
        ((machine p).amend b outcome), { bi with modified := true }) := by
  simp [machine, updateHistories, hspec, advance]

theorem retire_eq (h : SCThreadHistory) (b : Branch) (bi : BranchInfo) :
    (machine p).retire h b bi = h := by
  simp [machine, updateHistories, hspec]

theorem enter_exact (hh : Holds p live committed h) (b : Branch) :
    Holds p (b :: live) committed ((machine p).enter h b).1 ∧
      Restores p (live ++ committed) b ((machine p).enter h b).2 := by
  rw [enter_eq hspec, hh]
  exact ⟨rfl, _, rfl⟩

end

theorem restore_exact (hh : Holds p (b :: live) committed h)
    (hrestores : Restores p (live ++ committed) b bi) :
    scRestoreHistState p h bi = withPath (replay p (live ++ committed)) b.phist := by
  obtain ⟨blank, rfl⟩ := hrestores
  have hyoungest : h = advance p (replay p (live ++ committed)) b := hh
  rw [hyoungest, restore_of_frame (advance_frame _ b), advance_pHist]

theorem correct_exact (hspec : p.speculativeHistUpdate = true)
    (hh : Holds p (b :: live) committed h) (hrestores : Restores p (live ++ committed) b bi)
    (outcome : Outcome) :
    Holds p ((machine p).amend b outcome :: live) committed
        ((machine p).correct h b bi outcome).1 ∧
      Restores p (live ++ committed) ((machine p).amend b outcome)
        ((machine p).correct h b bi outcome).2 := by
  have hrestored := restore_exact hh hrestores
  obtain ⟨blank, rfl⟩ := hrestores
  rw [correct_eq hspec, hrestored, advance_withPath]
  exact ⟨rfl, blank, rfl⟩

theorem undo_exact_iff (hh : Holds p (b :: live) committed h)
    (hrestores : Restores p (live ++ committed) b bi) :
    Holds p live committed ((machine p).undo h b bi) ↔ b.phist = newestPath (live ++ committed) := by
  have hundo : (machine p).undo h b bi = withPath (replay p (live ++ committed)) b.phist :=
    restore_exact hh hrestores
  rw [hundo, ← replay_pHist (p := p), eq_comm]
  exact withPath_eq_self

theorem machine_exact (hspec : p.speculativeHistUpdate = true) :
    Exact (machine p) (Holds p) (Restores p) fun st event => True ∧ PathKept st event where
  enter := fun b hh _ => enter_exact hspec hh b
  correct := fun outcome hh hrestores _ => correct_exact hspec hh hrestores outcome
  undo := by
    intro h b bi rest committed hh hrestores hkept
    exact (undo_exact_iff hh hrestores).mpr hkept.2
  retire := by
    intro h b bi rest committed hh _ _
    rw [retire_eq hspec, hh]
    simp [Holds]
  other := fun w => w.elim

theorem machine_strict :
    Strict (machine p) (Inv (Holds p) (Restores p)) (Replayed p) (fun _ _ => True) PathKept := by
  intro st event hinv _ hstep
  obtain ⟨h, live, committed⟩ := st
  obtain ⟨hh, hsaved⟩ := hinv
  cases event with
  | undo =>
    cases live with
    | nil => trivial
    | cons youngest rest => exact (undo_exact_iff hh hsaved.1).mp hstep
  | enter | correct | retire | other => trivial

end

/-- A run is exact in every state just when every branch that is squashed was
handed the path history of the next older survivor. -/
theorem corrector_exact_iff {p : Params} (hspec : p.speculativeHistUpdate = true)
    (events : List (Event Branch Outcome Empty)) :
    (∀ seen, seen <+: events → Replayed p (run (machine p) {} seen)) ↔
      Legal (machine p) PathKept {} events :=
  (machine_exact hspec).run_good_iff (fun hinv => hinv.reflects) machine_strict rfl
    (Lib.Protocol.legal_of_forall fun _ _ _ => trivial)

def evenPath : List (Event Branch Outcome Empty) :=
  [.enter ⟨0x1008, ⟨true, false⟩, true, false, 0x1000, 0⟩, .correct ⟨true, 0x1000, 0⟩,
    .enter ⟨0x1010, ⟨true, false⟩, true, true, 0x2000, 0⟩, .undo, .retire]

theorem corrector_exact_iff_evenPath :
    Legal (machine .defaults64KB) PathKept {} evenPath ∧
      Replayed .defaults64KB (run (machine .defaults64KB) {} evenPath) :=
  ⟨by decide,
    (corrector_exact_iff (p := .defaults64KB) rfl evenPath).mpr (by decide) _ List.prefix_rfl⟩

/-- The squashed branch stays in the path history. -/
theorem squashed_path_stays :
    ¬ Replayed .defaults64KB (run (machine .defaults64KB) {}
      [.enter ⟨0x1004, ⟨true, false⟩, true, true, 0x2000, 1⟩, .undo]) := by
  intro h
  have hpath := congrArg SCThreadHistory.pHist h
  revert hpath
  decide

end Gem5Core.Pred.CorrectorExact
