import Gem5Core.Lib.Speculation
import Gem5Core.Pred.Ltage
import Gem5Core.Pred.TageRecords

/-! The speculative iteration counts of the loop predictor against the counts of
the surviving branches. A record has a field for the count before its branch, but
nothing sets it: a squash or a correction always takes the count back to 0. -/
namespace Gem5Core.Pred.LoopCounting
open Branch LoopPredictor Lib.Speculation

/-- A conditional branch with the direction known at present. `prev_pred_taken`
is the prediction that the loop predictor may overrule; the last three fields are
what its commit brings. -/
structure Branch where
  pc : Addr
  prev_pred_taken : Bool
  taken : Bool
  tage_pred : Bool := false
  choice : BitVec 32 := 0
  nrand : BitVec 32 := 0

variable (lp : Params) (instShiftAmt : Nat)

def predict (s : State) (b : Branch) : State × BranchInfo :=
  let (pred_taken, s, bi) := loopPredict lp s b.pc true {} b.prev_pred_taken instShiftAmt
  (s, { bi with predTaken := pred_taken })

/-- A correction carries the new direction, which `squashLoop` does not take. -/
def machine : Machine State Branch BranchInfo Bool Empty where
  enter := predict lp instShiftAmt
  amend := fun b taken => { b with taken }
  correct := fun s _ bi _ => (squashLoop lp s bi, bi)
  undo := fun s _ bi => squash lp s bi
  retire := fun s b bi =>
    condBranchUpdate lp s b.pc b.taken b.tage_pred bi instShiftAmt b.choice b.nrand
  other := fun s _ => s

def found (s : State) (pc : Addr) : BranchInfo :=
  (getLoop lp s pc {} lp.useSpeculation instShiftAmt).2

def entry (s : State) (pc : Addr) : Nat := hitIndex lp (found lp instShiftAmt s pc)

def replay (start : State) (branches : List Branch) : State :=
  branches.foldr (fun b s => specLoopUpdate lp s b.taken (found lp instShiftAmt s b.pc)) start

def count (s : State) (idx : Nat) : BitVec 16 := (s.ltable idx).currentIterSpec

def Replayed (start : State)
    (st : Lib.Speculation.State State Branch BranchInfo) : Prop :=
  ∀ idx, count st.history idx = count (replay lp instShiftAmt start st.survivors) idx

/-- Every branch hits an entry, and starts with the direction that is predicted
for it; no commit gives an entry to another loop or turns its direction round. -/
def Steady (st : Lib.Speculation.State State Branch BranchInfo) :
    Event Branch Bool Empty → Prop
  | .enter b =>
      0 ≤ (found lp instShiftAmt st.history b.pc).loopHit ∧
        (loopPredict lp st.history b.pc true {} b.prev_pred_taken instShiftAmt).1 = b.taken
  | .retire => ∀ idx,
      ((step (machine lp instShiftAmt) st .retire).history.ltable idx).tag =
          (st.history.ltable idx).tag ∧
        ((step (machine lp instShiftAmt) st .retire).history.ltable idx).dir =
          (st.history.ltable idx).dir
  | _ => True

def countBefore (start : State) (older : List Branch) (b : Branch) : BitVec 16 :=
  count (replay lp instShiftAmt start older) (entry lp instShiftAmt start b.pc)

/-- A squashed branch was the first of its loop, and so was a corrected one unless
it leaves the loop. -/
def AtZero (start : State)
    (st : Lib.Speculation.State State Branch BranchInfo) :
    Event Branch Bool Empty → Prop
  | .undo =>
      match st.live with
      | [] => True
      | (b, _) :: rest =>
          countBefore lp instShiftAmt start (rest.map Prod.fst ++ st.committed) b = 0
  | .correct taken =>
      match st.live with
      | [] => True
      | (b, _) :: rest =>
          taken ≠ (start.ltable (entry lp instShiftAmt start b.pc)).dir ∨
            (countBefore lp instShiftAmt start (rest.map Prod.fst ++ st.committed) b + 1) &&&
              loopNumIterMask lp = 0
  | _ => True

instance (start : State) :
    ∀ (st : Lib.Speculation.State State Branch BranchInfo)
      (event : Event Branch Bool Empty), Decidable (AtZero lp instShiftAmt start st event) := by
  rintro ⟨_, _ | _, _⟩ (_ | _) <;> dsimp only [AtZero] <;> infer_instance

def spec (entry : LoopEntry) : BitVec 16 × Bool × BitVec 16 :=
  (entry.tag, entry.dir, entry.currentIterSpec)

def Holds (start : State) (live committed : List Branch) (s : State) :
    Prop :=
  ∀ idx, spec (s.ltable idx) =
    spec ((replay lp instShiftAmt start (live ++ committed)).ltable idx)

structure Restores (start : State) (_older : List Branch) (b : Branch)
    (bi : BranchInfo) : Prop where
  hit : 0 ≤ bi.loopHit
  index : hitIndex lp bi = entry lp instShiftAmt start b.pc
  zero : bi.currentIter = 0
  found : 0 ≤ (found lp instShiftAmt start b.pc).loopHit

section

variable {lp instShiftAmt} {s s' : State}

theorem found_congr (htags : ∀ idx, (s.ltable idx).tag = (s'.ltable idx).tag) (pc : Addr) :
    (found lp instShiftAmt s pc).loopHit = (found lp instShiftAmt s' pc).loopHit ∧
      entry lp instShiftAmt s pc = entry lp instShiftAmt s' pc := by
  have hway : ∀ bi, findWay lp s bi = findWay lp s' bi := by
    intro bi
    unfold findWay entryAt
    simp only [htags]
  unfold entry found getLoop
  dsimp only
  rw [hway]
  split <;> exact ⟨rfl, rfl⟩

variable (taken : Bool)

private theorem spec_specCount {entry entry' : LoopEntry} (h : spec entry = spec entry') :
    spec (specCount lp taken entry) = spec (specCount lp taken entry') := by
  simp only [spec, Prod.mk.injEq] at h
  simp only [spec, specCount, h]

theorem spec_specLoopUpdate (h : ∀ idx, spec (s.ltable idx) = spec (s'.ltable idx)) (pc : Addr)
    (taken : Bool) (idx : Nat) :
    spec ((specLoopUpdate lp s taken (found lp instShiftAmt s pc)).ltable idx) =
      spec ((specLoopUpdate lp s' taken (found lp instShiftAmt s' pc)).ltable idx) := by
  have htags : ∀ idx, (s.ltable idx).tag = (s'.ltable idx).tag :=
    fun idx => congrArg Prod.fst (h idx)
  obtain ⟨hhit, hentry⟩ : (found lp instShiftAmt s pc).loopHit =
      (found lp instShiftAmt s' pc).loopHit ∧ hitIndex lp (found lp instShiftAmt s pc) =
      hitIndex lp (found lp instShiftAmt s' pc) := found_congr htags pc
  unfold specLoopUpdate
  rw [hhit, hentry]
  split
  · by_cases hidx : idx = hitIndex lp (found lp instShiftAmt s' pc)
    · subst hidx
      rw [modify_ltable_self, modify_ltable_self]
      exact spec_specCount taken (h _)
    · rw [modify_ltable_other _ hidx, modify_ltable_other _ hidx]
      exact h idx
  · exact h idx

theorem specLoopUpdate_other {bi : BranchInfo} {idx : Nat} (h : idx ≠ hitIndex lp bi) :
    (specLoopUpdate lp s taken bi).ltable idx = s.ltable idx := by
  unfold specLoopUpdate
  split
  · exact modify_ltable_other _ h
  · rfl

private theorem specLoopUpdate_kept (bi : BranchInfo) (idx : Nat) :
    ((specLoopUpdate lp s taken bi).ltable idx).tag = (s.ltable idx).tag ∧
      ((specLoopUpdate lp s taken bi).ltable idx).dir = (s.ltable idx).dir := by
  by_cases hidx : idx = hitIndex lp bi
  · subst hidx
    unfold specLoopUpdate
    split
    · rw [modify_ltable_self]
      exact ⟨rfl, rfl⟩
    · exact ⟨rfl, rfl⟩
  · rw [specLoopUpdate_other taken hidx]
    exact ⟨rfl, rfl⟩

theorem replay_kept (start : State) (branches : List Branch) (idx : Nat) :
    ((replay lp instShiftAmt start branches).ltable idx).tag = (start.ltable idx).tag ∧
      ((replay lp instShiftAmt start branches).ltable idx).dir = (start.ltable idx).dir := by
  induction branches with
  | nil => exact ⟨rfl, rfl⟩
  | cons b older ih =>
    rw [← ih.1, ← ih.2]
    exact specLoopUpdate_kept b.taken _ idx

theorem trainHit_count (bi : BranchInfo) (tage_pred : Bool) (entry : LoopEntry) :
    (trainHit lp taken bi tage_pred entry).currentIterSpec = entry.currentIterSpec := by
  have hcount : ∀ entry : LoopEntry, (countIter lp entry).currentIterSpec =
      entry.currentIterSpec := by
    intro entry
    unfold countIter
    dsimp only
    split
    · split <;> rfl
    · rfl
  have hend : ∀ entry : LoopEntry, (endLoop lp taken entry).currentIterSpec =
      entry.currentIterSpec := by
    intro entry
    unfold endLoop
    dsimp only
    split
    · split <;> rfl
    · split <;> rfl
  have hiter : ∀ entry : LoopEntry, (if taken != bodyDir lp (countIter lp entry) then
      endLoop lp taken (countIter lp entry) else countIter lp entry).currentIterSpec =
        entry.currentIterSpec := by
    intro entry
    split
    · rw [hend, hcount]
    · exact hcount entry
  unfold trainHit
  split
  · rfl
  · rw [hiter]
    split <;> rfl

theorem count_modify {f : LoopEntry → LoopEntry}
    (hf : ∀ entry, (f entry).currentIterSpec = entry.currentIterSpec) (index idx : Nat) :
    count (s.modify index f) idx = count s idx := by
  unfold count
  by_cases hidx : idx = index
  · subst hidx
    rw [modify_ltable_self, hf]
  · rw [modify_ltable_other _ hidx]

private theorem allocate_count (bi : BranchInfo) (nrand : BitVec 32) (steps : List Nat)
    (s : State) (idx : Nat) :
    count (allocate lp taken bi nrand steps s) idx = count s idx := by
  induction steps generalizing s with
  | nil => rfl
  | cons i rest ih =>
    unfold allocate
    dsimp only
    split
    · apply count_modify
      exact fun _ => rfl
    · split
      · apply count_modify
        exact fun _ => rfl
      · rw [ih]
        apply count_modify
        exact fun _ => rfl

private theorem condBranchUpdate_count (pc : Addr) (taken tage_pred : Bool) (bi : BranchInfo)
    (choice nrand : BitVec 32) (idx : Nat) :
    count (condBranchUpdate lp s pc taken tage_pred bi instShiftAmt choice nrand) idx =
      count s idx := by
  have huse : count (countUse lp s taken (commitInfo lp s pc bi instShiftAmt)) idx = count s idx := by
    unfold count
    rw [countUse_ltable]
  unfold condBranchUpdate loopUpdate
  dsimp only
  split
  · rw [count_modify fun entry => trainHit_count taken _ tage_pred entry, huse]
  · split
    · rw [allocate_count, huse]
    · exact huse

end

section

variable {lp instShiftAmt} {start s : State} {live committed older : List Branch}
  {b : Branch} {bi : BranchInfo}

theorem Holds.kept (h : Holds lp instShiftAmt start live committed s) (idx : Nat) :
    (s.ltable idx).tag = (start.ltable idx).tag ∧ (s.ltable idx).dir = (start.ltable idx).dir := by
  rw [← (replay_kept start (live ++ committed) idx).1,
    ← (replay_kept start (live ++ committed) idx).2]
  exact ⟨congrArg Prod.fst (h idx), congrArg (fun x => x.2.1) (h idx)⟩

theorem Holds.of_count (hkept : ∀ idx, (s.ltable idx).tag = (start.ltable idx).tag ∧
      (s.ltable idx).dir = (start.ltable idx).dir)
    (hcount : ∀ idx, count s idx = count (replay lp instShiftAmt start (live ++ committed)) idx) :
    Holds lp instShiftAmt start live committed s := by
  intro idx
  unfold spec
  rw [(hkept idx).1, (hkept idx).2, (replay_kept start _ idx).1, (replay_kept start _ idx).2]
  exact congrArg _ (congrArg _ (hcount idx))

theorem predict_spec (hspec : lp.useSpeculation = true) (s : State) (b : Branch) :
    (predict lp instShiftAmt s b).1 = specLoopUpdate lp s
        (loopPredict lp s b.pc true {} b.prev_pred_taken instShiftAmt).1
        (found lp instShiftAmt s b.pc) ∧
      (predict lp instShiftAmt s b).2.loopHit = (found lp instShiftAmt s b.pc).loopHit ∧
      hitIndex lp (predict lp instShiftAmt s b).2 = entry lp instShiftAmt s b.pc ∧
      (predict lp instShiftAmt s b).2.currentIter = 0 := by
  have hzero : (found lp instShiftAmt s b.pc).currentIter = 0 := by
    unfold found getLoop
    dsimp only
    split <;> rfl
  unfold predict loopPredict entry
  simp only [hspec, Bool.not_true, Bool.false_eq_true, if_false, if_true]
  unfold found at hzero ⊢
  rw [hspec] at hzero ⊢
  split
  · exact ⟨rfl, rfl, rfl, hzero⟩
  · exact ⟨rfl, rfl, rfl, hzero⟩

theorem enter_exact (hspec : lp.useSpeculation = true)
    (h : Holds lp instShiftAmt start live committed s) (b : Branch)
    (hhit : 0 ≤ (found lp instShiftAmt s b.pc).loopHit)
    (htaken : (loopPredict lp s b.pc true {} b.prev_pred_taken instShiftAmt).1 = b.taken) :
    Holds lp instShiftAmt start (b :: live) committed (predict lp instShiftAmt s b).1 ∧
      Restores lp instShiftAmt start (live ++ committed) b (predict lp instShiftAmt s b).2 := by
  obtain ⟨hstate, hrecord, hindex, hzero⟩ := predict_spec hspec s b
  obtain ⟨hfound, hentry⟩ : (found lp instShiftAmt s b.pc).loopHit =
      (found lp instShiftAmt start b.pc).loopHit ∧
      entry lp instShiftAmt s b.pc = entry lp instShiftAmt start b.pc :=
    found_congr (fun idx => (h.kept idx).1) b.pc
  refine ⟨?_, ?_, ?_, hzero, ?_⟩
  · intro idx
    rw [hstate, htaken]
    exact spec_specLoopUpdate h b.pc b.taken idx
  · rw [hrecord]
    exact hhit
  · rw [hindex, hentry]
  · rw [← hfound]
    exact hhit

theorem rewindSpec_count (hrestores : Restores lp instShiftAmt start older b bi) (idx : Nat) :
    count (rewindSpec lp s bi) idx =
      if idx = entry lp instShiftAmt start b.pc then 0 else count s idx := by
  obtain ⟨hhit, hindex, hzero, -⟩ := hrestores
  unfold rewindSpec count
  rw [if_pos hhit, hindex, hzero]
  split
  · rename_i hidx
    rw [hidx, modify_ltable_self]
  · rename_i hidx
    rw [modify_ltable_other _ hidx]

private theorem rewindSpec_kept (idx : Nat) :
    ((rewindSpec lp s bi).ltable idx).tag = (s.ltable idx).tag ∧
      ((rewindSpec lp s bi).ltable idx).dir = (s.ltable idx).dir := by
  unfold rewindSpec
  split
  · by_cases hidx : idx = hitIndex lp bi
    · subst hidx
      rw [modify_ltable_self]
      exact ⟨rfl, rfl⟩
    · rw [modify_ltable_other _ hidx]
      exact ⟨rfl, rfl⟩
  · exact ⟨rfl, rfl⟩

theorem count_replay_cons (hfound : 0 ≤ (found lp instShiftAmt start b.pc).loopHit)
    (older : List Branch) (idx : Nat) :
    count (replay lp instShiftAmt start (b :: older)) idx =
      if idx = entry lp instShiftAmt start b.pc then
        if b.taken ≠ (start.ltable idx).dir then 0
        else (count (replay lp instShiftAmt start older) idx + 1) &&& loopNumIterMask lp
      else count (replay lp instShiftAmt start older) idx := by
  obtain ⟨hhit, hentry⟩ : (found lp instShiftAmt (replay lp instShiftAmt start older) b.pc).loopHit =
      (found lp instShiftAmt start b.pc).loopHit ∧
      hitIndex lp (found lp instShiftAmt (replay lp instShiftAmt start older) b.pc) =
        entry lp instShiftAmt start b.pc :=
    found_congr (fun idx => (replay_kept start older idx).1) b.pc
  change ((specLoopUpdate lp (replay lp instShiftAmt start older) b.taken
    (found lp instShiftAmt (replay lp instShiftAmt start older) b.pc)).ltable idx).currentIterSpec = _
  split
  · rename_i hidx
    unfold specLoopUpdate
    rw [hhit, hentry, if_pos hfound, ← hidx, modify_ltable_self, specCount,
      (replay_kept start older idx).2]
    rfl
  · rename_i hidx
    rw [specLoopUpdate_other b.taken (by rw [hentry]; exact hidx)]
    rfl

section

variable (h : Holds lp instShiftAmt start (b :: live) committed s)
  (hrestores : Restores lp instShiftAmt start (live ++ committed) b bi)
include h hrestores

theorem rewind_iff {survivors : List Branch}
    (hother : ∀ idx, idx ≠ entry lp instShiftAmt start b.pc →
      count (replay lp instShiftAmt start survivors) idx =
        count (replay lp instShiftAmt start (live ++ committed)) idx) :
    (∀ idx, count (rewindSpec lp s bi) idx =
        count (replay lp instShiftAmt start survivors) idx) ↔
      count (replay lp instShiftAmt start survivors) (entry lp instShiftAmt start b.pc) = 0 := by
  constructor
  · intro hall
    rw [← hall, rewindSpec_count hrestores, if_pos rfl]
  · intro hzero idx
    rw [rewindSpec_count hrestores]
    split
    · rename_i hidx
      rw [hidx, hzero]
    · rename_i hidx
      have hbefore : count s idx = count (replay lp instShiftAmt start (b :: (live ++ committed))) idx :=
        congrArg (fun x => x.2.2) (h idx)
      rw [hbefore, count_replay_cons hrestores.found, if_neg hidx, hother idx hidx]

theorem undo_iff :
    (∀ idx, count (squash lp s bi) idx =
        count (replay lp instShiftAmt start (live ++ committed)) idx) ↔
      countBefore lp instShiftAmt start (live ++ committed) b = 0 :=
  rewind_iff h hrestores fun _ _ => rfl

theorem correct_iff (taken : Bool) :
    (∀ idx, count (squashLoop lp s bi) idx =
        count (replay lp instShiftAmt start ({ b with taken } :: (live ++ committed))) idx) ↔
      taken ≠ (start.ltable (entry lp instShiftAmt start b.pc)).dir ∨
        (countBefore lp instShiftAmt start (live ++ committed) b + 1) &&& loopNumIterMask lp = 0 := by
  have hcons := count_replay_cons (b := { b with taken }) hrestores.found (live ++ committed)
  refine (rewind_iff h hrestores fun idx hidx => ?_).trans ?_
  · rw [hcons, if_neg hidx]
  rw [hcons]
  by_cases hleaves : taken ≠ (start.ltable (entry lp instShiftAmt start b.pc)).dir
  · simp [hleaves]
  · simp [hleaves, countBefore]

end

private theorem rewind_kept (h : Holds lp instShiftAmt start live committed s) (idx : Nat) :
    ((rewindSpec lp s bi).ltable idx).tag = (start.ltable idx).tag ∧
      ((rewindSpec lp s bi).ltable idx).dir = (start.ltable idx).dir := by
  rw [(rewindSpec_kept idx).1, (rewindSpec_kept idx).2]
  exact h.kept idx

theorem machine_exact (hspec : lp.useSpeculation = true) :
    Exact (machine lp instShiftAmt) (Holds lp instShiftAmt start) (Restores lp instShiftAmt start)
      fun st event => Steady lp instShiftAmt st event ∧ AtZero lp instShiftAmt start st event where
  enter := fun b h hallowed => enter_exact hspec h b hallowed.1.1 hallowed.1.2
  correct := by
    intro s b bi rest committed taken h hrestores hallowed
    refine ⟨.of_count (rewind_kept h) ((correct_iff h hrestores taken).mpr hallowed.2), ?_⟩
    exact { hrestores with }
  undo := fun h hrestores hallowed =>
    .of_count (rewind_kept h) ((undo_iff h hrestores).mpr hallowed.2)
  retire := by
    intro s b bi rest committed h _ hallowed
    have hsteady := hallowed.1
    unfold Steady at hsteady
    rw [step_retire _ List.getLast?_concat] at hsteady
    refine .of_count ?_ ?_
    · intro idx
      rw [← (h.kept idx).1, ← (h.kept idx).2]
      exact hsteady idx
    · intro idx
      rw [List.append_cons]
      exact (condBranchUpdate_count ..).trans (congrArg (fun x => x.2.2) (h idx))
  other := fun w => w.elim

theorem machine_strict :
    Strict (machine lp instShiftAmt)
      (Inv (Holds lp instShiftAmt start) (Restores lp instShiftAmt start))
      (Replayed lp instShiftAmt start) (Steady lp instShiftAmt) (AtZero lp instShiftAmt start) := by
  intro st event hinv _ hstep
  obtain ⟨s, live, committed⟩ := st
  obtain ⟨h, hsaved⟩ := hinv
  cases event with
  | undo =>
    cases live with
    | nil => trivial
    | cons youngest rest => exact (undo_iff h hsaved.1).mp hstep
  | correct taken =>
    cases live with
    | nil => trivial
    | cons youngest rest => exact (correct_iff h hsaved.1 taken).mp hstep
  | enter | retire | other => trivial

end

/-- In a steady run the counts are those of the surviving branches in every state
just when every squash and every correction finds a count that is 0. -/
theorem counting_exact_iff {lp : Params} {instShiftAmt : Nat} (hspec : lp.useSpeculation = true)
    (start : State) {events : List (Event Branch Bool Empty)}
    (hsteady : Legal (machine lp instShiftAmt) (Steady lp instShiftAmt) start events) :
    (∀ seen, seen <+: events →
        Replayed lp instShiftAmt start (run (machine lp instShiftAmt) start seen)) ↔
      Legal (machine lp instShiftAmt) (AtZero lp instShiftAmt start) start events :=
  (machine_exact hspec).run_good_iff (fun hinv idx => congrArg (fun x => x.2.2) (hinv.reflects idx))
    machine_strict (fun _ => rfl) hsteady

def speculative : Params := { Params.defaults with useSpeculation := true }

def takenLoops : State := { ltable := fun _ => { dir := true } }

def leaving : List (Event Branch Bool Empty) :=
  [.enter ⟨0x40, true, true, false, 0, 0⟩, .correct false,
    .enter ⟨0x40, true, true, false, 0, 0⟩, .undo]

theorem counting_exact_iff_leaving :
    Legal (machine speculative 2) (AtZero speculative 2 takenLoops) takenLoops leaving ∧
      Replayed speculative 2 takenLoops (run (machine speculative 2) takenLoops leaving) := by
  have hsteady : Legal (machine speculative 2) (Steady speculative 2) takenLoops leaving :=
    ⟨⟨by decide, by decide⟩, trivial, ⟨by decide, by decide⟩, trivial, trivial⟩
  exact ⟨by decide,
    (counting_exact_iff rfl takenLoops hsteady).mpr (by decide) _ List.prefix_rfl⟩

def twoIterations : List (Event Branch Bool Empty) :=
  [.enter ⟨0x40, true, true, false, 0, 0⟩, .enter ⟨0x40, true, true, false, 0, 0⟩, .undo]

/-- The squash forgets the first iteration. -/
theorem twoIterations_not_replayed :
    Legal (machine speculative 2) (Steady speculative 2) takenLoops twoIterations ∧
      ¬ Replayed speculative 2 takenLoops (run (machine speculative 2) takenLoops twoIterations) := by
  refine ⟨⟨⟨by decide, by decide⟩, ⟨by decide, by decide⟩, trivial, trivial⟩, ?_⟩
  intro h
  exact absurd (h 64) (by decide)

section

variable {p : Ltage.Params} {lp : Params} (hloop : p.loopPredictor = some lp) (s : Ltage.State)
  (tid : ThreadID)

include hloop

/-! The calls of `LTAGE` for conditional branches are the steps of `machine`. -/

theorem lookup_loop (pc : Addr) :
    ∃ prev_pred_taken, ∀ taken,
      ((Ltage.lookup p s tid pc).2.1.loop, (Ltage.lookup p s tid pc).2.2.loop) =
        (machine lp p.instShiftAmt).enter s.loop { pc, prev_pred_taken, taken } := by
  unfold Ltage.lookup Ltage.predict
  rw [hloop]
  exact ⟨_, fun _ => rfl⟩

variable {bi : Ltage.Record}

theorem correct_loop (hspec : p.tage.speculativeHistUpdate = true) (pc : Addr) (taken : Bool)
    (hcond : bi.tage.condBranch = true) (target : Addr) (draws : Ltage.Draws) (b : Branch) :
    ((Ltage.update p s tid pc taken (some bi) true target draws).1.loop,
        (Ltage.update p s tid pc taken (some bi) true target draws).2.map Ltage.Record.loop) =
      Prod.map id some ((machine lp p.instShiftAmt).correct s.loop b bi.loop taken) := by
  have hkept : (Ltage.shiftHistory p s tid bi.tage.branchPC true taken target bi).2.tage.condBranch =
      true := (TageRecords.updateHistories_identity ..).2.trans hcond
  simp only [Ltage.update, Ltage.correct, hspec, hloop, hkept, if_true]
  rfl

theorem squash_loop (hcond : bi.tage.condBranch = true) (b : Branch) :
    (Ltage.squash p s tid (some bi)).1.loop =
      (machine lp p.instShiftAmt).undo s.loop b bi.loop := by
  simp only [Ltage.squash, hloop, hcond, if_true]
  rfl

theorem commit_loop (pc : Addr) (taken : Bool) (hcond : bi.tage.condBranch = true) (target : Addr)
    (draws : Ltage.Draws) (prev_pred_taken : Bool) :
    (Ltage.update p s tid pc taken (some bi) false target draws).1.loop =
      (machine lp p.instShiftAmt).retire s.loop
        ⟨pc, prev_pred_taken, taken, bi.tage.tagePred, draws.loopChoice, draws.loopWay⟩ bi.loop := by
  simp only [Ltage.update, Ltage.train, hloop, hcond, if_true]
  rfl

end

end Gem5Core.Pred.LoopCounting
