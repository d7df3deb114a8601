import Gem5Core.Pred.Ltage
import Gem5Core.Pred.TageRecords
import Gem5Core.Pred.TrainingFrame

/-! Which entries the commit-time update of a conditional branch writes in `TAGE` and `LTAGE`,
whatever is predicted, made as a placeholder, corrected, squashed and committed on any threads. -/
namespace Gem5Core.Pred.PlaceholderTraining
open Branch TageBase TageTables TageInvariant Ltage TageRecords TrainingFrame
open LoopPredictor hiding allocate

variable (p : Ltage.Params)

inductive Origin where
  | predicted
  | placeholder
deriving DecidableEq

/-- `direction` is the one it is currently held to take, `seen` the history of its thread from which
its indices are computed. -/
structure InFlight where
  tid : ThreadID
  pc : Addr
  origin : Origin
  record : Record
  direction : Bool
  seen : ThreadHistory

structure System where
  ltage : Ltage.State
  live : List InFlight := []

inductive Event where
  | branch (tid : ThreadID) (pc : Addr) (uncond taken : Bool) (target : Addr)
  | placeholder (tid : ThreadID) (pc : Addr) (uncond : Bool)
  | correct (k : Nat) (taken : Bool) (target : Addr)
  | squash (k : Nat)
  | commit (k : Nat) (target : Addr) (draws : Draws)

def newBranch (s : Ltage.State) (tid : ThreadID) (pc : Addr) (uncond taken : Bool)
    (target : Addr) : Ltage.State × Option Record :=
  if uncond then updateHistories p s tid pc true taken target none
  else
    let (_, s, record) := lookup p s tid pc
    updateHistories p s tid pc false taken target (some record)

/-- The corrected branch. A record without indices gets them now, from the
history that was restored to this point. -/
def InFlight.corrected (b : InFlight) (record : Record) (taken : Bool) (t : ThreadHistory) :
    InFlight :=
  { b with record, direction := taken, seen := if b.record.tage.valid then b.seen else t }

/-- A placeholder stands for a branch that is assumed not taken; it does not
touch the histories until it is corrected. -/
def step (st : System) : Event → System
  | .branch tid pc uncond taken target =>
      match newBranch p st.ltage tid pc uncond taken target with
      | (ltage, some record) =>
          { ltage
            live := { tid, pc, origin := .predicted, record, direction := taken,
                      seen := st.ltage.history tid } :: st.live }
      | (ltage, none) => { st with ltage }
  | .placeholder tid pc uncond =>
      { st with
        live := { tid, pc, origin := .placeholder, record := branchPlaceholder pc uncond,
                  direction := false, seen := st.ltage.history tid } :: st.live }
  | .correct k taken target =>
      match st.live[k]? with
      | none => st
      | some b =>
          let (ltage, record) := correct p st.ltage b.tid taken target b.record
          { ltage, live := st.live.set k (b.corrected record taken (st.ltage.history b.tid)) }
  | .squash k =>
      match st.live[k]? with
      | none => st
      | some b =>
          { ltage := (squash p st.ltage b.tid (some b.record)).1, live := st.live.eraseIdx k }
  | .commit k target draws =>
      match st.live[k]? with
      | none => st
      | some b =>
          { ltage := (update p st.ltage b.tid b.pc b.direction (some b.record) false target
              draws).1
            live := st.live.eraseIdx k }

def run (events : List Event) : System := events.foldl (step p) { ltage := .init p }

/-- The record with what its arrays hold: the constructor does not initialise
them. -/
def holding (storage : Nat → BitVec 32 × BitVec 16) (record : Record) : Record :=
  if record.tage.valid then record
  else
    { record with
      tage :=
        { record.tage with
          tableIndices := fun i => (storage i).1
          tableTags := fun i => (storage i).2 } }

/-- What the update of `b` may change, apart from global scalars: the bimodal entry of its pc, the
tagged entries at the indices of its pc and history, and its set of the loop table. -/
structure Frame (b : InFlight) (s s' : Ltage.State) : Prop where
  tables : TablesFrame p.tage (bindex p.tage b.pc).toNat
    (fun bank => (gindex p.tage.toParams b.seen b.pc bank).toNat) (aged p.tage s.tables) s'.tables
  loop : ∀ lp ∈ p.loopPredictor, ∀ i ∉ loopSet lp p.instShiftAmt b.pc,
    s'.loop.ltable i = s.loop.ltable i
  history : ∀ tid, p.tage.speculativeHistUpdate = true ∨ tid ≠ b.tid →
    { s'.history tid with nonSpecPathHist := (s.history tid).nonSpecPathHist } = s.history tid

/-- The commit-time update of `b` keeps to its frame, whatever it meets. -/
def TrainsInFrame (b : InFlight) : Prop :=
  ∀ s storage target draws,
    Frame p b s
      (update p s b.tid b.pc b.direction (some (holding storage b.record)) false target draws).1

/-- A placeholder is harmless if the zeros in its record are right for its pc
and it never needs the indices that are missing. -/
def Harmless (b : InFlight) : Prop :=
  b.origin = .predicted ∨
    bindex p.tage b.pc = 0 ∧
      (∀ lp ∈ p.loopPredictor,
        lp.useSpeculation = true ∨ 0 ∈ loopSet lp p.instShiftAmt b.pc) ∧
      (p.tage.speculativeHistUpdate = true ∨ p.tage.nHistoryTables = 0 ∨ b.direction = false)

section

structure PredictedOk (b : InFlight) : Prop where
  valid : b.record.tage.valid = true
  bimodal : b.record.tage.bimodalIndex = bindex p.tage b.pc
  hit : 0 < b.record.tage.hitBank → b.record.tage.hitBank ≤ p.tage.nHistoryTables ∧
    b.record.tage.hitBankIndex = gindex p.tage.toParams b.seen b.pc b.record.tage.hitBank
  alt : 0 < b.record.tage.altBank → b.record.tage.altBank ≤ p.tage.nHistoryTables ∧
    b.record.tage.altBankIndex = gindex p.tage.toParams b.seen b.pc b.record.tage.altBank
  indices : ∀ i, 1 ≤ i → i ≤ p.tage.nHistoryTables →
    b.record.tage.tableIndices i = gindex p.tage.toParams b.seen b.pc i
  loop : ∀ lp ∈ p.loopPredictor, Located lp p.instShiftAmt b.pc b.record.loop

/-- What a placeholder holds: zeros, and its indices once it was corrected. -/
structure PlaceholderOk (b : InFlight) : Prop where
  hitBank : b.record.tage.hitBank = 0
  altBank : b.record.tage.altBank = 0
  tagePred : b.record.tage.tagePred = false
  bimodal : b.record.tage.bimodalIndex = 0
  loop : b.record.loop = {}
  indices : b.record.tage.valid = true → ∀ i, 1 ≤ i → i ≤ p.tage.nHistoryTables →
    b.record.tage.tableIndices i = gindex p.tage.toParams b.seen b.pc i
  unmodified : b.record.tage.valid = false → b.record.tage.modified = false
  direction : p.tage.speculativeHistUpdate = true → b.record.tage.valid = false →
    b.direction = false
  unfilled : p.tage.speculativeHistUpdate = false → b.record.tage.valid = false

structure Tracked (b : InFlight) : Prop where
  branchPC : b.record.tage.branchPC = b.pc
  predicted : b.record.tage.condBranch = true → b.origin = .predicted → PredictedOk p b
  placeholder : b.record.tage.condBranch = true → b.origin = .placeholder → PlaceholderOk p b

variable {p}

theorem tagePredict_indices (tp : TableParams) (tables : Tables) (t : ThreadHistory) (pc : Addr)
    (bi : PredInfo) :
    let bi' := (tagePredict tp tables t pc true bi).2
    bi'.valid = true ∧ bi'.bimodalIndex = bindex tp pc ∧ bi'.condBranch = bi.condBranch ∧
      bi'.branchPC = bi.branchPC ∧
      ∀ i, 1 ≤ i → i ≤ tp.nHistoryTables → bi'.tableIndices i = gindex tp.toParams t pc i := by
  dsimp only
  rw [tagePredict_cond]
  obtain ⟨-, -, -, -, hbimodal, hinfo⟩ :=
    choosePrediction_frame tables (findBanks tp tables (indexed tp t pc bi))
  rw [hbimodal, hinfo]
  exact ⟨rfl, rfl, rfl, rfl, fun i hpos hle => indexed_index tp t pc bi hpos hle⟩

theorem loopPredict_located (lp : LoopPredictor.Params) (s : LoopPredictor.State) (pc : Addr)
    (bi : LoopPredictor.BranchInfo) (prev : Bool) (instShiftAmt : Nat) :
    Located lp instShiftAmt pc
      (loopPredict lp s pc true bi prev instShiftAmt).2.2 := by
  have h : Located lp instShiftAmt pc
      (getLoop lp s pc bi lp.useSpeculation instShiftAmt).2 :=
    getLoop_located s bi lp.useSpeculation
  unfold loopPredict
  rw [if_neg (by decide)]
  dsimp only
  split <;> exact { h with }

variable (s : Ltage.State) (tid : ThreadID)

theorem predict_record (pc : Addr) (cond_branch : Bool) :
    ∃ provider, (predict p s tid pc cond_branch).2.2.tage =
      { (tagePredict p.tage s.tables (s.history tid) pc cond_branch
          (newPredInfo pc cond_branch)).2 with provider } := by
  unfold predict
  dsimp only
  split
  · exact ⟨_, rfl⟩
  · split <;> exact ⟨_, rfl⟩

private theorem lookup_located (pc : Addr) :
    ∀ lp ∈ p.loopPredictor, Located lp p.instShiftAmt pc (lookup p s tid pc).2.2.loop := by
  intro lp hlp
  unfold lookup predict
  rw [Option.mem_def.mp hlp]
  have h := loopPredict_located lp s.loop pc {}
    (tagePredict p.tage s.tables (s.history tid) pc true (newPredInfo pc true)).1 p.instShiftAmt
  exact { h with }

private theorem lookup_predictedOk (pc : Addr) (taken : Bool) : PredictedOk p
      { tid, pc, origin := .predicted, record := (lookup p s tid pc).2.2, direction := taken,
        seen := s.history tid } := by
  obtain ⟨provider, hrecord⟩ := predict_record (p := p) s tid pc true
  obtain ⟨hvalid, hbimodal, -, -, hindices⟩ := tagePredict_indices p.tage s.tables (s.history tid)
    pc (newPredInfo pc true)
  have hok := tagePredict_recordOk p.tage s.tables (s.history tid) pc (newPredInfo pc true)
  have hbanks := hok.banks
  have hle := hok.hitBank_le
  refine ⟨?_, ?_, ?_, ?_, ?_, lookup_located s tid pc⟩ <;>
    simp only [lookup, hrecord]
  · exact hvalid
  · exact hbimodal
  · intro hpos
    exact ⟨hle, (hok.hitIndex hpos).trans (hindices _ hpos hle)⟩
  · intro hpos
    exact ⟨by omega, (hok.altIndex hpos).trans (hindices _ hpos (by omega))⟩
  · exact hindices

variable {b : InFlight}

theorem PredictedOk.sameIndices (h : PredictedOk p b) {info : TageBase.BranchInfo}
    (hsame : SameIndices b.record.tage.toBranchInfo info) (direction : Bool) :
    PredictedOk p { b with record.tage.toBranchInfo := info, direction } :=
  { h with
    valid := hsame.valid.trans h.valid
    indices := fun i hpos hle => (congrFun hsame.tableIndices i).trans (h.indices i hpos hle) }

theorem newBranch_tracked (pc : Addr) (uncond taken : Bool) (target : Addr) {record : Record}
    (h : (newBranch p s tid pc uncond taken target).2 = some record) :
    Tracked p { tid, pc, origin := .predicted, record, direction := taken,
                seen := s.history tid } := by
  cases uncond with
  | false =>
    obtain ⟨provider, hrecord⟩ := predict_record (p := p) s tid pc true
    obtain ⟨-, -, -, hpc, -⟩ := tagePredict_indices p.tage s.tables (s.history tid) pc
      (newPredInfo pc true)
    have hok := lookup_predictedOk (p := p) s tid pc taken
    have hsame := updateHistories_sameIndices (q := p.tage.toParams)
      ((lookup p s tid pc).2.1.history tid) pc true taken target (.inl hok.valid)
    obtain rfl := Option.some.inj h
    refine ⟨?_, fun _ _ => hok.sameIndices hsame taken, by simp⟩
    refine hsame.branchPC.trans ?_
    unfold lookup
    rw [hrecord]
    exact hpc
  | true =>
    have hinfo : (predict p s tid pc false).2.2.tage.toBranchInfo = makeBranchInfo pc false := by
      obtain ⟨provider, hrecord⟩ := predict_record (p := p) s tid pc false
      rw [hrecord]
      rfl
    have hsame : SameIndices (predict p s tid pc false).2.2.tage.toBranchInfo
        (TageBase.updateHistories p.tage.toParams (s.history tid) pc true taken target
          (predict p s tid pc false).2.2.tage.toBranchInfo).2 :=
      updateHistories_sameIndices _ _ _ _ _ (.inr (by rw [hinfo]; rfl))
    obtain rfl := Option.some.inj h
    have hpc := hsame.branchPC.trans (congrArg TageBase.BranchInfo.branchPC hinfo)
    have hcond := hsame.condBranch.trans (congrArg TageBase.BranchInfo.condBranch hinfo)
    exact ⟨hpc, fun htrue => absurd (hcond.symm.trans htrue) Bool.false_ne_true, by simp⟩

private theorem placeholder_tracked (pc : Addr) (uncond : Bool) :
    Tracked p { tid, pc, origin := .placeholder, record := branchPlaceholder pc uncond,
                direction := false, seen := s.history tid } where
  branchPC := rfl
  predicted := by simp
  placeholder := by
    intro _ _
    constructor <;> simp [branchPlaceholder, newPredInfo, makeBranchInfo]

theorem correct_record (taken : Bool) (target : Addr) (record : Record) :
    (correct p s tid taken target record).2 =
      if p.tage.speculativeHistUpdate then
        { record with
          tage.toBranchInfo := (TageBase.updateHistories p.tage.toParams (s.history tid)
            record.tage.branchPC true taken target record.tage.toBranchInfo).2 }
      else record := by
  unfold correct
  split
  · dsimp only
    split <;> rfl
  · rfl

theorem PredictedOk.corrected (h : PredictedOk p b) (s : Ltage.State) (taken : Bool) (target : Addr)
    (t : ThreadHistory) :
    PredictedOk p (b.corrected (correct p s b.tid taken target b.record).2 taken t) := by
  have hsame := updateHistories_sameIndices (q := p.tage.toParams) (s.history b.tid)
    b.record.tage.branchPC true taken target (.inl h.valid)
  unfold InFlight.corrected
  rw [correct_record, if_pos h.valid]
  split
  · exact h.sameIndices hsame taken
  · exact { h with }

theorem PlaceholderOk.filled (h : PlaceholderOk p b) (hspec : p.tage.speculativeHistUpdate = true)
    {info : TageBase.BranchInfo} (hvalid : info.valid = true) {seen : ThreadHistory}
    (hindices : ∀ i, 1 ≤ i → i ≤ p.tage.nHistoryTables →
      info.tableIndices i = gindex p.tage.toParams seen b.pc i) (direction : Bool) :
    PlaceholderOk p { b with record.tage.toBranchInfo := info, direction, seen } :=
  { h with
    indices := fun _ => hindices
    unmodified := fun hfalse => absurd (hvalid.symm.trans hfalse) (by decide)
    direction := fun _ hfalse => absurd (hvalid.symm.trans hfalse) (by decide)
    unfilled := fun hfalse => absurd (hspec.symm.trans hfalse) (by decide) }

theorem PlaceholderOk.corrected (h : PlaceholderOk p b) (hcond : b.record.tage.condBranch = true)
    (hpc : b.record.tage.branchPC = b.pc) (s : Ltage.State) (taken : Bool) (target : Addr) :
    PlaceholderOk p (b.corrected (correct p s b.tid taken target b.record).2 taken
      (s.history b.tid)) := by
  unfold InFlight.corrected
  rw [correct_record]
  cases hspec : p.tage.speculativeHistUpdate with
  | false =>
    have hvalid := h.unfilled hspec
    refine ⟨h.hitBank, h.altBank, h.tagePred, h.bimodal, h.loop, ?_, h.unmodified, ?_, h.unfilled⟩
    · intro htrue
      exact absurd (hvalid.symm.trans htrue) (by decide)
    · intro htrue
      exact absurd (hspec.symm.trans htrue) (by decide)
  | true =>
    cases hvalid : b.record.tage.valid with
    | false =>
      -- the record gets its indices, from the history as it is now
      have hsame := updateHistories_fills (s.history b.tid) b.record.tage.branchPC taken target
        hspec hvalid hcond (h.unmodified hvalid)
      refine h.filled hspec hsame.valid ?_ taken
      intro i hpos hle
      refine (congrFun hsame.tableIndices i).trans ?_
      simp [calculateIndicesAndTags, forTables, hpos, hle, hpc]
    | true =>
      have hsame := updateHistories_sameIndices (q := p.tage.toParams) (s.history b.tid)
        b.record.tage.branchPC true taken target (.inl hvalid)
      refine h.filled hspec (hsame.valid.trans hvalid) ?_ taken
      intro i hpos hle
      exact (congrFun hsame.tableIndices i).trans (h.indices hvalid i hpos hle)

theorem Tracked.corrected (h : Tracked p b) (s : Ltage.State) (taken : Bool) (target : Addr) :
    Tracked p (b.corrected (correct p s b.tid taken target b.record).2 taken
      (s.history b.tid)) := by
  have hkept : (correct p s b.tid taken target b.record).2.tage.branchPC = b.record.tage.branchPC ∧
      (correct p s b.tid taken target b.record).2.tage.condBranch = b.record.tage.condBranch := by
    rw [correct_record]
    split
    · exact updateHistories_identity _ _ _ _ _ _
    · exact ⟨rfl, rfl⟩
  refine ⟨hkept.1.trans h.branchPC, ?_, ?_⟩
  · intro hcond horigin
    exact (h.predicted (hkept.2.symm.trans hcond) horigin).corrected s taken target _
  · intro hcond horigin
    have hcond' := hkept.2.symm.trans hcond
    exact (h.placeholder hcond' horigin).corrected hcond' h.branchPC s taken target

theorem step_tracked {st : System} (h : ∀ b ∈ st.live, Tracked p b) (event : Event) :
    ∀ b ∈ (step p st event).live, Tracked p b := by
  intro b hb
  cases event with
  | branch tid pc uncond taken target =>
    simp only [step] at hb
    split at hb
    · rename_i ltage record hnew
      obtain rfl | hold := List.mem_cons.mp hb
      · exact newBranch_tracked st.ltage tid pc uncond taken target (by rw [hnew])
      · exact h b hold
    · exact h b hb
  | placeholder tid pc uncond =>
    obtain rfl | hold := List.mem_cons.mp hb
    · exact placeholder_tracked st.ltage tid pc uncond
    · exact h b hold
  | correct k taken target =>
    simp only [step] at hb
    split at hb
    · exact h b hb
    · rename_i old hold
      obtain hmem | rfl := List.mem_or_eq_of_mem_set hb
      · exact h b hmem
      · exact (h old (List.mem_of_getElem? hold)).corrected st.ltage taken target
  | squash k =>
    simp only [step] at hb
    split at hb
    · exact h b hb
    · exact h b (List.mem_of_mem_eraseIdx hb)
  | commit k target draws =>
    simp only [step] at hb
    split at hb
    · exact h b hb
    · exact h b (List.mem_of_mem_eraseIdx hb)

theorem run_tracked (events : List Event) : ∀ b ∈ (run p events).live, Tracked p b := by
  induction events using List.reverseRecOn with
  | nil => simp [run]
  | append_singleton events event ih => simpa [run] using step_tracked ih event

end

variable (storage : Nat → BitVec 32 × BitVec 16) {lp : LoopPredictor.Params}

section

variable {p}

variable {record : Record}

theorem holding_tage (h : record.tage.valid = true) :
    holding storage record = record := if_pos h

private theorem holding_unfilled (h : record.tage.valid = false) :
    (holding storage record).tage.tableIndices = (fun i => (storage i).1) ∧
      (holding storage record).tage.tableTags = fun i => (storage i).2 := by
  unfold holding
  rw [h]
  exact ⟨rfl, rfl⟩

theorem holding_condBranch (record : Record) :
    (holding storage record).tage.condBranch = record.tage.condBranch := by
  unfold holding
  split <;> rfl

theorem update_tables (hcond : record.tage.condBranch = true) (s : Ltage.State) (tid : ThreadID)
    (pc : Addr) (taken : Bool) (target : Addr) (draws : Draws) :
    (update p s tid pc taken (some record) false target draws).1.tables =
      condBranchUpdate p.tage s.tables taken record.tage (draws.nrand &&& 3) := by
  change (train p s pc taken record draws).tables = _
  unfold train
  rw [if_pos hcond]

theorem update_loop (hcond : record.tage.condBranch = true) (hlp : lp ∈ p.loopPredictor)
    (s : Ltage.State) (tid : ThreadID) (pc : Addr) (taken : Bool) (target : Addr) (draws : Draws) :
    (update p s tid pc taken (some record) false target draws).1.loop =
      LoopPredictor.condBranchUpdate lp s.loop pc taken record.tage.tagePred record.loop
        p.instShiftAmt draws.loopChoice draws.loopWay := by
  change (train p s pc taken record draws).loop = _
  unfold train
  rw [if_pos hcond, Option.mem_def.mp hlp]

variable {b : InFlight}

theorem frame_of_parts {s : Ltage.State} {target : Addr} {draws : Draws}
    (hcond : record.tage.condBranch = true) (htables : Trains p.tage (bindex p.tage b.pc).toNat
      (fun bank => (gindex p.tage.toParams b.seen b.pc bank).toNat) b.direction record.tage)
    (hloop : ∀ lp ∈ p.loopPredictor, ∀ i ∉ loopSet lp p.instShiftAmt b.pc,
      (LoopPredictor.condBranchUpdate lp s.loop b.pc b.direction record.tage.tagePred record.loop
        p.instShiftAmt draws.loopChoice draws.loopWay).ltable i = s.loop.ltable i) : Frame p b s
      (update p s b.tid b.pc b.direction (some record) false target draws).1 := by
  constructor
  case tables =>
    rw [update_tables hcond]
    exact .condBranchUpdate _ htables
  case loop =>
    intro lp hlp i hi
    rw [update_loop hcond hlp]
    exact hloop lp hlp i hi
  case history =>
    have hkept : (train p s b.pc b.direction record draws).history = s.history := by
      unfold train
      split <;> rfl
    intro tid htid
    simp only [update, shiftHistory, Ltage.State.setHistory, hkept]
    by_cases hself : tid = b.tid
    · subst hself
      have hspec := htid.resolve_right (by simp)
      unfold TageBase.updateHistories
      rw [hspec]
      simp
    · simp [Function.update_of_ne hself]

theorem PredictedOk.trains (h : PredictedOk p b) : Trains p.tage (bindex p.tage b.pc).toNat
      (fun bank => (gindex p.tage.toParams b.seen b.pc bank).toNat) b.direction b.record.tage where
  bimodal := congrArg BitVec.toNat h.bimodal
  hit := fun hpos => ⟨(h.hit hpos).1, congrArg BitVec.toNat (h.hit hpos).2⟩
  alt := fun hpos => ⟨(h.alt hpos).1, congrArg BitVec.toNat (h.alt hpos).2⟩
  alloc := fun _ i hpos hle => congrArg BitVec.toNat (h.indices i hpos hle)

theorem PredictedOk.trainsInFrame (h : PredictedOk p b) (hcond : b.record.tage.condBranch = true) :
    TrainsInFrame p b := by
  intro s storage target draws
  rw [holding_tage storage h.valid]
  exact frame_of_parts hcond h.trains fun lp hlp i hi =>
    condBranchUpdate_other b.direction _ (.inr (h.loop lp hlp)) _ _ hi

theorem condBranchUpdate_unseen (h : lp.useSpeculation = false) (s : LoopPredictor.State)
    (pc : Addr) (taken tage_pred : Bool) (instShiftAmt : Nat) (choice nrand : BitVec 32) :
    LoopPredictor.condBranchUpdate lp s pc taken tage_pred {} instShiftAmt choice nrand =
      s.modify 0 (trainHit lp taken {} tage_pred) := by
  have hinfo : commitInfo lp s pc {} instShiftAmt = {} := by
    unfold commitInfo
    rw [h]
    rfl
  have hindex : hitIndex lp {} = 0 := by
    unfold hitIndex finallindex
    cases lp.useHashing <;> simp
  unfold LoopPredictor.condBranchUpdate
  rw [hinfo]
  unfold loopUpdate
  rw [if_pos (by decide), hindex]
  rfl

theorem PlaceholderOk.held (h : PlaceholderOk p b) (storage : Nat → BitVec 32 × BitVec 16) :
    (holding storage b.record).tage.hitBank = 0 ∧ (holding storage b.record).tage.altBank = 0 ∧
      (holding storage b.record).tage.tagePred = false ∧
      (holding storage b.record).tage.bimodalIndex = 0 ∧ (holding storage b.record).loop = {} := by
  unfold holding
  split <;> exact ⟨h.hitBank, h.altBank, h.tagePred, h.bimodal, h.loop⟩

theorem PlaceholderOk.trainsInFrame (h : PlaceholderOk p b)
    (hcond : b.record.tage.condBranch = true) (hbindex : bindex p.tage b.pc = 0)
    (hloop : ∀ lp ∈ p.loopPredictor, lp.useSpeculation = true ∨ 0 ∈ loopSet lp p.instShiftAmt b.pc)
    (hspec : p.tage.speculativeHistUpdate = true ∨ p.tage.nHistoryTables = 0 ∨
      b.direction = false) : TrainsInFrame p b := by
  intro s storage target draws
  obtain ⟨hhit, halt, hpred, hbimodal, hinfo⟩ := h.held storage
  have htables : Trains p.tage (bindex p.tage b.pc).toNat
      (fun bank => (gindex p.tage.toParams b.seen b.pc bank).toNat) b.direction
      (holding storage b.record).tage := by
    refine ⟨by rw [hbimodal, hbindex], by omega, by omega, ?_⟩
    intro hwants i hpos hle
    cases hvalid : b.record.tage.valid with
    | true =>
      rw [holding_tage storage hvalid]
      exact congrArg BitVec.toNat (h.indices hvalid i hpos hle)
    | false =>
      -- without indices the branch is held to be not taken, as its record says
      have hdir : b.direction = false := by
        obtain htrue | hnone | hfalse := hspec
        · exact h.direction htrue hvalid
        · omega
        · exact hfalse
      unfold wantsAlloc at hwants
      rw [hpred, hdir] at hwants
      exact absurd hwants (by simp)
  refine frame_of_parts ((holding_condBranch storage b.record).trans hcond) htables ?_
  intro lp hlp i hi
  rw [hinfo]
  cases huse : lp.useSpeculation with
  | true => exact condBranchUpdate_other b.direction _ (.inl huse) _ _ hi
  | false =>
    have hzero := (hloop lp hlp).resolve_left (by simp [huse])
    rw [condBranchUpdate_unseen huse]
    apply modify_ltable_other
    rintro rfl
    exact hi hzero

end

section

variable {p} {tp : TableParams}

def beforeTraining (tp : TableParams) (tables : Tables) (taken : Bool) (bi : PredInfo)
    (nrand : BitVec 32) : Tables :=
  handleAllocAndUReset tp (trainUseAlt tp tables taken bi) (wantsAlloc tp taken bi) taken bi nrand

variable {taken : Bool} {bi : PredInfo} {tables : Tables}

theorem condBranchUpdate_noHit {nrand : BitVec 32} (h : bi.hitBank = 0) :
    condBranchUpdate tp tables taken bi nrand =
      baseUpdate tp (beforeTraining tp tables taken bi nrand) taken bi :=
  if_neg (by omega)

private theorem beforeTraining_frame (base : Nat) (tables : Tables) (taken : Bool) (bi : PredInfo)
    (nrand : BitVec 32) :
    TablesFrame tp base (fun i => (bi.tableIndices i).toNat) (aged tp tables)
      (beforeTraining tp tables taken bi nrand) :=
  .handleAllocAndUReset nrand fun _ _ _ _ => rfl

theorem beforeTraining_base (tp : TableParams) (tables : Tables) (taken : Bool) (bi : PredInfo)
    (nrand : BitVec 32) :
    (beforeTraining tp tables taken bi nrand).btablePrediction = tables.btablePrediction ∧
      (beforeTraining tp tables taken bi nrand).btableHysteresis = tables.btableHysteresis := by
  have haged := handleUReset_base tp { tables with tCounter := tables.tCounter + 1 }
  constructor
  · funext i
    -- the frame holds for any base, so for one that is not `i`
    exact ((beforeTraining_frame (i + 1) tables taken bi nrand).prediction i (by omega)).trans
      (congrFun haged.1 i)
  · funext i
    refine ((beforeTraining_frame ((i + 1) <<< tp.logRatioBiModalHystEntries) tables taken bi
      nrand).hysteresis i ?_).trans (congrFun haged.2.1 i)
    rw [Nat.shiftLeft_shiftRight]
    omega

private theorem baseUpdate_flips (hbimodal : bi.bimodalIndex = 0)
    (hpred : tables.btablePrediction 0 = !taken) (hhyst : tables.btableHysteresis 0 = taken) :
    (baseUpdate tp tables taken bi).btablePrediction 0 = taken := by
  have hzero : bi.bimodalIndex.toNat = 0 := by
    rw [hbimodal]
    rfl
  unfold baseUpdate
  simp only [hzero, Nat.zero_shiftRight, Function.update_self, hpred, hhyst]
  cases taken <;> rfl

private theorem allocLoop_first (n : Nat) (hfree : (entryOf tables bi 1).u = 0) :
    ((allocLoop tp taken bi (List.range' 1 (n + 1)) 0 tables).1.gtable 1
      (bi.tableIndices 1).toNat).tag = bi.tableTags 1 := by
  have hwritten : ((tables.modify tp 1 (bi.tableIndices 1)
      (allocEntry taken (bi.tableTags 1))).gtable 1 (bi.tableIndices 1).toNat).tag =
      bi.tableTags 1 := by
    simp [Tables.modify, allocEntry]
  rw [List.range'_succ]
  unfold allocLoop
  rw [if_pos hfree]
  split
  · exact hwritten
  · refine (congrArg TageEntry.tag ?_).trans hwritten
    by_contra hchanged
    have hmem := (allocLoop_sublist taken _ _ _).subset
      (allocLoop_frame taken _ _ _ _ _ hchanged).1
    rw [List.mem_range'_1] at hmem
    omega

private theorem startBank_zero (h : bi.hitBank = 0) : startBank tp bi 0 = 1 := by
  unfold startBank
  simp [h]

private theorem allocate_first (hhit : bi.hitBank = 0) (hn : 0 < tp.nHistoryTables)
    (hfree : ∀ bank i, (tables.gtable bank i).u = 0) :
    ((allocate tp tables taken bi 0).1.gtable 1 (bi.tableIndices 1).toNat).tag =
      bi.tableTags 1 := by
  have hread : ∀ bank i, ((minUseful tp tables bi).1.gtable bank i).u = 0 := by
    intro bank i
    have hsearch : TablesFrame tp 0 (fun _ => i + 1) tables (minUseful tp tables bi).1 :=
      .minUseful bi
    rw [hsearch.tagged bank i (by omega)]
    exact hfree bank i
  have hbanks : tp.nHistoryTables + 1 - 1 = (tp.nHistoryTables - 1) + 1 := by omega
  unfold allocate
  dsimp only
  rw [startBank_zero hhit, hbanks]
  split
  · apply allocLoop_first
    simp [entryOf, Tables.modify]
  · apply allocLoop_first
    exact hread _ _

theorem aged_tag (tp : TableParams) (tables : Tables) (bank i : Nat) :
    ((aged tp tables).gtable bank i).tag = (tables.gtable bank i).tag := by
  unfold aged handleUReset
  split
  · dsimp only
    split <;> rfl
  · rfl

private theorem beforeTraining_alloc {nrand : BitVec 32} (h : wantsAlloc tp taken bi = true) :
    beforeTraining tp tables taken bi nrand =
      aged tp (allocate tp (trainUseAlt tp tables taken bi) taken bi nrand).1 := by
  unfold beforeTraining handleAllocAndUReset
  rw [if_pos h]
  rfl

private theorem condBranchUpdate_first (hhit : bi.hitBank = 0) (hn : 0 < tp.nHistoryTables)
    (hwants : wantsAlloc tp taken bi = true) (hfree : ∀ bank i, (tables.gtable bank i).u = 0) :
    ((condBranchUpdate tp tables taken bi 0).gtable 1 (bi.tableIndices 1).toNat).tag =
      bi.tableTags 1 := by
  have htrained : ∀ bank i, ((trainUseAlt tp tables taken bi).gtable bank i).u = 0 := by
    intro bank i
    unfold trainUseAlt
    split <;> exact hfree bank i
  rw [condBranchUpdate_noHit hhit, beforeTraining_alloc hwants, baseUpdate, aged_tag]
  exact allocate_first hhit hn htrained

variable {b : InFlight}

theorem PlaceholderOk.bindex_zero (h : PlaceholderOk p b) (hcond : b.record.tage.condBranch = true)
    (hframe : TrainsInFrame p b) : bindex p.tage b.pc = 0 := by
  by_contra hne
  let tables : Tables :=
    { btablePrediction := fun _ => !b.direction, btableHysteresis := fun _ => b.direction,
      tCounter := 0 }
  let s : Ltage.State := { Ltage.State.init p with tables }
  let storage : Nat → BitVec 32 × BitVec 16 := fun _ => (0, 0)
  obtain ⟨hhit, -, -, hbimodal, -⟩ := h.held storage
  have hzero : 0 ≠ (bindex p.tage b.pc).toNat := fun hzero =>
    hne (BitVec.eq_of_toNat_eq hzero.symm)
  have hkept := (hframe s storage 0 ⟨0, 0, 0⟩).tables.prediction 0 hzero
  obtain ⟨hpred, hhyst⟩ := beforeTraining_base p.tage tables b.direction
    (holding storage b.record).tage ((0 : BitVec 32) &&& 3)
  rw [update_tables ((holding_condBranch storage b.record).trans hcond),
    condBranchUpdate_noHit hhit,
    baseUpdate_flips hbimodal (congrFun hpred 0) (congrFun hhyst 0)] at hkept
  have hbefore : (aged p.tage tables).btablePrediction 0 = !b.direction :=
    congrFun (handleUReset_base p.tage { tables with tCounter := tables.tCounter + 1 }).1 0
  rw [hbefore] at hkept
  exact absurd hkept (by cases b.direction <;> decide)

private theorem trainHit_wraps (lp : LoopPredictor.Params) (taken tage_pred : Bool) :
    (trainHit lp taken {} tage_pred { currentIter := 0xFFFF }).currentIter = 0 := by
  have hcount : countIter lp { currentIter := 0xFFFF } = {} := by
    have hwrap : ((0xFFFF : BitVec 16) + 1) &&& loopNumIterMask lp = 0 :=
      BitVec.zero_and
    simp only [countIter, hwrap]
    rfl
  change (if taken != bodyDir lp (countIter lp
      { currentIter := 0xFFFF })
    then endLoop lp taken (countIter lp { currentIter := 0xFFFF })
    else countIter lp { currentIter := 0xFFFF }).currentIter = 0
  rw [hcount]
  split <;> rfl

theorem PlaceholderOk.loop_zero (h : PlaceholderOk p b) (hcond : b.record.tage.condBranch = true)
    (hframe : TrainsInFrame p b) (hlp : lp ∈ p.loopPredictor) :
    lp.useSpeculation = true ∨ 0 ∈ loopSet lp p.instShiftAmt b.pc := by
  by_contra! hboth
  obtain ⟨huse, hout⟩ := hboth
  let s : Ltage.State :=
    { Ltage.State.init p with loop := { ltable := fun _ => { currentIter := 0xFFFF } } }
  let storage : Nat → BitVec 32 × BitVec 16 := fun _ => (0, 0)
  obtain ⟨-, -, -, -, hinfo⟩ := h.held storage
  have hkept := (hframe s storage 0 ⟨0, 0, 0⟩).loop lp hlp 0 hout
  rw [update_loop ((holding_condBranch storage b.record).trans hcond) hlp, hinfo,
    condBranchUpdate_unseen (Bool.eq_false_iff.mpr huse)] at hkept
  have hwraps := trainHit_wraps lp b.direction (holding storage b.record).tage.tagePred
  have hcount : (0 : BitVec 16) = 0xFFFF :=
    hwraps.symm.trans (congrArg LoopEntry.currentIter hkept)
  exact absurd hcount (by decide)

theorem PlaceholderOk.spec_or (h : PlaceholderOk p b) (hcond : b.record.tage.condBranch = true)
    (hframe : TrainsInFrame p b) :
    p.tage.speculativeHistUpdate = true ∨ p.tage.nHistoryTables = 0 ∨ b.direction = false := by
  by_contra! hall
  obtain ⟨hspec, hn, hdir⟩ := hall
  have hvalid := h.unfilled (Bool.eq_false_iff.mpr hspec)
  let storage : Nat → BitVec 32 × BitVec 16 := fun bank =>
    (gindex p.tage.toParams b.seen b.pc bank + 1, 1)
  let s : Ltage.State := { Ltage.State.init p with tables := { tCounter := 0 } }
  obtain ⟨hhit, -, hpred, -, -⟩ := h.held storage
  obtain ⟨hindices, htags⟩ := holding_unfilled storage hvalid
  have hwants : wantsAlloc p.tage b.direction (holding storage b.record).tage = true := by
    unfold wantsAlloc
    rw [hpred, hhit, Bool.ne_false_iff.mp hdir]
    simpa using Nat.pos_of_ne_zero hn
  have hother : ¬(1 ≤ 1 ∧ 1 ≤ p.tage.nHistoryTables ∧
      (storage 1).1.toNat = (gindex p.tage.toParams b.seen b.pc 1).toNat) := by
    rintro ⟨-, -, hsame⟩
    have hnext := BitVec.eq_of_toNat_eq hsame
    change gindex p.tage.toParams b.seen b.pc 1 + 1 = gindex p.tage.toParams b.seen b.pc 1 at hnext
    bv_omega
  have hkept := (hframe s storage 0 ⟨0, 0, 0⟩).tables.tagged 1 (storage 1).1.toNat hother
  rw [update_tables ((holding_condBranch storage b.record).trans hcond)] at hkept
  have hnew := condBranchUpdate_first hhit (Nat.pos_of_ne_zero hn) hwants
    (show ∀ bank i, (s.tables.gtable bank i).u = 0 from fun _ _ => rfl)
  rw [hindices, htags] at hnew
  have htag : (1 : BitVec 16) = 0 := hnew.symm.trans
    ((congrArg TageEntry.tag hkept).trans (aged_tag p.tage s.tables 1 (storage 1).1.toNat))
  exact absurd htag (by decide)

end

variable {p}

/-- In every run, the update of a conditional branch keeps to its frame exactly
if the branch was predicted or is a harmless placeholder. -/
theorem trainsInFrame_iff_harmless (events : List Event) :
    ∀ b ∈ (run p events).live, b.record.tage.condBranch = true →
      (TrainsInFrame p b ↔ Harmless p b) := by
  intro b hb hcond
  have htracked := run_tracked events b hb
  constructor
  · intro hframe
    cases horigin : b.origin with
    | predicted => exact .inl horigin
    | placeholder =>
      have hok := htracked.placeholder hcond horigin
      exact .inr ⟨hok.bindex_zero hcond hframe, fun lp hlp => hok.loop_zero hcond hframe hlp,
        hok.spec_or hcond hframe⟩
  · rintro (horigin | ⟨hbindex, hloop, hspec⟩)
    · exact (htracked.predicted hcond horigin).trainsInFrame hcond
    · cases horigin : b.origin with
      | predicted => exact (htracked.predicted hcond horigin).trainsInFrame hcond
      | placeholder =>
        exact (htracked.placeholder hcond horigin).trainsInFrame hcond hbindex hloop hspec

/-- A predicted branch keeps to its frame, a placeholder at the same pc does not. -/
theorem trainsInFrame_iff_harmless_example :
    (∃ b ∈ (run .defaults [.branch 0 0x1004 false true 0x2000]).live,
      b.record.tage.condBranch = true ∧ TrainsInFrame .defaults b) ∧
    ∃ b ∈ (run .defaults [.placeholder 0 0x1004 false]).live,
      b.record.tage.condBranch = true ∧ ¬TrainsInFrame .defaults b := by
  constructor
  · refine ⟨_, List.mem_cons_self, rfl, ?_⟩
    exact (trainsInFrame_iff_harmless [.branch 0 0x1004 false true 0x2000] _ List.mem_cons_self
      rfl).mpr (.inl rfl)
  · refine ⟨_, List.mem_cons_self, rfl, fun hframe => ?_⟩
    obtain horigin | ⟨hbindex, -⟩ := (trainsInFrame_iff_harmless [.placeholder 0 0x1004 false] _
      List.mem_cons_self rfl).mp hframe
    · exact absurd horigin (by decide)
    · exact absurd hbindex (by decide)

/-- A placeholder for the branch at 0x1004 that turns out not taken. Its update
trains the hysteresis bit 0 and the loop entry 0, which belong to other pcs. -/
theorem placeholder_trains_zero :
    let before := run .defaults [.placeholder 0 0x1004 false]
    let after := run .defaults [.placeholder 0 0x1004 false, .commit 0 0x1008 ⟨0, 0, 0⟩]
    bindex .defaults 0x1004 = 0x401 ∧ 0 ∉ loopSet .defaults 2 0x1004 ∧
      before.ltage.tables.btableHysteresis 0 = true ∧
      after.ltage.tables.btableHysteresis 0 = false ∧
      (before.ltage.loop.ltable 0).numIter = 0 ∧ (after.ltage.loop.ltable 0).numIter = 1 := by
  decide

end Gem5Core.Pred.PlaceholderTraining
