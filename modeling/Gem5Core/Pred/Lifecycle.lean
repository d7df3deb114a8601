import Gem5Core.Pred.Custody
import Mathlib.Algebra.BigOperators.Pi

/-! The life of a branch in `BPredUnit`: it enters the history queue when it is predicted and leaves
it once, committed at the old end or squashed at the young end, with every sub-history released
exactly once. -/
namespace Gem5Core.Pred.Lifecycle
open Branch BPredUnit Stages Custody Lib.Ledger Lib.Deque Function List
open Ras (ReturnAddrStack RASHistory)
open Indirect (SimpleIndirectPredictor IndirectHistory)

variable {PC σ η β : Type} {n : Nat}

def total (table : Table BranchType) (tid : ThreadID) : Nat := ∑ type, table tid type

theorem total_bump (table : Table BranchType) (tid tid' : ThreadID) (type : BranchType) :
    total (bump table tid type) tid' = total table tid' + if tid' = tid then 1 else 0 := by
  unfold total bump
  by_cases htid : tid' = tid
  · subst htid
    simp only [update_self, if_true]
    rw [Finset.sum_update_of_mem (Finset.mem_univ type),
      ← Finset.add_sum_erase Finset.univ (table tid') (Finset.mem_univ type),
      Finset.sdiff_singleton_eq_erase]
    omega
  · simp [htid]

structure Inv (unit : BPU PC σ η β n) : Prop where
  trace : ∀ tid, Trace (unit.trace tid) (seqNums (unit.predHist tid))
  releases : ∀ tid, unit.dirReleases tid = departures (unit.trace tid)
  asserted : unit.asserted = true
  records : ∀ tid, ∀ hist ∈ unit.predHist tid, RecordOk hist
  ras : RasCustody unit unit.predHist
  iPred : IPredCustody unit unit.predHist
  balance : ∀ tid, total unit.stats.lookups tid =
    total unit.stats.committed tid + total unit.stats.squashes tid + (unit.predHist tid).length

theorem Inv.sorted {unit : BPU PC σ η β n} (hinv : Inv unit) (tid : ThreadID) :
    (unit.predHist tid).Pairwise fun newer older => older.seqNum < newer.seqNum :=
  pairwise_map.mp (hinv.trace tid).sorted

theorem Inv.change {unit unit' : BPU PC σ η β n} (hinv : Inv unit) (tid : ThreadID)
    (trace : List (Event InstSeqNum)) {queue : List (PredictorHistory PC η n)} {sn : InstSeqNum}
    {before after : (PredictorHistory PC η n → Option Nat) → Option Nat}
    (hrekeys : Rekeys unit.predHist tid queue sn before after)
    (htrace : unit'.trace = update unit.trace tid trace)
    (hqueue : unit'.predHist = update unit.predHist tid queue)
    (hreleases : unit'.dirReleases = update unit.dirReleases tid (departures trace))
    (hlegal : Trace trace (seqNums queue)) (hasserted : unit'.asserted = true)
    (hrecords : ∀ hist ∈ queue, RecordOk hist)
    (hras : Called RasHandled unit.ras (before rasAddr) unit'.ras (after rasAddr))
    (hiPred : Called IPredHandled unit.iPred (before indirectAddr) unit'.iPred (after indirectAddr))
    (hbalance : ∀ tid', total unit'.stats.lookups tid' = total unit'.stats.committed tid' +
      total unit'.stats.squashes tid' +
        (if tid' = tid then queue.length else (unit.predHist tid').length)) :
    Inv unit' := by
  refine ⟨?_, ?_, hasserted, ?_, ?_, ?_, ?_⟩
  case refine_4 =>
    rw [RasCustody, hqueue, hrekeys.rest]
    exact hinv.ras.handle _ (hrekeys.key rasAddr) hras
  case refine_5 =>
    rw [IPredCustody, hqueue, hrekeys.rest]
    exact hinv.iPred.handle _ (hrekeys.key indirectAddr) hiPred
  all_goals
    intro tid'
    by_cases htid : tid' = tid
  · subst htid
    rw [htrace, hqueue, update_self, update_self]
    exact hlegal
  · rw [htrace, hqueue, update_of_ne htid, update_of_ne htid]
    exact hinv.trace tid'
  · subst htid
    rw [htrace, hreleases, update_self, update_self]
  · rw [htrace, hreleases, update_of_ne htid, update_of_ne htid]
    exact hinv.releases tid'
  · subst htid
    rw [hqueue, update_self]
    exact hrecords
  · rw [hqueue, update_of_ne htid]
    exact hinv.records tid'
  · subst htid
    rw [hbalance tid', hqueue, update_self, if_pos rfl]
  · rw [hbalance tid', hqueue, update_of_ne htid, if_neg htid]

def SameEnters (unit unit' : BPU PC σ η β n) : Prop :=
  ∀ tid, enters (unit'.trace tid) = enters (unit.trace tid)

theorem sameEnters_of_update {unit unit' : BPU PC σ η β n} (tid : ThreadID) (event : Event InstSeqNum)
    (htrace : unit'.trace = update unit.trace tid (unit.trace tid ++ [event]))
    (hevent : enters (unit.trace tid ++ [event]) = enters (unit.trace tid)) :
    SameEnters unit unit' := by
  intro tid'
  rw [htrace]
  by_cases htid : tid' = tid
  · subst htid
    rw [update_self, hevent]
  · rw [update_of_ne htid]

/-- Records left the queue of thread `tid`, of which `queue` remains. -/
structure Leaves (tid : ThreadID) (queue : List (PredictorHistory PC η n))
    (unit unit' : BPU PC σ η β n) : Prop where
  inv : Inv unit'
  enters : SameEnters unit unit'
  queue : unit'.predHist tid = queue

theorem Leaves.trans {tid : ThreadID} {queue queue' : List (PredictorHistory PC η n)}
    {unit₁ unit₂ unit₃ : BPU PC σ η β n} (h : Leaves tid queue unit₁ unit₂)
    (h' : Leaves tid queue' unit₂ unit₃) : Leaves tid queue' unit₁ unit₃ :=
  ⟨h'.inv, fun tid' => (h'.enters tid').trans (h.enters tid'), h'.queue⟩

section
variable [NeZero n] [PCState PC] (p : Params PC σ η β) (tid : ThreadID) {unit : BPU PC σ η β n}
  (hinv : Inv unit) {queue : List (PredictorHistory PC η n)} {hist : PredictorHistory PC η n}
include hinv

theorem predict_inv (inst : StaticInst PC)
    (seqNum : InstSeqNum) (pc : PC) (hfresh : ∀ k, Event.enter k ∈ unit.trace tid → k < seqNum) :
    Inv (predict p tid pc unit inst seqNum).2.2 := by
  have hspec := predictRecord_spec p tid pc unit inst seqNum
  unfold predict
  generalize predictRecord p tid pc unit inst seqNum = w at hspec ⊢
  have hsn : w.2.seqNum = seqNum := hspec.seqNum_eq
  have hnew : seqNum ∉ seqNums (unit.predHist tid) := fun hmem =>
    lt_irrefl _ (hfresh _ ((hinv.trace tid).entered _ hmem))
  obtain ⟨hras, huse⟩ := predicted_ras hspec
  have hiPred := predicted_iPred hspec
  have hcounted := hspec.counted
  simp only [counted, Prod.mk.injEq] at hcounted
  have hqueue : update w.1.predHist tid (w.2 :: w.1.predHist tid) =
      update unit.predHist tid (w.2 :: unit.predHist tid) := by rw [hspec.predHist]
  have hrekeys : Rekeys unit.predHist tid (w.2 :: unit.predHist tid) w.2.seqNum _ _ :=
    .enter (hsn ▸ hnew)
  apply hinv.change tid (unit.trace tid ++ [.enter seqNum]) hrekeys
  · simp only [BPU.record, BPU.setQueue, hspec.trace]
  · exact hqueue
  · rw [departures_enter, ← hinv.releases, update_eq_self]
    exact hspec.dirReleases
  · rw [seqNums, map_cons, hsn]
    exact .enter (hinv.trace tid) hfresh
  · exact hspec.asserted.trans hinv.asserted
  · intro hist hmem
    rcases mem_cons.mp hmem with rfl | hmem
    · refine ⟨hspec.target, ?_⟩
      rw [PredictorHistory.type, hspec.inst_eq]
      exact huse
    · exact hinv.records tid hist hmem
  · exact hras
  · exact hiPred
  · intro tid'
    have hbalance := hinv.balance tid'
    simp only [BPU.record, BPU.setQueue, hcounted, total_bump, length_cons]
    split
    · subst tid'
      omega
    · omega

omit [NeZero n] [PCState PC] in
theorem Inv.absent
    {after : (PredictorHistory PC η n → Option Nat) → Option Nat}
    (hrekeys : Rekeys unit.predHist tid queue hist.seqNum (fun addr => addr hist) after) :
    (unit.ras = none → hist.rasHistory = none) ∧
      (unit.iPred = none → hist.indirectHistory = none) := by
  constructor
  · intro hnone
    have h := hinv.ras.absent hnone (tid, hist.seqNum)
    rw [hrekeys.key] at h
    simpa [rasAddr] using h
  · intro hnone
    have h := hinv.iPred.absent hnone (tid, hist.seqNum)
    rw [hrekeys.key] at h
    simpa [indirectAddr] using h

omit [NeZero n] hinv in
theorem commitOldest_queue (h : hist.target.isSome = true)
    (hqueue : unit.predHist tid = queue ++ [hist]) :
    (commitOldest p tid unit hist).predHist = update unit.predHist tid queue := by
  have hspec := commitBranch_spec p tid unit hist h
  simp only [commitOldest, deleteHistory, BPU.record, BPU.setQueue, BPU.check, hspec.predHist,
    hqueue, dropLast_concat]

omit [NeZero n] in
theorem commitOldest_leaves (hreleases : p.cPred.Releases)
    (hqueue : unit.predHist tid = queue ++ [hist]) :
    Leaves tid queue unit (commitOldest p tid unit hist) := by
  have htrace := hinv.trace tid
  rw [hqueue, seqNums, map_append] at htrace
  have hnew : hist.seqNum ∉ seqNums queue := by
    intro hmem
    exact lt_irrefl _ ((pairwise_append.mp htrace.sorted).2.2 _ hmem _
      (mem_singleton_self _))
  have hrekeys := Rekeys.commit hqueue hnew
  have hok : RecordOk hist := hinv.records tid hist (by rw [hqueue]; simp)
  obtain ⟨hrasAbsent, hiPredAbsent⟩ := hinv.absent tid hrekeys
  have hspec := commitBranch_spec p tid unit hist hok.target
  obtain ⟨hras, hrasNull⟩ := committed_ras hspec hok hrasAbsent
  obtain ⟨hiPred, hiPredNull⟩ := committed_iPred hspec hiPredAbsent
  have hcounted := hspec.counted
  simp only [counted, Prod.mk.injEq] at hcounted
  have hqueue' := commitOldest_queue p tid hok.target hqueue
  have htrace' : (commitOldest p tid unit hist).trace =
      update unit.trace tid (unit.trace tid ++ [.commit hist.seqNum]) := by
    simp only [commitOldest, deleteHistory, BPU.record, BPU.setQueue, BPU.check, hspec.trace]
  refine ⟨?_, sameEnters_of_update tid _ htrace' (enters_commit _ _), by rw [hqueue', update_self]⟩
  apply hinv.change tid _ hrekeys htrace' hqueue'
  · rw [departures_commit, ← hinv.releases]
    exact hspec.dirReleases
  · exact .commit htrace
  · simp [commitOldest, deleteHistory, BPU.record, BPU.setQueue, BPU.check,
      PredictorHistory.released, hspec.asserted, hinv.asserted, hspec.bpHistory hreleases, hrasNull,
      hiPredNull]
  · intro hist' hmem
    exact hinv.records tid hist' (by rw [hqueue]; exact mem_append_left _ hmem)
  · exact hras
  · exact hiPred
  · intro tid'
    have hbalance := hinv.balance tid'
    simp only [commitOldest, deleteHistory, BPU.record, BPU.setQueue, BPU.check, hcounted,
      total_bump]
    split
    · subst tid'
      rw [hqueue, length_append, length_singleton] at hbalance
      omega
    · omega

omit [NeZero n] [PCState PC] in
theorem Inv.front (hqueue : unit.predHist tid = hist :: queue) :
    Trace (unit.trace tid) (hist.seqNum :: seqNums queue) ∧ hist.seqNum ∉ seqNums queue ∧
      ∀ hist' ∈ hist :: queue, RecordOk hist' := by
  have htrace := hinv.trace tid
  rw [hqueue] at htrace
  exact ⟨htrace, fun hmem => lt_irrefl _ ((pairwise_cons.mp htrace.sorted).1 _ hmem),
    hqueue ▸ hinv.records tid⟩

omit [NeZero n] [PCState PC] in
theorem squashYoungest_leaves (hreleases : p.cPred.Releases)
    (hqueue : unit.predHist tid = hist :: queue) :
    Leaves tid queue unit (squashYoungest p tid unit hist) := by
  obtain ⟨htrace, hnew, hrecords⟩ := hinv.front tid hqueue
  have hrekeys := Rekeys.squash hqueue hnew
  obtain ⟨hrasAbsent, hiPredAbsent⟩ := hinv.absent tid hrekeys
  have hspec := squashHistory_spec p tid unit hist
  have hras := squashed_ras hspec hrasAbsent
  have hiPred := squashed_iPred hspec hiPredAbsent
  have hcounted := hspec.counted
  simp only [counted, Prod.mk.injEq] at hcounted
  have hqueue' : (squashYoungest p tid unit hist).predHist = update unit.predHist tid queue := by
    simp only [squashYoungest, BPU.record, BPU.setQueue, hspec.predHist, hqueue, tail_cons]
  have htrace' : (squashYoungest p tid unit hist).trace =
      update unit.trace tid (unit.trace tid ++ [.squash hist.seqNum]) := by
    simp only [squashYoungest, BPU.record, BPU.setQueue, hspec.trace]
  refine ⟨?_, sameEnters_of_update tid _ htrace' (enters_squash _ _), by rw [hqueue', update_self]⟩
  apply hinv.change tid _ hrekeys htrace' hqueue'
  · rw [departures_squash, ← hinv.releases]
    exact hspec.dirReleases
  · exact .squash htrace
  · exact (hspec.asserted hreleases hrasAbsent hiPredAbsent).trans hinv.asserted
  · exact fun hist' hmem => hrecords hist' (mem_cons_of_mem _ hmem)
  · exact hras
  · exact hiPred
  · intro tid'
    have hbalance := hinv.balance tid'
    simp only [squashYoungest, BPU.record, BPU.setQueue, hcounted, total_bump]
    split
    · subst tid'
      rw [hqueue, length_cons] at hbalance
      omega
    · omega

theorem correctFront_inv (hqueue : unit.predHist tid = hist :: queue) (corr_target : PC) (taken : Bool)
    (sn : InstSeqNum) (from_commit : Bool) (rand : Nat) :
    let w := correctFront p tid corr_target taken sn from_commit rand unit hist
    Inv (w.1.setQueue tid (w.2 :: queue)) := by
  obtain ⟨htrace, hnew, hrecords⟩ := hinv.front tid hqueue
  have hspec := correctFront_spec p tid corr_target taken unit hist sn from_commit rand
  generalize correctFront p tid corr_target taken sn from_commit rand unit hist = w at hspec ⊢
  obtain ⟨hras, huse⟩ := corrected_ras hspec (hrecords hist mem_cons_self)
  have hiPred := corrected_iPred hspec
  have hcounted := hspec.counted
  simp only [counted, Prod.mk.injEq] at hcounted
  have hqueue' : update w.1.predHist tid (w.2 :: queue) =
      update unit.predHist tid (w.2 :: queue) := by rw [hspec.predHist]
  apply hinv.change tid (unit.trace tid) (Rekeys.replace hqueue hnew hspec.seqNum)
  · rw [update_eq_self]
    exact hspec.trace
  · exact hqueue'
  · rw [← hinv.releases, update_eq_self]
    exact hspec.dirReleases
  · rw [seqNums, map_cons, hspec.seqNum]
    exact htrace
  · exact hspec.asserted.trans hinv.asserted
  · intro hist' hmem
    rcases mem_cons.mp hmem with rfl | hmem
    · refine ⟨by rw [hspec.target]; rfl, ?_⟩
      rw [PredictorHistory.type, hspec.inst]
      exact huse
    · exact hrecords hist' (mem_cons_of_mem _ hmem)
  · exact hras
  · exact hiPred
  · intro tid'
    have hbalance := hinv.balance tid'
    simp only [BPU.setQueue, hcounted, length_cons]
    split
    · subst tid'
      rw [hqueue] at hbalance
      omega
    · omega

end

section
variable [PCState PC] (p : Params PC σ η β) (tid : ThreadID) (hreleases : p.cPred.Releases)
include hreleases

section
variable (sn : InstSeqNum) (fuel : Nat) {unit : BPU PC σ η β n} (hinv : Inv unit)
  (hfuel : (unit.predHist tid).length ≤ fuel)
include hinv hfuel

theorem updateLoop_leaves : Leaves tid ((unit.predHist tid).filter (sn < ·.seqNum)) unit
      (updateLoop p tid sn fuel unit) := by
  induction fuel generalizing unit with
  | zero =>
    have hnil := length_eq_zero_iff.mp (Nat.le_zero.mp hfuel)
    exact ⟨hinv, fun _ => rfl, by rw [updateLoop, hnil]; rfl⟩
  | succ fuel ih =>
    unfold updateLoop
    split
    · rename_i hlast
      have hnil := List.getLast?_eq_none_iff.mp hlast
      exact ⟨hinv, fun _ => rfl, by rw [hnil]; rfl⟩
    · rename_i oldest hlast
      obtain ⟨queue, hqueue⟩ := List.getLast?_eq_some_iff.mp hlast
      split
      · rename_i hdone
        have hnext := commitOldest_leaves p tid hinv hreleases hqueue
        rw [hqueue, length_append, length_singleton] at hfuel
        have hrest := hnext.trans (ih hnext.inv (by rw [hnext.queue]; omega))
        rw [hnext.queue] at hrest
        simpa [hqueue, not_lt.mpr hdone] using hrest
      · -- the oldest is too young already, and the others are younger still
        rename_i hyoung
        refine ⟨hinv, fun _ => rfl, (filter_eq_self.mpr fun hist hmem => decide_eq_true ?_).symm⟩
        have hsorted := hinv.sorted tid
        rw [hqueue] at hmem hsorted
        rcases mem_append.mp hmem with hmem | hmem
        · exact lt_trans (not_le.mp hyoung) ((pairwise_append.mp hsorted).2.2 hist hmem oldest (by simp))
        · rw [mem_singleton.mp hmem]
          exact not_le.mp hyoung

omit [PCState PC] in
theorem squashLoop_leaves : Leaves tid ((unit.predHist tid).filter (·.seqNum ≤ sn)) unit
      (squashLoop p tid sn fuel unit) := by
  induction fuel generalizing unit with
  | zero =>
    have hnil := length_eq_zero_iff.mp (Nat.le_zero.mp hfuel)
    exact ⟨hinv, fun _ => rfl, by rw [squashLoop, hnil]; rfl⟩
  | succ fuel ih =>
    unfold squashLoop
    split
    · rename_i hhead
      have hnil := List.head?_eq_none_iff.mp hhead
      exact ⟨hinv, fun _ => rfl, by rw [hnil]; rfl⟩
    · rename_i youngest hhead
      obtain ⟨queue, hqueue⟩ := List.head?_eq_some_iff.mp hhead
      split
      · rename_i hyoung
        have hnext := squashYoungest_leaves p tid hinv hreleases hqueue
        rw [hqueue, length_cons] at hfuel
        have hrest := hnext.trans (ih hnext.inv (by rw [hnext.queue]; omega))
        rw [hnext.queue] at hrest
        simpa [hqueue, not_le.mpr hyoung] using hrest
      · rename_i hold
        refine ⟨hinv, fun _ => rfl, (filter_eq_self.mpr fun hist hmem => decide_eq_true ?_).symm⟩
        have hsorted := hinv.sorted tid
        rw [hqueue] at hmem hsorted
        rcases mem_cons.mp hmem with rfl | hmem
        · exact not_lt.mp hold
        · exact le_trans (le_of_lt ((pairwise_cons.mp hsorted).1 hist hmem)) (not_lt.mp hold)

end

variable [NeZero n]

theorem squashCorrect_inv (corr_target : PC) (taken : Bool) (sn : InstSeqNum) (from_commit : Bool)
    (rand : Nat) {unit : BPU PC σ η β n} (hinv : Inv unit) :
    Inv (squashCorrect p tid corr_target taken sn from_commit rand unit) ∧
      SameEnters unit (squashCorrect p tid corr_target taken sn from_commit rand unit) := by
  obtain ⟨hinv', henters, -⟩ := squashLoop_leaves p tid hreleases sn _ hinv le_rfl
  unfold squashCorrect squash
  generalize squashLoop p tid sn (unit.predHist tid).length unit = unit' at hinv' henters ⊢
  dsimp only
  split
  · exact ⟨hinv', henters⟩
  · rename_i hist queue hqueue
    refine ⟨correctFront_inv p tid hinv' hqueue corr_target taken sn from_commit rand, ?_⟩
    intro tid'
    have htrace := (correctFront_spec p tid corr_target taken unit' hist sn from_commit rand).trace
    rw [← henters tid']
    simp only [BPU.setQueue, htrace]

def predicted (tid : ThreadID) (calls : List (Call PC)) : List InstSeqNum :=
  calls.filterMap fun
    | .predict tid' _ seqNum _ => if tid' = tid then some seqNum else none
    | _ => none

theorem step_inv {unit : BPU PC σ η β n} (hinv : Inv unit)
    (call : Call PC)
    (hfresh : ∀ tid, ∀ sn ∈ predicted tid [call], ∀ k ∈ enters (unit.trace tid), k < sn) :
    Inv (step p unit call) ∧
      ∀ tid, enters ((step p unit call).trace tid) =
        enters (unit.trace tid) ++ predicted tid [call] := by
  cases call with
  | predict tid inst seqNum pc =>
    have hlt : ∀ k, Event.enter k ∈ unit.trace tid → k < seqNum := by
      intro k hk
      exact hfresh tid seqNum (by simp [predicted]) k ((mem_enters _ k).mpr hk)
    refine ⟨predict_inv p tid hinv inst seqNum pc hlt, ?_⟩
    have htrace := (predictRecord_spec p tid pc unit inst seqNum).trace
    intro tid'
    simp only [step, predict, BPU.record, BPU.setQueue, htrace]
    by_cases htid : tid' = tid
    · subst htid
      simp [predicted]
    · simp [predicted, htid, Ne.symm htid]
  | update tid done_sn =>
    obtain ⟨hinv', henters, -⟩ := updateLoop_leaves p tid hreleases done_sn _ hinv le_rfl
    exact ⟨hinv', fun tid' => (henters tid').trans (append_nil _).symm⟩
  | squash tid squashed_sn =>
    obtain ⟨hinv', henters, -⟩ := squashLoop_leaves p tid hreleases squashed_sn _ hinv le_rfl
    exact ⟨hinv', fun tid' => (henters tid').trans (append_nil _).symm⟩
  | squashCorrect tid squashed_sn corr_target taken from_commit rand =>
    obtain ⟨hinv', henters⟩ := squashCorrect_inv p tid hreleases corr_target taken squashed_sn
      from_commit rand hinv
    exact ⟨hinv', fun tid' => (henters tid').trans (append_nil _).symm⟩

omit [PCState PC] hreleases in
theorem start_inv (cPred : σ) (btb : β) (hasRas hasIPred : Bool) :
    Inv (start p cPred btb hasRas hasIPred : BPU PC σ η β n) where
  trace := fun _ => .nil
  releases := fun _ => rfl
  asserted := rfl
  records := fun _ _ hmem => by simp [start] at hmem
  ras := by
    constructor
    · intro ras hras
      cases hasRas <;> cases hras
      exact ⟨rfl, owns_empty⟩
    · intro _ _
      rfl
  iPred := by
    constructor
    · intro iPred hiPred
      cases hasIPred <;> cases hiPred
      exact ⟨rfl, owns_empty⟩
    · intro _ _
      rfl
  balance := fun _ => by simp [start, total]

theorem run_inv (cPred : σ) (btb : β) (hasRas hasIPred : Bool)
    (calls : List (Call PC)) (hincreasing : ∀ tid, (predicted tid calls).Pairwise (· < ·)) :
    let unit : BPU PC σ η β n := run p (start p cPred btb hasRas hasIPred) calls
    Inv unit ∧ ∀ tid, enters (unit.trace tid) = predicted tid calls := by
  induction calls using List.reverseRecOn with
  | nil => exact ⟨start_inv p cPred btb hasRas hasIPred, fun _ => rfl⟩
  | append_singleton calls call ih =>
    have hsplit : ∀ tid, predicted tid (calls ++ [call]) =
        predicted tid calls ++ predicted tid [call] := fun tid => filterMap_append
    have hpre : ∀ tid, (predicted tid calls).Pairwise (· < ·) := by
      intro tid
      have h := hincreasing tid
      rw [hsplit tid] at h
      exact (pairwise_append.mp h).1
    obtain ⟨hinv, henters⟩ := ih hpre
    obtain ⟨hinv', henters'⟩ := step_inv p hreleases hinv call (by
      intro tid sn hsn k hk
      have h := hincreasing tid
      rw [hsplit tid] at h
      rw [henters tid] at hk
      exact (pairwise_append.mp h).2.2 k hk sn hsn)
    rw [run_concat]
    refine ⟨hinv', ?_⟩
    intro tid
    rw [henters' tid, henters tid, hsplit tid]

end

/-- On every thread: the order of the queue, how records leave it, that each sub-history is released
exactly once and null when its record is deleted, and that the statistics balance. -/
structure Orderly (unit : BPU PC σ η β n) : Prop where
  ordered : ∀ tid, (unit.predHist tid).Pairwise fun newer older => older.seqNum < newer.seqNum
  queued : ∀ tid sn, sn ∈ seqNums (unit.predHist tid) ↔
    .enter sn ∈ unit.trace tid ∧ sn ∉ departures (unit.trace tid)
  leavesOnce : ∀ tid, (departures (unit.trace tid)).Nodup
  commitsInOrder : ∀ tid, (commits (unit.trace tid)).Pairwise (· < ·)
  squashesYoungest : ∀ tid pre sn post, unit.trace tid = pre ++ .squash sn :: post →
    ∀ sn', .enter sn' ∈ pre → sn < sn' → sn' ∈ departures pre
  directionReleased : ∀ tid, unit.dirReleases tid = departures (unit.trace tid)
  rasReleased : ∀ ras, unit.ras = some ras → Owns ras.heap (holder rasAddr unit.predHist)
  rasAbsent : unit.ras = none → ∀ key, holder rasAddr unit.predHist key = none
  indirectReleased : ∀ iPred, unit.iPred = some iPred →
    Owns iPred.heap (holder indirectAddr unit.predHist)
  indirectAbsent : unit.iPred = none → ∀ key, holder indirectAddr unit.predHist key = none
  assertionsHold : unit.asserted = true ∧ (∀ ras, unit.ras = some ras → ras.asserted = true) ∧
    ∀ iPred, unit.iPred = some iPred → iPred.asserted = true
  balanced : ∀ tid, ∑ type, unit.stats.lookups tid type =
    ∑ type, unit.stats.committed tid type + ∑ type, unit.stats.squashes tid type +
      (unit.predHist tid).length

theorem Inv.orderly {unit : BPU PC σ η β n} (h : Inv unit) : Orderly unit where
  ordered := h.sorted
  queued := fun tid sn => (h.trace tid).mem_queue_iff sn
  leavesOnce := fun tid => (h.trace tid).nodup_departures
  commitsInOrder := fun tid => (h.trace tid).commits_sorted
  squashesYoungest := by
    intro tid pre sn post heq
    have htrace := h.trace tid
    rw [heq] at htrace
    exact htrace.squash_youngest
  directionReleased := h.releases
  rasReleased := fun ras hras => (h.ras.owned ras hras).2
  rasAbsent := h.ras.absent
  indirectReleased := fun iPred hiPred => (h.iPred.owned iPred hiPred).2
  indirectAbsent := h.iPred.absent
  assertionsHold :=
    ⟨h.asserted, fun ras hras => (h.ras.owned ras hras).1,
      fun iPred hiPred => (h.iPred.owned iPred hiPred).1⟩
  balanced := h.balance

/-- Every run of calls whose predictions carry increasing sequence numbers on
each thread keeps the life of every record in order. -/
theorem queue_lifecycle [NeZero n] [PCState PC] (p : Params PC σ η β)
    (hreleases : p.cPred.Releases) (cPred : σ) (btb : β) (hasRas hasIPred : Bool)
    (calls : List (Call PC)) (hincreasing : ∀ tid, (predicted tid calls).Pairwise (· < ·)) :
    let unit : BPU PC σ η β n := run p (start p cPred btb hasRas hasIPred) calls
    Orderly unit ∧ ∀ tid, enters (unit.trace tid) = predicted tid calls := by
  obtain ⟨hinv, henters⟩ := run_inv (n := n) p hreleases cPred btb hasRas hasIPred calls hincreasing
  exact ⟨hinv.orderly, henters⟩

/-- A call, a return on its predicted path, the correction of the call, another
return, and the call's commit. -/
def callReturn : List (Call Addr) :=
  [.predict 0 (fourByteInst true false false) 1 0x100,
    .predict 0 (fourByteInst false true false) 2 0x104,
    .squashCorrect 0 1 0x200 true true 0,
    .predict 0 (fourByteInst false true false) 3 0x200,
    .update 0 1]

theorem queue_lifecycle_callReturn :
    (Params.static Addr true).cPred.Releases ∧
      (∀ tid, (predicted tid callReturn).Pairwise (· < ·)) ∧
      seqNums ((run (n := 16) (Params.static Addr true)
        (start (Params.static Addr true) () () true true) callReturn).predHist 0) = [3] ∧
      Orderly (run (n := 16) (Params.static Addr true)
        (start (Params.static Addr true) () () true true) callReturn) := by
  have hreleases := @ConditionalPredictor.static_releases Addr true
  have hincreasing : ∀ tid, (predicted tid callReturn).Pairwise (· < ·) := by
    intro tid
    by_cases htid : 0 = tid <;> simp [predicted, callReturn, htid]
  exact ⟨hreleases, hincreasing, by decide +kernel,
    (queue_lifecycle (n := 16) (Params.static Addr true) hreleases () () true true callReturn
      hincreasing).1⟩

/-- After every run, `update` leaves exactly the records younger than `done_sn`, and `squash`
exactly those up to `squashed_sn`, in their order. -/
theorem queue_filtered [NeZero n] [PCState PC] (p : Params PC σ η β)
    (hreleases : p.cPred.Releases) (cPred : σ) (btb : β) (hasRas hasIPred : Bool)
    (calls : List (Call PC)) (hincreasing : ∀ tid, (predicted tid calls).Pairwise (· < ·))
    (tid : ThreadID) (sn : InstSeqNum) :
    let unit : BPU PC σ η β n := run p (start p cPred btb hasRas hasIPred) calls
    (update p tid sn unit).predHist tid = (unit.predHist tid).filter (sn < ·.seqNum) ∧
      (squash p tid sn unit).predHist tid = (unit.predHist tid).filter (·.seqNum ≤ sn) := by
  intro unit
  have hinv := (run_inv (n := n) p hreleases cPred btb hasRas hasIPred calls hincreasing).1
  exact ⟨(updateLoop_leaves p tid hreleases sn _ hinv le_rfl).queue,
    (squashLoop_leaves p tid hreleases sn _ hinv le_rfl).queue⟩

theorem queue_filtered_callReturn :
    let p := Params.static Addr true
    let unit := run (n := 16) p (start p () () true true) callReturn.dropLast
    seqNums (unit.predHist 0) = [3, 1] ∧ seqNums ((update p 0 1 unit).predHist 0) = [3] ∧
      seqNums ((squash p 0 1 unit).predHist 0) = [1] := by
  have hincreasing : ∀ tid, (predicted tid callReturn.dropLast).Pairwise (· < ·) := by
    intro tid
    by_cases htid : 0 = tid <;> simp [predicted, callReturn, htid]
  obtain ⟨hupdate, hsquash⟩ := queue_filtered (n := 16) (Params.static Addr true)
    (ConditionalPredictor.static_releases true) () () true true _ hincreasing 0 1
  refine ⟨by decide +kernel, ?_, ?_⟩
  · rw [hupdate]
    decide +kernel
  · rw [hsquash]
    decide +kernel

end Gem5Core.Pred.Lifecycle
