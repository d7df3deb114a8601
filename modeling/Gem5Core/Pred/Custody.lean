import Gem5Core.Pred.Stages

/-! Who holds the sub-histories: each queued branch holds at most one pointer into the heap of the
return address stack and one into that of the indirect predictor. Every stage moves one such pointer
in one of the three ways of the ledger. -/
namespace Gem5Core.Pred.Custody
open Branch BPredUnit Stages Lib.Ledger Function
open Ras (ReturnAddrStack RASHistory)
open Indirect (SimpleIndirectPredictor IndirectHistory)

variable {PC σ η β : Type} {n : Nat}

section

def rasAddr (hist : PredictorHistory PC η n) : Option Nat := hist.rasHistory.map RASHistory.addr

def indirectAddr (hist : PredictorHistory PC η n) : Option Nat :=
  hist.indirectHistory.map IndirectHistory.addr

abbrev RasHandled := Handled (@ReturnAddrStack.heap PC n) ReturnAddrStack.asserted

abbrev IPredHandled :=
  Handled (@SimpleIndirectPredictor.heap PC) SimpleIndirectPredictor.asserted

variable (ras : ReturnAddrStack PC n) (tid : ThreadID) (h : Option (RASHistory PC n))

theorem push_moves [NeZero n] (pc : PC) :
    RasHandled ras (h.map RASHistory.addr) (ras.push tid pc h).1
      ((ras.push tid pc h).2.map RASHistory.addr) := by
  cases h with
  | none => exact ⟨.new, rfl⟩
  | some history => exact ⟨.keep _, rfl⟩

theorem pop_moves [NeZero n] :
    RasHandled ras (h.map RASHistory.addr) (ras.pop tid h).2.1
      ((ras.pop tid h).2.2.map RASHistory.addr) := by
  cases h with
  | none => exact ⟨.new, rfl⟩
  | some history => exact ⟨.keep _, rfl⟩

theorem squash_moves :
    RasHandled ras (h.map RASHistory.addr) (ras.squash tid h).1 none ∧
      (ras.squash tid h).2 = none := by
  refine ⟨?_, squash_ras_none tid ras h⟩
  cases h with
  | none => exact ⟨.keep none, rfl⟩
  | some history =>
    obtain ⟨stats, heq⟩ := ras.squash_some tid history
    rw [heq]
    exact ⟨.delete _, rfl⟩

private theorem commit_moves (misp : Bool) (type : BranchType)
    (huse : h.isSome = true → type.usesRas = true) :
    RasHandled ras (h.map RASHistory.addr) (ras.commit misp type h).1 none ∧
      (ras.commit misp type h).2 = none := by
  cases h with
  | none =>
    rw [ras.commit_none]
    exact ⟨⟨.keep none, rfl⟩, rfl⟩
  | some history =>
    obtain ⟨stats, heq⟩ := ras.commit_some misp type history (huse rfl)
    rw [heq]
    exact ⟨⟨.delete _, rfl⟩, rfl⟩

private theorem rasAccess_moves [NeZero n] (pc : PC) (detected : Bool) (inst : StaticInst PC) :
    RasHandled ras none (rasAccess tid pc detected inst ras).1
        ((rasAccess tid pc detected inst ras).2.map RASHistory.addr) ∧
      ((rasAccess tid pc detected inst ras).2.isSome = true →
        (getBranchType inst).usesRas = true) := by
  rw [getBranchType_usesRas]
  unfold rasAccess
  split
  · exact ⟨⟨.keep none, rfl⟩, by simp⟩
  split
  · rename_i hcall
    exact ⟨push_moves ras tid none _, by simp [hcall]⟩
  split
  · rename_i hret
    exact ⟨pop_moves ras tid none, by simp [hret]⟩
  · exact ⟨⟨.keep none, rfl⟩, by simp⟩

theorem rasCorrection_moves [NeZero n] [PCState PC] (corr_target : PC) (taken : Bool)
    (hist : PredictorHistory PC η n)
    (huse : hist.rasHistory.isSome = true → hist.type.usesRas = true) :
    RasHandled ras (rasAddr hist) (rasCorrection tid corr_target taken hist ras).1
        ((rasCorrection tid corr_target taken hist ras).2.map RASHistory.addr) ∧
      ((rasCorrection tid corr_target taken hist ras).2.isSome = true →
        hist.type.usesRas = true) := by
  unfold rasCorrection
  by_cases htaken : (taken && hist.rasHistory.isNone) = true
  · rw [if_pos htaken]
    have hnone : hist.rasHistory = none := by
      simp only [Bool.and_eq_true, Option.isNone_iff_eq_none] at htaken
      exact htaken.2
    unfold correctTaken rasAddr
    rw [hnone]
    dsimp only
    by_cases hret : hist.type = .return
    · have huse : hist.type.usesRas = true := by rw [hret]; rfl
      split
      · -- a return that is also a call uses the record the pop has made
        exact ⟨⟨.new, rfl⟩, fun _ => huse⟩
      · exact ⟨pop_moves ras tid none, fun _ => huse⟩
    · split
      · rename_i hcall
        refine ⟨push_moves ras tid none _, fun _ => ?_⟩
        rw [PredictorHistory.type, getBranchType_usesRas]
        simp [show hist.inst.isCall = true from hcall]
      · exact ⟨⟨.keep none, rfl⟩, by simp⟩
  · rw [if_neg htaken]
    split
    · rw [squash_ras_none]
      exact ⟨(squash_moves ras tid hist.rasHistory).1, by simp⟩
    · exact ⟨⟨.keep _, rfl⟩, huse⟩

section
variable (q : Indirect.Params) (iPred : SimpleIndirectPredictor PC) (tid : ThreadID)
variable (h : Option IndirectHistory)

theorem iPred_update_moves [PCState PC] (sn : InstSeqNum) (squash taken : Bool) (target : PC)
    (type : BranchType) (rand : Nat) :
    IPredHandled iPred (h.map IndirectHistory.addr)
      (iPred.update q tid sn squash taken target type h rand).1
      ((iPred.update q tid sn squash taken target type h rand).2.map IndirectHistory.addr) := by
  unfold IPredHandled Handled
  cases h with
  | none =>
    obtain ⟨iPred', history, heq, hheap, hasserted, haddr⟩ :=
      iPred.update_none q tid sn squash taken target type rand
    rw [heq, hheap, Option.map_some, haddr]
    exact ⟨.new, hasserted⟩
  | some history =>
    obtain ⟨iPred', history', heq, hheap, hasserted, haddr⟩ :=
      iPred.update_some q tid sn squash taken target type history rand
    rw [heq, hheap, Option.map_some, Option.map_some, haddr]
    exact ⟨.keep _, hasserted⟩

private theorem iPred_commit_moves :
    IPredHandled iPred (h.map IndirectHistory.addr) (iPred.commit q tid h).1 none ∧
      (iPred.commit q tid h).2 = none := by
  unfold IPredHandled Handled
  cases h with
  | none => exact ⟨⟨.keep none, rfl⟩, rfl⟩
  | some history =>
    obtain ⟨iPred', heq, hheap, hasserted⟩ := iPred.commit_some q tid history
    rw [heq, hheap]
    exact ⟨⟨.delete _, hasserted⟩, rfl⟩

private theorem iPred_squash_moves :
    IPredHandled iPred (h.map IndirectHistory.addr) (iPred.squash q tid h).1 none ∧
      (iPred.squash q tid h).2 = none := by
  refine ⟨?_, squash_iPred_none tid q iPred h⟩
  unfold IPredHandled Handled
  cases h with
  | none => exact ⟨.keep none, rfl⟩
  | some history =>
    obtain ⟨iPred', heq, hheap, hasserted⟩ := iPred.squash_some q tid history
    rw [heq, hheap]
    exact ⟨.delete _, hasserted⟩

end

end

section
variable (addr : PredictorHistory PC η n → Option Nat)
variable (predHist : ThreadID → List (PredictorHistory PC η n)) (tid : ThreadID)
variable (queue : List (PredictorHistory PC η n)) (hist : PredictorHistory PC η n)

def seqNums (queue : List (PredictorHistory PC η n)) : List InstSeqNum := queue.map (·.seqNum)

def holder (key : ThreadID × InstSeqNum) : Option Nat :=
  ((predHist key.1).find? fun hist => hist.seqNum == key.2).bind addr

theorem find?_eq_none (sn : InstSeqNum) (h : sn ∉ seqNums queue) :
    (queue.find? fun hist => hist.seqNum == sn) = none := by
  rw [List.find?_eq_none]
  intro hist hmem heq
  exact h (List.mem_map.mpr ⟨hist, hmem, by simpa using heq⟩)

theorem holder_fresh (sn : InstSeqNum) (h : sn ∉ seqNums (predHist tid)) :
    holder addr predHist (tid, sn) = none := by
  simp [holder, find?_eq_none (predHist tid) sn h]

/-- A search of `wide` finds `hist` under its number and else what a search of `queue` finds. -/
def Finds (wide : List (PredictorHistory PC η n)) : Prop :=
  ∀ sn, (wide.find? fun hist => hist.seqNum == sn) =
    if sn = hist.seqNum then some hist else queue.find? fun hist => hist.seqNum == sn

theorem holder_extend {wide : List (PredictorHistory PC η n)} (hfind : Finds queue hist wide) :
    holder addr (update predHist tid wide) =
      update (holder addr (update predHist tid queue)) (tid, hist.seqNum)
        (addr hist) := by
  funext key
  obtain ⟨tid', sn⟩ := key
  by_cases htid : tid' = tid
  · subst htid
    by_cases hsn : sn = hist.seqNum
    · subst hsn
      simp [holder, hfind _]
    · simp [holder, hfind _, hsn]
  · simp [holder, htid]

theorem finds_cons : Finds queue hist (hist :: queue) := by
  intro sn
  by_cases hsn : sn = hist.seqNum
  · simp [hsn]
  · have hne : (hist.seqNum == sn) = false := by simpa using fun he => hsn he.symm
    rw [List.find?_cons_of_neg (by simp [hne]), if_neg hsn]

theorem finds_concat (h : hist.seqNum ∉ seqNums queue) : Finds queue hist (queue ++ [hist]) := by
  intro sn
  rw [List.find?_append, finds_cons [] hist sn]
  split
  · rename_i hsn
    rw [hsn, find?_eq_none queue _ h, Option.none_or]
  · simp

/-- With the new queue of thread `tid` only the pointers of the branch `sn` change,
from `before` to `after`. -/
structure Rekeys (sn : InstSeqNum)
    (before after : (PredictorHistory PC η n → Option Nat) → Option Nat) : Prop where
  key : ∀ addr, holder addr predHist (tid, sn) = before addr
  rest : ∀ addr, holder addr (Function.update predHist tid queue) =
    Function.update (holder addr predHist) (tid, sn) (after addr)

variable {predHist tid queue hist}

theorem Rekeys.enter (h : hist.seqNum ∉ seqNums (predHist tid)) :
    Rekeys predHist tid (hist :: predHist tid) hist.seqNum (fun _ => none)
      fun addr => addr hist where
  key := fun addr => holder_fresh addr predHist tid hist.seqNum h
  rest := by
    intro addr
    rw [holder_extend addr predHist tid _ hist (finds_cons _ hist),
      update_eq_self]

theorem Rekeys.leave {wide : List (PredictorHistory PC η n)} (hwide : predHist tid = wide)
    (h : hist.seqNum ∉ seqNums queue) (hfind : Finds queue hist wide) :
    Rekeys predHist tid queue hist.seqNum (fun addr => addr hist) fun _ => none := by
  have hholder : ∀ addr, holder addr predHist =
      update (holder addr (update predHist tid queue)) (tid, hist.seqNum)
        (addr hist) := by
    intro addr
    rw [← holder_extend addr predHist tid queue hist hfind, ← hwide, update_eq_self]
  have hfresh : ∀ addr, holder addr (update predHist tid queue) (tid, hist.seqNum) =
      none := fun addr =>
    holder_fresh addr _ tid hist.seqNum (by rw [update_self]; exact h)
  constructor
  · intro addr
    rw [hholder, update_self]
  · intro addr
    rw [hholder, update_idem, ← hfresh addr, update_eq_self]

theorem Rekeys.commit (hqueue : predHist tid = queue ++ [hist])
    (h : hist.seqNum ∉ seqNums queue) :
    Rekeys predHist tid queue hist.seqNum (fun addr => addr hist) fun _ => none :=
  .leave hqueue h (finds_concat queue hist h)

theorem Rekeys.squash (hqueue : predHist tid = hist :: queue)
    (h : hist.seqNum ∉ seqNums queue) :
    Rekeys predHist tid queue hist.seqNum (fun addr => addr hist) fun _ => none :=
  .leave hqueue h (finds_cons queue hist)

theorem Rekeys.replace {hist' : PredictorHistory PC η n} (hqueue : predHist tid = hist :: queue)
    (h : hist.seqNum ∉ seqNums queue) (hsn : hist'.seqNum = hist.seqNum) :
    Rekeys predHist tid (hist' :: queue) hist.seqNum (fun addr => addr hist)
      fun addr => addr hist' := by
  have hleave := Rekeys.squash hqueue h
  refine ⟨hleave.key, ?_⟩
  intro addr
  rw [holder_extend addr predHist tid queue hist' (finds_cons queue hist'), hleave.rest, hsn,
    update_idem]

end

abbrev RasCustody (unit : BPU PC σ η β n) (predHist : ThreadID → List (PredictorHistory PC η n)) :=
  Custody ReturnAddrStack.heap ReturnAddrStack.asserted unit.ras (holder rasAddr predHist)

abbrev IPredCustody (unit : BPU PC σ η β n)
    (predHist : ThreadID → List (PredictorHistory PC η n)) :=
  Custody SimpleIndirectPredictor.heap SimpleIndirectPredictor.asserted unit.iPred
    (holder indirectAddr predHist)

structure RecordOk (hist : PredictorHistory PC η n) : Prop where
  target : hist.target.isSome = true
  ras : hist.rasHistory.isSome = true → hist.type.usesRas = true

section
variable {p : Params PC σ η β} {tid : ThreadID} {unit unit' : BPU PC σ η β n}
variable {hist : PredictorHistory PC η n} {w : Work PC σ η β n}

theorem predicted_ras [NeZero n] [PCState PC] {pc : PC} {inst : StaticInst PC}
    {seqNum : InstSeqNum} (h : Predicted p tid pc unit inst seqNum w) :
    Called RasHandled unit.ras none w.1.ras (rasAddr w.2) ∧
      (w.2.rasHistory.isSome = true → (getBranchType inst).usesRas = true) := by
  obtain ⟨detected, -, hcalled⟩ := h.ras
  have hmoves := fun ras : ReturnAddrStack PC n => rasAccess_moves ras tid pc detected inst
  refine ⟨hcalled.handles RASHistory.addr fun ras => (hmoves ras).1, ?_⟩
  refine hcalled.kept (P := fun h => h.isSome = true → _) (by simp) fun ras _ hx => ?_
  have huse := (hmoves ras).2
  rwa [show rasAccess tid pc detected inst ras = _ from hx] at huse

theorem predicted_iPred [NeZero n] [PCState PC] {pc : PC} {inst : StaticInst PC}
    {seqNum : InstSeqNum} (h : Predicted p tid pc unit inst seqNum w) :
    Called IPredHandled unit.iPred none w.1.iPred (indirectAddr w.2) := by
  refine h.iPred.map (Option.map IndirectHistory.addr) ?_
  rintro iPred iPred' ⟨history, hhist, hmade⟩
  rw [hhist, IPredHandled, Handled, hmade.heap, Option.map_some, hmade.addr]
  exact ⟨.new, hmade.asserted⟩

theorem committed_ras [PCState PC] (h : Committed p tid unit hist w) (hok : RecordOk hist)
    (habsent : unit.ras = none → hist.rasHistory = none) :
    Called RasHandled unit.ras (rasAddr hist) w.1.ras none ∧ w.2.rasHistory = none :=
  h.ras.releases _ habsent fun ras => commit_moves ras _ hist.mispredict hist.type hok.ras

theorem committed_iPred [PCState PC] (h : Committed p tid unit hist w)
    (habsent : unit.iPred = none → hist.indirectHistory = none) :
    Called IPredHandled unit.iPred (indirectAddr hist) w.1.iPred none ∧
      w.2.indirectHistory = none :=
  h.iPred.releases _ habsent fun iPred => iPred_commit_moves p.iPred iPred tid _

theorem squashed_ras (h : Squashed p tid unit hist unit')
    (habsent : unit.ras = none → hist.rasHistory = none) :
    Called RasHandled unit.ras (rasAddr hist) unit'.ras none := by
  obtain ⟨history, hcalled⟩ := h.ras
  exact (hcalled.releases _ habsent fun ras => squash_moves ras tid _).1

theorem squashed_iPred (h : Squashed p tid unit hist unit')
    (habsent : unit.iPred = none → hist.indirectHistory = none) :
    Called IPredHandled unit.iPred (indirectAddr hist) unit'.iPred none := by
  obtain ⟨history, hcalled⟩ := h.iPred
  exact (hcalled.releases _ habsent fun iPred => iPred_squash_moves p.iPred iPred tid _).1

section
variable [NeZero n] [PCState PC] {corr_target : PC} {taken : Bool} {sn : InstSeqNum} {rand : Nat}

theorem corrected_ras (h : Corrected p tid corr_target taken unit hist sn rand w)
    (hok : RecordOk hist) :
    Called RasHandled unit.ras (rasAddr hist) w.1.ras (rasAddr w.2) ∧
      (w.2.rasHistory.isSome = true → hist.type.usesRas = true) := by
  have hmoves := fun ras : ReturnAddrStack PC n =>
    rasCorrection_moves ras tid corr_target taken hist hok.ras
  refine ⟨h.ras.handles RASHistory.addr fun ras => (hmoves ras).1, ?_⟩
  refine h.ras.kept (P := fun h => h.isSome = true → _) (fun _ => hok.ras) fun ras _ hx => ?_
  have huse := (hmoves ras).2
  rwa [show rasCorrection tid corr_target taken hist ras = _ from hx] at huse

theorem corrected_iPred (h : Corrected p tid corr_target taken unit hist sn rand w) :
    Called IPredHandled unit.iPred (indirectAddr hist) w.1.iPred (indirectAddr w.2) :=
  h.iPred.handles _ fun iPred =>
    iPred_update_moves p.iPred iPred tid _ sn true taken corr_target hist.type rand

end

end

end Gem5Core.Pred.Custody
