import Gem5Core.Lib.ShiftRegister
import Gem5Core.Lib.Speculation
import Gem5Core.Pred.Indirect

/-! The histories of the indirect predictor are exact, as long as fewer indirect branches are in
flight than `speculativePathLength` and the sum of the two lengths does not wrap: what is kept of
the path covers the branches in flight and the `pathLength` targets before them. -/
namespace Gem5Core.Pred.IndirectExact
open Branch Indirect Lib.ShiftRegister Lib.Speculation Function List SimpleIndirectPredictor

section

variable {PC : Type} [PCState PC]

/-- `lookedUp`: the indirect predictor was asked for the target first. -/
structure Branch (PC : Type) where
  sn : InstSeqNum
  pc : Addr
  type : BranchType
  lookedUp : Bool
  taken : Bool
  target : PC

structure Outcome (PC : Type) where
  taken : Bool
  target : PC
  rand : Nat

inductive Call (PC : Type) where
  | lookup (pc : Addr) (i_history : Option IndirectHistory)
  | update (sn : InstSeqNum) (squash taken : Bool) (target : PC) (br_type : BranchType)
      (i_history : Option IndirectHistory) (rand : Nat)
  | commit (i_history : Option IndirectHistory)
  | squash (i_history : Option IndirectHistory)

variable (p : Indirect.Params)

def perform (iPred : SimpleIndirectPredictor PC) (tid : ThreadID) :
    Call PC → SimpleIndirectPredictor PC
  | .lookup pc i_history => (iPred.lookup p tid pc i_history).2.1
  | .update sn squash taken target br_type i_history rand =>
      (iPred.update p tid sn squash taken target br_type i_history rand).1
  | .commit i_history => (iPred.commit p tid i_history).1
  | .squash i_history => (iPred.squash p tid i_history).1

def predict (tid : ThreadID) (iPred : SimpleIndirectPredictor PC) (b : Branch PC) :
    SimpleIndirectPredictor PC × Option IndirectHistory :=
  let (iPred, i_history) :=
    if b.lookedUp then (iPred.lookup p tid b.pc none).2 else (iPred, none)
  iPred.update p tid b.sn false b.taken b.target b.type i_history 0

def machine (tid : ThreadID) :
    Machine (SimpleIndirectPredictor PC) (Branch PC) (Option IndirectHistory) (Outcome PC)
      ({ other : ThreadID // other ≠ tid } × Call PC) where
  enter := predict p tid
  amend := fun b outcome => { b with taken := outcome.taken, target := outcome.target }
  correct := fun iPred b i_history outcome =>
    iPred.update p tid b.sn true outcome.taken outcome.target b.type i_history outcome.rand
  undo := fun iPred _ i_history => (iPred.squash p tid i_history).1
  retire := fun iPred _ i_history => (iPred.commit p tid i_history).1
  other := fun iPred call => perform p iPred call.1 call.2

def isIndirect (b : Branch PC) : Bool := isIndirectNoReturn b.type

def outcomes (branches : List (Branch PC)) : List Bool := branches.map Branch.taken

def targets (branches : List (Branch PC)) : List Addr :=
  (branches.filter isIndirect).map fun b => PCState.instAddr b.target

def path (info : ThreadInfo) : List Addr := (info.pathHist.map HistoryEntry.targetAddr).reverse

/-- Fewer than `speculativePathLength` indirect branches are in flight after the
step. -/
def Roomy (tid : ThreadID)
    (st : Lib.Speculation.State (SimpleIndirectPredictor PC) (Branch PC) (Option IndirectHistory))
    (event : Event (Branch PC) (Outcome PC) ({ other : ThreadID // other ≠ tid } × Call PC)) :
    Prop :=
  ((step (machine p tid) st event).inFlight.filter isIndirect).length < p.speculativePathLength

instance (tid : ThreadID)
    (st : Lib.Speculation.State (SimpleIndirectPredictor PC) (Branch PC) (Option IndirectHistory))
    (event : Event (Branch PC) (Outcome PC) ({ other : ThreadID // other ≠ tid } × Call PC)) :
    Decidable (Roomy p tid st event) :=
  inferInstanceAs (Decidable (_ < _))

/-- The histories are those of the surviving branches; of the path at least the
part that the branches in flight and the hash need is kept. -/
structure Holds (tid : ThreadID) (live committed : List (Branch PC))
    (iPred : SimpleIndirectPredictor PC) : Prop where
  ghr : (iPred.threadInfo tid).ghr = window 32 p.ghrNumBits (outcomes (live ++ committed))
  isPrefix : path (iPred.threadInfo tid) <+: targets (live ++ committed)
  covers : min (targets (live ++ committed)).length ((targets live).length + p.pathLength) ≤
    (path (iPred.threadInfo tid)).length

def Restores (older : List (Branch PC)) (b : Branch PC) (i_history : Option IndirectHistory) :
    Prop :=
  ∃ history, i_history = some history ∧ history.ghr = window 32 p.ghrNumBits (outcomes older) ∧
    history.was_indirect = isIndirect b

end

section

variable {PC : Type} {p : Indirect.Params} {iPred : SimpleIndirectPredictor PC}
  {tid : ThreadID}

theorem ghrMask_eq : p.ghrMask = mask 32 p.ghrNumBits := by
  have hwidths : ∀ n, n ≤ 32 → ((1 <<< n : Nat) : BitVec 32) - 1 = BitVec.ofNat 32 (2 ^ n - 1) := by
    decide
  exact hwidths p.ghrNumBits p.ghrNumBits_le

theorem push_ghr {x : BitVec 32} {bits : List Bool} (h : x = window 32 p.ghrNumBits bits)
    (taken : Bool) :
    push x taken &&& mask 32 p.ghrNumBits = window 32 p.ghrNumBits (taken :: bits) := by
  apply push_and_mask
  rw [h]
  exact window_and_mask _ _

private theorem path_pushed (info : ThreadInfo) (entry : HistoryEntry) :
    path { info with pathHist := info.pathHist ++ [entry] } = entry.targetAddr :: path info := by
  simp [path]

theorem path_popped (info : ThreadInfo) :
    path { info with pathHist := info.pathHist.dropLast } = (path info).tail := by
  simp [path, tail_reverse, map_dropLast]

private theorem squash_info (p : Indirect.Params) (iPred : SimpleIndirectPredictor PC)
    (tid : ThreadID) (history : IndirectHistory) :
    ((iPred.squash p tid (some history)).1.threadInfo tid).ghr = history.ghr ∧
      path ((iPred.squash p tid (some history)).1.threadInfo tid) =
        if history.was_indirect then (path (iPred.threadInfo tid)).tail
        else path (iPred.threadInfo tid) := by
  simp only [squash, setInfo,
    update_self]
  cases history.was_indirect
  · exact ⟨rfl, rfl⟩
  · exact ⟨rfl, path_popped (iPred.threadInfo tid)⟩

private theorem commit_info (p : Indirect.Params) (iPred : SimpleIndirectPredictor PC)
    (tid : ThreadID) (history : IndirectHistory) :
    ((iPred.commit p tid (some history)).1.threadInfo tid).ghr = (iPred.threadInfo tid).ghr ∧
      path ((iPred.commit p tid (some history)).1.threadInfo tid) =
        (path (iPred.threadInfo tid)).take
          ((p.pathLength + p.speculativePathLength) % 2 ^ 32 - 1) := by
  simp only [commit, setInfo,
    update_self, path, map_drop, reverse_drop, length_map, true_and]
  rw [take_eq_take_iff, length_reverse, length_map]
  omega

variable [PCState PC]

def updatedInfo (p : Indirect.Params) (sn : InstSeqNum) (squash taken : Bool) (target : PC)
    (br_type : BranchType) (history : IndirectHistory) (info : ThreadInfo) : ThreadInfo :=
  let indirect := isIndirectNoReturn br_type
  let info := if squash then { info with ghr := history.ghr } else info
  let info :=
    if squash && indirect then { info with pathHist := info.pathHist.dropLast } else info
  let info :=
    if indirect then
      { info with pathHist := info.pathHist ++ [⟨history.pcAddr, PCState.instAddr target, sn⟩] }
    else info
  updateDirectionInfo p info taken

section

variable (sn : InstSeqNum) (squash taken : Bool) (target : PC) (br_type : BranchType)
  (history : IndirectHistory)

theorem updatedInfo_ghr (info : ThreadInfo) :
    (updatedInfo p sn squash taken target br_type history info).ghr =
      push (if squash then history.ghr else info.ghr) taken &&& mask 32 p.ghrNumBits := by
  rw [← ghrMask_eq]
  unfold updatedInfo updateDirectionInfo push
  cases squash <;> cases isIndirectNoReturn br_type <;> rfl

theorem updatedInfo_path (info : ThreadInfo) :
    path (updatedInfo p sn squash taken target br_type history info) =
      if isIndirectNoReturn br_type then
        PCState.instAddr target :: (if squash then (path info).tail else path info)
      else path info := by
  unfold updatedInfo updateDirectionInfo
  cases squash <;> cases isIndirectNoReturn br_type
  · rfl
  · exact path_pushed info _
  · rfl
  · exact (path_pushed { info with pathHist := info.pathHist.dropLast } _).trans
      (congrArg _ (path_popped info))

variable (p iPred tid) (rand : Nat)

theorem updateRecord_info :
    (iPred.updateRecord p tid sn squash taken target br_type history rand).1.threadInfo =
      update iPred.threadInfo tid
        (updatedInfo p sn squash taken target br_type history (iPred.threadInfo tid)) := by
  unfold updateRecord updatedInfo
  cases squash <;> cases taken <;> cases isIndirectNoReturn br_type <;>
    simp [setInfo, recordTarget,
      check]

private theorem updateRecord_record :
    (iPred.updateRecord p tid sn squash taken target br_type history rand).2.ghr = history.ghr ∧
      (iPred.updateRecord p tid sn squash taken target br_type history rand).2.was_indirect =
        isIndirectNoReturn br_type := by
  unfold updateRecord
  cases squash <;> cases taken <;> cases isIndirectNoReturn br_type <;>
    exact ⟨rfl, rfl⟩

theorem update_record :
    ∃ iPred' history',
      iPred.update p tid sn squash taken target br_type (some history) rand =
        (iPred', some history') ∧
      iPred'.threadInfo tid =
        updatedInfo p sn squash taken target br_type history (iPred.threadInfo tid) ∧
      history'.ghr = history.ghr ∧
      history'.was_indirect = isIndirectNoReturn br_type := by
  obtain ⟨hghr, hindirect⟩ :=
    updateRecord_record p iPred tid sn squash taken target br_type history rand
  refine ⟨(iPred.updateRecord p tid sn squash taken target br_type history rand).1,
    (iPred.updateRecord p tid sn squash taken target br_type history rand).2, rfl, ?_, hghr,
    hindirect⟩
  rw [updateRecord_info, update_self]

end

variable (p iPred tid) in
theorem perform_other (other : ThreadID) (h : other ≠ tid) (call : Call PC) :
    (perform p iPred other call).threadInfo tid = iPred.threadInfo tid := by
  cases call with
  | lookup pc i_history => rfl
  | update sn squash taken target br_type i_history rand =>
    cases i_history with
    | none =>
      change ((iPred.genIndirectInfo other).1.updateRecord p other sn squash taken target br_type
        (iPred.genIndirectInfo other).2 rand).1.threadInfo tid = _
      rw [updateRecord_info, update_of_ne h.symm]
      rfl
    | some history =>
      change (iPred.updateRecord p other sn squash taken target br_type history rand).1.threadInfo
        tid = _
      rw [updateRecord_info, update_of_ne h.symm]
  | commit i_history =>
    cases i_history with
    | none => rfl
    | some history => exact update_of_ne h.symm _ _
  | squash i_history =>
    cases i_history with
    | none => rfl
    | some history =>
      simp only [perform, squash, setInfo]
      rw [update_of_ne h.symm]
      split <;> rfl

end

section

variable {PC : Type} [PCState PC] {p : Indirect.Params} {tid : ThreadID}
  {iPred : SimpleIndirectPredictor PC} {live committed older : List (Branch PC)} {b : Branch PC}

theorem targets_cons (b : Branch PC) (branches : List (Branch PC)) :
    targets (b :: branches) =
      if isIndirect b then PCState.instAddr b.target :: targets branches else targets branches := by
  unfold targets
  cases h : isIndirect b <;> simp [h]

private theorem targets_append (branches branches' : List (Branch PC)) :
    targets (branches ++ branches') = targets branches ++ targets branches' := by
  simp [targets]

theorem Holds.cons {iPred' : SimpleIndirectPredictor PC}
    (hghr : (iPred'.threadInfo tid).ghr =
      window 32 p.ghrNumBits (b.taken :: outcomes (live ++ committed)))
    {rest : List Addr}
    (hpath : path (iPred'.threadInfo tid) =
      if isIndirect b then PCState.instAddr b.target :: rest else rest)
    (hpre : rest <+: targets (live ++ committed))
    (hcovers : min (targets (live ++ committed)).length ((targets live).length + p.pathLength) ≤
      rest.length) : Holds p tid (b :: live) committed iPred' := by
  refine ⟨hghr, ?_, ?_⟩
  · rw [hpath, cons_append, targets_cons]
    split
    · exact prefix_cons_inj _ |>.mpr hpre
    · exact hpre
  · rw [hpath, cons_append, targets_cons, targets_cons]
    split
    · simp only [length_cons]
      omega
    · exact hcovers

theorem Holds.tail (h : Holds p tid (b :: live) committed iPred) {rest : List Addr}
    (hrest : rest = if isIndirect b then (path (iPred.threadInfo tid)).tail
      else path (iPred.threadInfo tid)) :
    rest <+: targets (live ++ committed) ∧
      min (targets (live ++ committed)).length ((targets live).length + p.pathLength) ≤
        rest.length := by
  obtain ⟨-, hpre, hcovers⟩ := h
  rw [cons_append, targets_cons] at hpre hcovers
  rw [targets_cons] at hcovers
  subst hrest
  split at hpre
  · rename_i hindirect
    rw [if_pos hindirect] at hcovers ⊢
    rw [if_pos hindirect] at hcovers
    simp only [length_cons] at hcovers
    refine ⟨?_, ?_⟩
    · obtain hnil | ⟨rest, hcons, hrest⟩ := prefix_cons_iff.mp hpre
      · simp [hnil]
      · rw [hcons]
        exact hrest
    · rw [length_tail]
      omega
  · rename_i hdirect
    rw [if_neg hdirect] at hcovers ⊢
    rw [if_neg hdirect] at hcovers
    exact ⟨hpre, hcovers⟩

private theorem take_of_covers {kept all : List Addr} {inFlight n : Nat} (hpre : kept <+: all)
    (hcovers : min all.length (inFlight + n) ≤ kept.length) : kept.take n = all.take n := by
  obtain ⟨rest, rfl⟩ := hpre
  rw [length_append] at hcovers
  have hnone : rest.take (n - kept.length) = [] := by
    rw [take_eq_nil_iff, ← length_eq_zero_iff]
    omega
  rw [take_append, hnone, append_nil]

theorem predict_spec (p : Indirect.Params) (tid : ThreadID) (iPred : SimpleIndirectPredictor PC)
    (b : Branch PC) :
    ∃ iPred' history, predict p tid iPred b = (iPred', some history) ∧
      (iPred'.threadInfo tid).ghr =
        push (iPred.threadInfo tid).ghr b.taken &&& mask 32 p.ghrNumBits ∧
      path (iPred'.threadInfo tid) =
        (if isIndirect b then PCState.instAddr b.target :: path (iPred.threadInfo tid)
          else path (iPred.threadInfo tid)) ∧
      history.ghr = (iPred.threadInfo tid).ghr ∧ history.was_indirect = isIndirect b := by
  have hnew : ∀ (iPred' : SimpleIndirectPredictor PC) (history : IndirectHistory),
      iPred'.threadInfo tid = iPred.threadInfo tid → history.ghr = (iPred.threadInfo tid).ghr →
      ∃ iPred'' history', iPred'.update p tid b.sn false b.taken b.target b.type (some history) 0 =
        (iPred'', some history') ∧
        (iPred''.threadInfo tid).ghr =
          push (iPred.threadInfo tid).ghr b.taken &&& mask 32 p.ghrNumBits ∧
        path (iPred''.threadInfo tid) =
          (if isIndirect b then PCState.instAddr b.target :: path (iPred.threadInfo tid)
            else path (iPred.threadInfo tid)) ∧
        history'.ghr = (iPred.threadInfo tid).ghr ∧ history'.was_indirect = isIndirect b := by
    intro iPred' history hinfo hghr
    obtain ⟨iPred'', history', hupdate, hinfo', hghr', hindirect⟩ :=
      update_record p iPred' tid b.sn false b.taken b.target b.type history 0
    refine ⟨iPred'', history', hupdate, ?_, ?_, hghr'.trans hghr, hindirect⟩
    · rw [hinfo', updatedInfo_ghr, hinfo]
      rfl
    · rw [hinfo', updatedInfo_path, hinfo]
      rfl
  unfold predict
  cases b.lookedUp with
  | true => exact hnew _ _ rfl rfl
  | false => exact hnew (iPred.genIndirectInfo tid).1 (iPred.genIndirectInfo tid).2 rfl rfl

theorem predict_exact (h : Holds p tid live committed iPred) (b : Branch PC) :
    Holds p tid (b :: live) committed (predict p tid iPred b).1 ∧
      Restores p (live ++ committed) b (predict p tid iPred b).2 := by
  obtain ⟨iPred', history, hpredict, hghr, hpath, hsaved, hindirect⟩ :=
    predict_spec p tid iPred b
  rw [hpredict]
  refine ⟨Holds.cons ?_ hpath h.isPrefix h.covers, history, rfl, ?_, hindirect⟩
  · rw [hghr]
    exact push_ghr h.ghr b.taken
  · rw [hsaved]
    exact h.ghr

variable {i_history : Option IndirectHistory}

theorem correct_exact (h : Holds p tid (b :: live) committed iPred)
    (hrestores : Restores p (live ++ committed) b i_history) (outcome : Outcome PC) :
    Holds p tid ({ b with taken := outcome.taken, target := outcome.target } :: live) committed
        ((machine p tid).correct iPred b i_history outcome).1 ∧
      Restores p (live ++ committed)
        { b with taken := outcome.taken, target := outcome.target }
        ((machine p tid).correct iPred b i_history outcome).2 := by
  obtain ⟨history, rfl, hghr, -⟩ := hrestores
  obtain ⟨iPred', history', hupdate, hinfo, hghr', hindirect'⟩ :=
    update_record p iPred tid b.sn true outcome.taken outcome.target b.type history outcome.rand
  have hcorrect : (machine p tid).correct iPred b (some history) outcome =
      (iPred', some history') := hupdate
  obtain ⟨hpre, hcovers⟩ := h.tail rfl
  rw [hcorrect]
  refine ⟨Holds.cons ?_ ?_ hpre hcovers, history', rfl, hghr'.trans hghr, hindirect'⟩
  · rw [hinfo, updatedInfo_ghr]
    exact push_ghr hghr outcome.taken
  · rw [hinfo, updatedInfo_path]
    unfold isIndirect
    split <;> rfl

theorem squash_exact (h : Holds p tid (b :: live) committed iPred)
    (hrestores : Restores p (live ++ committed) b i_history) :
    Holds p tid live committed (iPred.squash p tid i_history).1 := by
  obtain ⟨history, rfl, hghr, hindirect⟩ := hrestores
  obtain ⟨hghr', hpath⟩ := squash_info p iPred tid history
  rw [hindirect] at hpath
  obtain ⟨hpre, hcovers⟩ := h.tail hpath
  exact ⟨hghr'.trans hghr, hpre, hcovers⟩

theorem commit_exact (hsum : p.pathLength + p.speculativePathLength < 2 ^ 32)
    (h : Holds p tid (live ++ [b]) committed iPred)
    (hrestores : Restores p committed b i_history)
    (hroom : (targets live).length < p.speculativePathLength) :
    Holds p tid live (b :: committed) (iPred.commit p tid i_history).1 := by
  obtain ⟨history, rfl, -, -⟩ := hrestores
  obtain ⟨hghr, hpath⟩ := commit_info p iPred tid history
  obtain ⟨hghr', hpre, hcovers⟩ := h
  rw [append_assoc, singleton_append] at hghr' hpre hcovers
  rw [targets_append live [b]] at hcovers
  refine ⟨hghr.trans hghr', ?_, ?_⟩
  · rw [hpath]
    exact ( take_prefix _ _).trans hpre
  · rw [hpath, length_take]
    rw [length_append] at hcovers
    omega

theorem machine_exact (hsum : p.pathLength + p.speculativePathLength < 2 ^ 32) :
    Exact (machine p tid) (Holds p tid) (Restores p : List (Branch PC) → _ → _ → Prop)
      (Roomy p tid) where
  enter := fun b h _ => predict_exact h b
  correct := fun outcome h hrestores _ => correct_exact h hrestores outcome
  undo := fun h hrestores _ => squash_exact h hrestores
  retire := by
    intro iPred b i_history rest committed h hrestores hroomy
    apply commit_exact hsum h hrestores
    unfold Roomy at hroomy
    rw [step_retire _ List.getLast?_concat, State.inFlight] at hroomy
    simpa [targets] using hroomy
  other := by
    intro iPred live committed call h _
    have hinfo : ((machine p tid).other iPred call).threadInfo tid = iPred.threadInfo tid :=
      perform_other p iPred tid call.1 call.1.property call.2
    refine ⟨?_, ?_, ?_⟩ <;> rw [hinfo]
    exacts [h.ghr, h.isPrefix, h.covers]

end

/-- If the sum of the two lengths fits an `unsigned`: after every run with fewer than
`speculativePathLength` indirect branches in flight, the register holds the outcomes of the surviving branches and the newest
entries of the path are the targets of the surviving indirect ones. -/
theorem indirect_histories_exact {PC : Type} [PCState PC] {p : Indirect.Params} {tid : ThreadID}
    (hsum : p.pathLength + p.speculativePathLength < 2 ^ 32)
    {events : List (Event (Branch PC) (Outcome PC) ({ other : ThreadID // other ≠ tid } × Call PC))}
    (hroomy : Legal (machine p tid) (Roomy p tid) (.init p) events) :
    let st := run (machine p tid) (.init p) events
    (st.history.threadInfo tid).ghr = window 32 p.ghrNumBits (outcomes st.survivors) ∧
      (path (st.history.threadInfo tid)).take p.pathLength =
        (targets st.survivors).take p.pathLength := by
  have hstart : Holds p tid [] [] (.init p : SimpleIndirectPredictor PC) :=
    ⟨(window_nil _).symm, List.nil_prefix, Nat.zero_le _⟩
  obtain ⟨⟨hghr, hpre, hcovers⟩, -⟩ := (machine_exact hsum).run_inv hstart hroomy
  exact ⟨hghr, take_of_covers hpre hcovers⟩

def jumps :
    List (Event (Branch Addr) (Outcome Addr) ({ other : ThreadID // other ≠ 0 } × Call Addr)) :=
  [.enter ⟨1, 0x100, .indirectUncond, true, true, 0x200⟩, .correct ⟨true, 0x300, 0⟩,
    .enter ⟨2, 0x300, .callIndirect, false, true, 0x400⟩,
    .enter ⟨3, 0x400, .directCond, false, false, 0x404⟩, .undo, .undo, .retire]

theorem indirect_histories_exact_jumps :
    Legal (machine .defaults 0) (Roomy .defaults 0) (.init .defaults) jumps ∧
      (path ((run (machine .defaults 0) (.init .defaults) jumps).history.threadInfo 0)).take 3 =
        [0x300] :=
  ⟨by decide, (indirect_histories_exact (p := .defaults) (by decide) (by decide)).2⟩

/-- As many entries as an `unsigned` can ask for. -/
def unlimited : Indirect.Params := { Params.defaults with speculativePathLength := 2 ^ 32 - 1 }

/-- The sum wraps to two, and the first commit trims the path to the newest of three entries. -/
theorem unlimited_not_exact :
    let events := [.enter ⟨1, 0x100, .indirectUncond, true, true, 0x200⟩,
      .enter ⟨2, 0x200, .indirectUncond, true, true, 0x300⟩,
      .enter ⟨3, 0x300, .indirectUncond, true, true, 0x400⟩, .retire]
    let st := run (machine unlimited 0) (.init unlimited) events
    Legal (machine unlimited 0) (Roomy unlimited 0)
      (.init unlimited : SimpleIndirectPredictor Addr) events ∧
    (targets st.survivors).take unlimited.pathLength = [0x400, 0x300, 0x200] ∧
    path (st.history.threadInfo 0) = [0x400] := by
  decide +kernel

end Gem5Core.Pred.IndirectExact
