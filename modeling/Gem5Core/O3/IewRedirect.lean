import Gem5Core.Lib.RunningLeast
import Gem5Core.Pred.Branch

/-! How the execute stage collects redirects (`IEW::executeInsts` in `cpu/o3/iew.cc`). Of all
mispredicted branches and memory order violators of a cycle one squash goes to commit. -/
namespace Gem5Core.O3.Iew
open Pred.Branch Lib.RunningLeast

variable {PC : Type}

/-- `advancePC` is the PC that the static instruction makes of `pcState`. -/
structure DynInst (PC : Type) where
  seqNum : InstSeqNum
  threadNumber : ThreadID := 0
  pcState : PC
  advancePC : PC
  branching : Bool := false
  isSquashed : Bool := false
  isLoad : Bool := false
  isStore : Bool := false
  isAtomic : Bool := false

def DynInst.isMemRef (inst : DynInst PC) : Bool := inst.isLoad || inst.isStore || inst.isAtomic

/-- `deferred` stands for a delayed translation without a fault; `violator` is the load that the LSQ
finds to have passed the instruction. -/
structure Outcome (PC : Type) where
  deferred : Bool := false
  isExecuted : Bool := true
  mispredicted : Bool := false
  violator : Option (DynInst PC) := none

/-- A load that has not been executed is not tested. -/
def Outcome.isMispredicted (o : Outcome PC) (inst : DynInst PC) : Bool :=
  let loadNotExecuted := !o.isExecuted && inst.isLoad
  o.mispredicted && !loadNotExecuted

structure Squash (PC : Type) where
  squash : Bool := false
  squashedSeqNum : InstSeqNum := 0
  branchTaken : Bool := false
  pc : Option PC := none
  mispredictInst : Option (DynInst PC) := none
  includeSquashInst : Bool := false

def squashDueToBranch (toCommit : Squash PC) (inst : DynInst PC) : Squash PC :=
  if !toCommit.squash || inst.seqNum < toCommit.squashedSeqNum then
    { squash := true
      squashedSeqNum := inst.seqNum
      branchTaken := inst.branching
      pc := some inst.advancePC
      mispredictInst := some inst
      includeSquashInst := false }
  else toCommit

def squashDueToMemOrder (toCommit : Squash PC) (inst : DynInst PC) : Squash PC :=
  if !toCommit.squash || inst.seqNum ≤ toCommit.squashedSeqNum then
    { toCommit with
      squash := true
      squashedSeqNum := inst.seqNum
      pc := some inst.pcState
      mispredictInst := none
      includeSquashInst := true }
  else toCommit

/-- What the stage and the LSQ keep for a thread. `asserts` is false once an assertion would
have failed. -/
structure Thread (PC : Type) where
  fetchRedirect : Bool := false
  toCommit : Squash PC := {}
  memDepViolator : Option (DynInst PC) := none
  asserts : Bool := true

/-- The LSQ keeps the oldest violator until it is read (`LSQUnit::checkViolations`). -/
def report (memDepViolator violator : Option (DynInst PC)) : Option (DynInst PC) :=
  keep DynInst.seqNum memDepViolator violator

def checkRedirect (t : Thread PC) (inst : DynInst PC) (o : Outcome PC) : Thread PC :=
  if !t.fetchRedirect || !t.toCommit.squash || inst.seqNum < t.toCommit.squashedSeqNum then
    if o.isMispredicted inst then
      { t with fetchRedirect := true, toCommit := squashDueToBranch t.toCommit inst }
    else
      match t.memDepViolator with
      | none => t
      | some violator =>
          { fetchRedirect := true
            toCommit := squashDueToMemOrder t.toCommit violator
            memDepViolator := none
            asserts := t.asserts && inst.isMemRef }
  else
    match t.memDepViolator with
    | none => t
    | some _ => { t with memDepViolator := none, asserts := t.asserts && inst.isMemRef }

/-- The same check when a load completes. -/
def checkMisprediction (t : Thread PC) (inst : DynInst PC) (mispredicted : Bool) : Thread PC :=
  if !t.fetchRedirect || !t.toCommit.squash || inst.seqNum < t.toCommit.squashedSeqNum then
    if mispredicted then
      { t with fetchRedirect := true, toCommit := squashDueToBranch t.toCommit inst }
    else t
  else t

def executeInst (t : Thread PC) (inst : DynInst PC) (o : Outcome PC) : Thread PC :=
  if inst.isSquashed then t
  else if inst.isMemRef then
    if o.deferred then t
    else checkRedirect { t with memDepViolator := report t.memDepViolator o.violator } inst o
  else checkRedirect t inst o

def executeThread (threads : ThreadID → Thread PC) (e : DynInst PC × Outcome PC) :
    ThreadID → Thread PC :=
  Function.update threads e.1.threadNumber (executeInst (threads e.1.threadNumber) e.1 e.2)

def clearRedirects (activeThreads : List ThreadID) (threads : ThreadID → Thread PC)
    (tid : ThreadID) : Thread PC :=
  if tid ∈ activeThreads then { threads tid with fetchRedirect := false } else threads tid

def executeInsts (activeThreads : List ThreadID) (threads : ThreadID → Thread PC)
    (insts : List (DynInst PC × Outcome PC)) : ThreadID → Thread PC :=
  insts.foldl executeThread (clearRedirects activeThreads threads)

section

/-- A request to squash: all instructions after a branch, or a violator and all after it. -/
inductive Request (PC : Type)
  | branch (inst : DynInst PC)
  | violator (inst : DynInst PC)

namespace Request

def inst : Request PC → DynInst PC
  | branch inst => inst
  | violator inst => inst

def includeSquashInst : Request PC → Bool
  | branch _ => false
  | violator _ => true

def pc : Request PC → PC
  | branch inst => inst.advancePC
  | violator inst => inst.pcState

def mispredictInst : Request PC → Option (DynInst PC)
  | branch inst => some inst
  | violator _ => none

/-- The older instruction comes first, and of one instruction the violation. -/
def Before (r r' : Request PC) : Prop :=
  r.inst.seqNum < r'.inst.seqNum ∨
    r.inst.seqNum = r'.inst.seqNum ∧ (r.includeSquashInst = true ∨ r'.includeSquashInst = false)

def Removes (r : Request PC) (sn : InstSeqNum) : Prop :=
  if r.includeSquashInst then r.inst.seqNum ≤ sn else r.inst.seqNum < sn

theorem Before.refl (r : Request PC) : r.Before r := by
  refine .inr ⟨rfl, ?_⟩
  cases r.includeSquashInst <;> simp

theorem Before.trans {r r' r'' : Request PC} (h : r.Before r') (h' : r'.Before r'') :
    r.Before r'' := by
  unfold Before at *
  grind

theorem Before.branch {r : Request PC} {inst : DynInst PC} (hle : r.inst.seqNum ≤ inst.seqNum) :
    r.Before (.branch inst) :=
  hle.lt_or_eq.imp id fun heq => ⟨heq, .inr rfl⟩

theorem Before.violator {r : Request PC} {inst : DynInst PC} (hle : inst.seqNum ≤ r.inst.seqNum) :
    (Request.violator inst).Before r :=
  hle.lt_or_eq.imp id fun heq => ⟨heq, .inl rfl⟩

theorem Before.removes {r r' : Request PC} (h : r.Before r') (hother : ¬ r'.Before r) :
    r.Removes r'.inst.seqNum := by
  unfold Before at h hother
  unfold Removes
  grind

end Request

def requestsOf (inst : DynInst PC) (o : Outcome PC) : List (Request PC) :=
  if inst.isSquashed || (inst.isMemRef && o.deferred) then []
  else
    (if o.isMispredicted inst then [.branch inst] else []) ++
      (if inst.isMemRef then o.violator.toList.map .violator else [])

def requests (tid : ThreadID) (insts : List (DynInst PC × Outcome PC)) : List (Request PC) :=
  (insts.filter (·.1.threadNumber = tid)).flatMap fun (inst, o) => requestsOf inst o

structure Squash.Carries (c : Squash PC) (r : Request PC) : Prop where
  squash : c.squash = true
  squashedSeqNum : c.squashedSeqNum = r.inst.seqNum
  pc : c.pc = some r.pc
  mispredictInst : c.mispredictInst = r.mispredictInst
  includeSquashInst : c.includeSquashInst = r.includeSquashInst

/-- The first of a set of requests goes to commit, if there are any. -/
inductive Squash.First (c : Squash PC) (S : Set (Request PC)) : Prop
  | none (hnone : c.squash = false) (hS : S = ∅)
  | some (r : Request PC) (hr : r ∈ S) (hcarries : c.Carries r) (hfirst : ∀ r' ∈ S, r.Before r')

namespace Squash.First

variable {c : Squash PC} {S T : Set (Request PC)}

private theorem replace {r : Request PC} (hcarries : c.Carries r) (hfirst : ∀ r' ∈ S, r.Before r') :
    c.First (insert r S) := by
  refine .some r (Set.mem_insert r S) hcarries ?_
  rintro r' (rfl | hr')
  · exact .refl r'
  · exact hfirst r' hr'

section

variable (h : c.First S)
include h

theorem union (hafter : ∀ r' ∈ T, ∃ r ∈ S, r.Before r') : c.First (S ∪ T) := by
  cases h with
  | none hnone hS =>
    have hT : T = ∅ := by
      refine Set.eq_empty_of_forall_notMem fun r' hr' => ?_
      obtain ⟨r, hr, -⟩ := hafter r' hr'
      rw [hS] at hr
      exact hr
    exact .none hnone (by rw [hS, hT, Set.union_empty])
  | some r hr hcarries hfirst =>
    refine .some r (.inl hr) hcarries ?_
    rintro r' (hr' | hr')
    · exact hfirst r' hr'
    · obtain ⟨r'', hr'', hbefore⟩ := hafter r' hr'
      exact (hfirst r'' hr'').trans hbefore

private theorem insert {r r' : Request PC} (hr : r ∈ S) (hbefore : r.Before r') :
    c.First (insert r' S) := by
  rw [Set.insert_eq, Set.union_comm]
  refine h.union fun r'' hr'' => ?_
  rw [Set.mem_singleton_iff.mp hr'']
  exact ⟨r, hr, hbefore⟩

theorem exists_carries (hsquash : c.squash = true) :
    ∃ r ∈ S, c.Carries r ∧ ∀ r' ∈ S, r.Before r' := by
  cases h with
  | none hnone _ =>
    rw [hnone] at hsquash
    cases hsquash
  | some r hr hcarries hfirst => exact ⟨r, hr, hcarries, hfirst⟩

private theorem eq_empty (hsquash : c.squash = false) : S = ∅ := by
  cases h with
  | none _ hS => exact hS
  | some r _ hcarries _ =>
    rw [hcarries.squash] at hsquash
    cases hsquash

theorem union_of_le (hsquash : c.squash = true) {inst : DynInst PC}
    (hle : c.squashedSeqNum ≤ inst.seqNum)
    (hT : ∀ r ∈ T, r = .branch inst ∨ inst.seqNum < r.inst.seqNum) : c.First (S ∪ T) := by
  obtain ⟨r, hr, hcarries, -⟩ := h.exists_carries hsquash
  rw [hcarries.squashedSeqNum] at hle
  refine h.union fun r' hr' => ⟨r, hr, ?_⟩
  rcases hT r' hr' with rfl | hlt
  · exact .branch hle
  · exact .inl (lt_of_le_of_lt hle hlt)

/-- A request that replaces the carried one comes before it, and one that does not after it. -/
theorem request {c' : Squash PC} {r : Request PC} {wins : Bool} (hcarries : c'.Carries r)
    (hbefore : ∀ r' : Request PC, c.squashedSeqNum = r'.inst.seqNum →
      if wins then r.Before r' else r'.Before r) :
    (if !c.squash || wins then c' else c).First (Insert.insert r S) := by
  cases hsquash : c.squash with
  | false =>
    rw [h.eq_empty hsquash]
    exact .replace hcarries fun r' hr' => absurd hr' (Set.notMem_empty r')
  | true =>
    obtain ⟨r', hr', hcarries', hfirst⟩ := h.exists_carries hsquash
    have hr := hbefore r' hcarries'.squashedSeqNum
    cases wins with
    | false => exact h.insert hr' hr
    | true => exact .replace hcarries fun r'' hr'' => Request.Before.trans hr (hfirst r'' hr'')

theorem branch (inst : DynInst PC) :
    (squashDueToBranch c inst).First (Insert.insert (.branch inst) S) := by
  refine h.request ⟨rfl, rfl, rfl, rfl, rfl⟩ fun r' heq => ?_
  rw [heq]
  split
  next hlt => exact .inl (of_decide_eq_true hlt)
  next hlt => exact .branch (not_lt.mp (of_decide_eq_false (Bool.eq_false_of_not_eq_true hlt)))

private theorem violator (inst : DynInst PC) :
    (squashDueToMemOrder c inst).First (Insert.insert (.violator inst) S) := by
  refine h.request ⟨rfl, rfl, rfl, rfl, rfl⟩ fun r' heq => ?_
  rw [heq]
  split
  next hle => exact .violator (of_decide_eq_true hle)
  next hle => exact .inl (not_le.mp (of_decide_eq_false (Bool.eq_false_of_not_eq_true hle)))

end

end Squash.First

end

section

variable {t : Thread PC} {S R : Set (Request PC)} {inst : DynInst PC} {o : Outcome PC}

def Younger (inst : DynInst PC) (o : Outcome PC) : Prop :=
  ∀ v, o.violator = some v → inst.seqNum < v.seqNum

structure Raised (t : Thread PC) (inst : DynInst PC) (o : Outcome PC) (R : Set (Request PC)) :
    Prop where
  branch : o.isMispredicted inst = true → .branch inst ∈ R
  cases : ∀ r ∈ R, (o.isMispredicted inst = true ∧ r = .branch inst) ∨
    ∃ v w, r = .violator w ∧ inst.seqNum < w.seqNum ∧ t.memDepViolator = some v ∧
      v.seqNum ≤ w.seqNum

/-- The first of all requests goes to commit, and a violator that the LSQ still holds is one of
them. -/
structure Inv (t : Thread PC) (S : Set (Request PC)) : Prop where
  first : t.toCommit.First S
  pending : ∀ v, t.memDepViolator = some v → .violator v ∈ S

theorem squash_of_not_guard (hguard : ¬ (!t.fetchRedirect || !t.toCommit.squash ||
    decide (inst.seqNum < t.toCommit.squashedSeqNum)) = true) :
    t.toCommit.squash = true ∧ t.toCommit.squashedSeqNum ≤ inst.seqNum := by
  simp only [Bool.or_eq_true, Bool.not_eq_true', decide_eq_true_eq, not_or, not_lt] at hguard
  exact ⟨by simpa using hguard.1.2, hguard.2⟩

theorem checkMisprediction_inv (h : Inv t S) (mispredicted : Bool) :
    Inv (checkMisprediction t inst mispredicted)
      (S ∪ {r | mispredicted = true ∧ r = .branch inst}) := by
  cases mispredicted with
  | false =>
    have hsame : checkMisprediction t inst false = t := by
      rw [checkMisprediction]
      split <;> rfl
    rw [hsame]
    simpa using h
  | true =>
    rw [checkMisprediction]
    split
    next =>
      have hset : S ∪ {r | true = true ∧ r = .branch inst} = insert (.branch inst) S := by
        ext r
        simp [or_comm]
      rw [hset]
      exact ⟨h.first.branch inst, fun v hv => .inr (h.pending v hv)⟩
    next hguard =>
      obtain ⟨hsquash, hle⟩ := squash_of_not_guard hguard
      exact ⟨h.first.union_of_le hsquash hle fun r hr => .inl hr.2, fun v hv => .inl (h.pending v hv)⟩

theorem checkRedirect_inv (hfirst : t.toCommit.First S) (hraised : Raised t inst o R)
    (hpending : ∀ v, t.memDepViolator = some v → .violator v ∈ S ∪ R) :
    Inv (checkRedirect t inst o) (S ∪ R) := by
  rw [checkRedirect]
  split
  next =>
    by_cases hmis : o.isMispredicted inst = true
    · rw [if_pos hmis]
      -- the branch comes before the violators of its instruction, which stay in the LSQ
      refine ⟨?_, hpending⟩
      have hbranch := hraised.branch hmis
      have hset : S ∪ R = insert (.branch inst) S ∪ R := by
        rw [Set.insert_union, Set.insert_eq_of_mem (.inr hbranch)]
      rw [hset]
      refine (hfirst.branch inst).union fun r hr => ⟨_, Set.mem_insert _ _, ?_⟩
      rcases hraised.cases r hr with ⟨-, rfl⟩ | ⟨v, w, rfl, hlt, -⟩
      · exact .refl _
      · exact .inl hlt
    · rw [if_neg hmis]
      cases hviolator : t.memDepViolator with
      | none =>
        have hR : R = ∅ := by
          refine Set.eq_empty_of_forall_notMem fun r hr => ?_
          rcases hraised.cases r hr with ⟨h, -⟩ | ⟨v, w, -, -, hv, -⟩
          · exact hmis h
          · rw [hviolator] at hv
            cases hv
        rw [hR, Set.union_empty]
        exact ⟨hfirst, fun v hv => by rw [hviolator] at hv; cases hv⟩
      | some v =>
        refine ⟨?_, fun v' hv' => by cases hv'⟩
        have hset : S ∪ R = insert (.violator v) S ∪ R := by
          rw [Set.insert_union, Set.insert_eq_of_mem (hpending v hviolator)]
        rw [hset]
        refine (hfirst.violator v).union fun r hr => ⟨_, Set.mem_insert _ _, ?_⟩
        rcases hraised.cases r hr with ⟨h, -⟩ | ⟨v', w, rfl, -, hv', hle⟩
        · exact absurd h hmis
        · rw [hviolator] at hv'
          cases hv'
          exact .violator hle
  next hguard =>
    obtain ⟨hsquash, hle⟩ := squash_of_not_guard hguard
    have hunion : t.toCommit.First (S ∪ R) := by
      refine hfirst.union_of_le hsquash hle fun r hr => ?_
      rcases hraised.cases r hr with ⟨-, rfl⟩ | ⟨v, w, rfl, hlt, -⟩
      · exact .inl rfl
      · exact .inr hlt
    cases hviolator : t.memDepViolator with
    | none => exact ⟨hunion, fun v hv => by rw [hviolator] at hv; cases hv⟩
    | some v => exact ⟨hunion, fun v' hv' => by cases hv'⟩

private theorem mem_requestsOf {r : Request PC} (hsquashed : inst.isSquashed = false)
    (hdeferred : (inst.isMemRef && o.deferred) = false) :
    r ∈ requestsOf inst o ↔ (o.isMispredicted inst = true ∧ r = .branch inst) ∨
      inst.isMemRef = true ∧ ∃ w, o.violator = some w ∧ r = .violator w := by
  rw [requestsOf, hsquashed, hdeferred]
  cases o.isMispredicted inst <;> cases inst.isMemRef <;> simp [eq_comm]

theorem executeInst_inv (h : Inv t S) (hyounger : Younger inst o) :
    Inv (executeInst t inst o) (S ∪ {r | r ∈ requestsOf inst o}) := by
  rw [executeInst]
  cases hsquashed : inst.isSquashed with
  | true => simpa [requestsOf, hsquashed] using h
  | false =>
    cases hmem : inst.isMemRef with
    | false =>
      have hrequests := fun r => mem_requestsOf (r := r) (o := o) hsquashed (by rw [hmem]; rfl)
      refine checkRedirect_inv h.first ⟨fun hmis => (hrequests _).mpr (.inl ⟨hmis, rfl⟩), ?_⟩
        fun v hv => .inl (h.pending v hv)
      intro r hr
      rcases (hrequests r).mp hr with hbranch | ⟨hmem', -⟩
      · exact .inl hbranch
      · rw [hmem] at hmem'
        cases hmem'
    | true =>
      cases hdeferred : o.deferred with
      | true => simpa [requestsOf, hmem, hdeferred] using h
      | false =>
        have hrequests := fun r =>
          mem_requestsOf (r := r) (o := o) hsquashed (by rw [hdeferred, Bool.and_false])
        refine checkRedirect_inv (t := { t with memDepViolator := report t.memDepViolator o.violator })
          h.first ⟨fun hmis => (hrequests _).mpr (.inl ⟨hmis, rfl⟩), ?_⟩ ?_
        · intro r hr
          rcases (hrequests r).mp hr with hbranch | ⟨-, w, hw, rfl⟩
          · exact .inl hbranch
          · obtain ⟨v, hreport, hle, -⟩ := keep_some DynInst.seqNum t.memDepViolator w
            exact .inr ⟨v, w, rfl, hyounger w hw, by rw [hw, report, hreport], hle⟩
        · intro v hv
          cases hw : o.violator with
          | none =>
            rw [hw] at hv
            exact .inl (h.pending v hv)
          | some w =>
            obtain ⟨v', hreport, -, hcases⟩ := keep_some DynInst.seqNum t.memDepViolator w
            rw [hw, report, hreport] at hv
            cases hv
            rcases hcases with hold | rfl
            · exact .inl (h.pending v hold)
            · exact .inr ((hrequests _).mpr (.inr ⟨hmem, v, hw, rfl⟩))

def Clear (t : Thread PC) : Prop := t.memDepViolator = none ∧ t.asserts = true

def NotBoth (inst : DynInst PC) (o : Outcome PC) : Prop :=
  o.isMispredicted inst = true → o.violator = none

private theorem checkRedirect_clear (hasserts : t.asserts = true)
    (hviolator : t.memDepViolator ≠ none → inst.isMemRef = true ∧ o.isMispredicted inst = false) :
    Clear (checkRedirect t inst o) := by
  rw [checkRedirect]
  cases hv : t.memDepViolator with
  | none =>
    split
    · split
      · exact ⟨rfl, hasserts⟩
      · exact ⟨hv, hasserts⟩
    · exact ⟨hv, hasserts⟩
  | some v =>
    obtain ⟨hmem, hmis⟩ := hviolator (by rw [hv]; exact Option.some_ne_none v)
    split
    · rw [hmis]
      exact ⟨rfl, by simp [hasserts, hmem]⟩
    · exact ⟨rfl, by simp [hasserts, hmem]⟩

private theorem executeInst_clear (h : Clear t) (hboth : NotBoth inst o) :
    Clear (executeInst t inst o) := by
  rw [executeInst]
  split
  · exact h
  split
  next hmem =>
    split
    · exact h
    · refine checkRedirect_clear h.2 fun hviolator => ⟨hmem, ?_⟩
      cases hmis : o.isMispredicted inst with
      | false => rfl
      | true =>
        rw [h.1, hboth hmis] at hviolator
        exact absurd rfl hviolator
  · exact checkRedirect_clear h.2 fun hviolator => absurd h.1 hviolator

end

section

variable {insts : List (DynInst PC × Outcome PC)} {tid : ThreadID}

private theorem foldl_executeThread (threads : ThreadID → Thread PC)
    (insts : List (DynInst PC × Outcome PC)) (tid : ThreadID) :
    insts.foldl executeThread threads tid =
      (insts.filter (·.1.threadNumber = tid)).foldl (fun t e => executeInst t e.1 e.2)
        (threads tid) := by
  induction insts generalizing threads with
  | nil => rfl
  | cons e insts ih =>
    rw [List.foldl_cons, ih]
    by_cases htid : e.1.threadNumber = tid
    · subst htid
      rw [List.filter_cons_of_pos (by simp), List.foldl_cons, executeThread, Function.update_self]
    · rw [List.filter_cons_of_neg (by simpa using htid), executeThread,
        Function.update_of_ne (Ne.symm htid)]

theorem foldl_inv {t : Thread PC} {S : Set (Request PC)} (h : Inv t S)
    (hyounger : ∀ e ∈ insts, Younger e.1 e.2) :
    Inv (insts.foldl (fun t e => executeInst t e.1 e.2) t)
      (S ∪ {r | r ∈ insts.flatMap fun e => requestsOf e.1 e.2}) := by
  induction insts generalizing t S with
  | nil => simpa using h
  | cons e insts ih =>
    have hstep := executeInst_inv h (hyounger e List.mem_cons_self)
    have hrest := ih hstep fun e' he' => hyounger e' (List.mem_cons_of_mem _ he')
    rw [List.foldl_cons]
    convert hrest using 1
    rw [Set.union_assoc]
    congr 1
    ext r
    simp

private theorem foldl_clear {t : Thread PC} (h : Clear t) (hboth : ∀ e ∈ insts, NotBoth e.1 e.2) :
    Clear (insts.foldl (fun t e => executeInst t e.1 e.2) t) := by
  induction insts generalizing t with
  | nil => exact h
  | cons e insts ih =>
    exact ih (executeInst_clear h (hboth e List.mem_cons_self))
      fun e' he' => hboth e' (List.mem_cons_of_mem _ he')

theorem clearRedirects_toCommit (activeThreads : List ThreadID) (threads : ThreadID → Thread PC)
    (tid : ThreadID) :
    (clearRedirects activeThreads threads tid).toCommit = (threads tid).toCommit ∧
      (clearRedirects activeThreads threads tid).memDepViolator = (threads tid).memDepViolator ∧
      (clearRedirects activeThreads threads tid).asserts = (threads tid).asserts := by
  unfold clearRedirects
  split <;> exact ⟨rfl, rfl, rfl⟩

theorem oldest_redirect_wins (activeThreads : List ThreadID) {threads : ThreadID → Thread PC}
    {earlier : List (Request PC)} (hearlier : (threads tid).toCommit.First {r | r ∈ earlier})
    (hclear : Clear (threads tid))
    (hyounger : ∀ e ∈ insts, e.1.threadNumber = tid → Younger e.1 e.2) :
    let t := executeInsts activeThreads threads insts tid
    let all := earlier ++ requests tid insts
    (all = [] → t.toCommit.squash = false) ∧
    (all ≠ [] → ∃ r ∈ all, t.toCommit.Carries r ∧ (∀ r' ∈ all, r.Before r') ∧
      ∀ r' ∈ all, ¬ r'.Before r → r.Removes r'.inst.seqNum) ∧
    ((∀ e ∈ insts, e.1.threadNumber = tid → NotBoth e.1 e.2) →
      t.memDepViolator = none ∧ t.asserts = true) := by
  intro t all
  obtain ⟨htoCommit, hviolator, hasserts⟩ := clearRedirects_toCommit activeThreads threads tid
  have ht : t = (insts.filter (·.1.threadNumber = tid)).foldl (fun t e => executeInst t e.1 e.2)
      (clearRedirects activeThreads threads tid) := foldl_executeThread _ insts tid
  have hmine : ∀ e ∈ insts.filter (·.1.threadNumber = tid), e ∈ insts ∧ e.1.threadNumber = tid := by
    intro e he
    rwa [List.mem_filter, decide_eq_true_eq] at he
  have hstart : Inv (clearRedirects activeThreads threads tid) {r | r ∈ earlier} := by
    refine ⟨htoCommit ▸ hearlier, fun v hv => ?_⟩
    rw [hviolator, hclear.1] at hv
    cases hv
  have hinv := foldl_inv hstart fun e he => hyounger e (hmine e he).1 (hmine e he).2
  have hall : {r | r ∈ earlier} ∪ {r | r ∈ requests tid insts} = {r | r ∈ all} := by
    ext r
    simp [all]
  rw [← ht] at hinv
  have hfirst : t.toCommit.First {r | r ∈ all} := hall ▸ hinv.first
  refine ⟨fun hnil => ?_, fun hne => ?_, fun hboth => ?_⟩
  · cases hfirst with
    | none hnone _ => exact hnone
    | some r hr _ _ =>
      rw [hnil] at hr
      cases hr
  · cases hfirst with
    | none _ hempty =>
      obtain ⟨r, hr⟩ := List.exists_mem_of_ne_nil all hne
      exact absurd (hempty ▸ hr : r ∈ (∅ : Set (Request PC))) (Set.notMem_empty r)
    | some r hr hcarries hbefore =>
      exact ⟨r, hr, hcarries, hbefore, fun r' hr' hother => (hbefore r' hr').removes hother⟩
  · rw [ht]
    exact foldl_clear ⟨hviolator.trans hclear.1, hasserts.trans hclear.2⟩
      fun e he => hboth e (hmine e he).1 (hmine e he).2

/-- A mispredicted branch, and then an older store that a load before the branch has passed. -/
theorem oldest_redirect_wins_violator :
    let load : DynInst Nat := { seqNum := 6, pcState := 24, advancePC := 28, isLoad := true }
    let store : DynInst Nat := { seqNum := 5, pcState := 20, advancePC := 24, isStore := true }
    let jump : DynInst Nat := { seqNum := 7, pcState := 28, advancePC := 64, branching := true }
    let insts : List (DynInst Nat × Outcome Nat) :=
      [(jump, { mispredicted := true }), (store, { violator := some load })]
    let t := executeInsts [0] (fun _ => {}) insts 0
    (∃ r ∈ requests 0 insts, t.toCommit.Carries r ∧ ∀ r' ∈ requests 0 insts, r.Before r') ∧
      t.toCommit.pc = some 24 ∧ t.memDepViolator = none := by
  intro load store jump insts t
  have hyounger : ∀ e ∈ insts, e.1.threadNumber = 0 → Younger e.1 e.2 := by
    simp [insts, Younger, store, load]
  have hboth : ∀ e ∈ insts, e.1.threadNumber = 0 → NotBoth e.1 e.2 := by
    simp [insts, NotBoth, Outcome.isMispredicted]
  obtain ⟨-, hfirst, hclear⟩ := @oldest_redirect_wins Nat insts 0 [0] (fun _ => {}) []
    (.none rfl (by simp)) ⟨rfl, rfl⟩ hyounger
  obtain ⟨r, hr, hcarries, hbefore, -⟩ := hfirst (by decide)
  exact ⟨⟨r, hr, hcarries, hbefore⟩, rfl, (hclear hboth).1⟩

end

end Gem5Core.O3.Iew
