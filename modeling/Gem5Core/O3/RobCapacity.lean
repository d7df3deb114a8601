import Gem5Core.O3.RobSquash

/-! How threads share the reorder buffer (`cpu/o3/rob.cc`). An instruction enters when its own
thread is below its limit; the limits are set with no regard to what the buffer holds. -/
namespace Gem5Core.O3.RobCapacity
open Pred.Branch Rob RobSquash Function
open Lib.Protocol (run Legal run_inv)
open ThreadROB

inductive SMTQueuePolicy where
  | dynamic
  | partitioned
  | threshold
deriving DecidableEq

structure SharingParams extends Params where
  robPolicy : SMTQueuePolicy
  smtROBThreshold : Int
  /-- `numEntries` is `unsigned`. -/
  numEntries_lt : numEntries < 2 ^ 32

/-- The buffer with its limits, which are `unsigned`. -/
structure SharedROB extends ROB where
  maxEntries : ThreadID → BitVec 32
  activeThreads : List ThreadID := []

variable (p : SharingParams)

def initialMax (tid : ThreadID) : BitVec 32 :=
  if tid < p.numThreads then
    match p.robPolicy with
    | .dynamic => BitVec.ofNat 32 p.numEntries
    | .partitioned => BitVec.ofNat 32 (p.numEntries / p.numThreads)
    | .threshold => BitVec.ofInt 32 p.smtROBThreshold
  else 0

def SharedROB.construct : SharedROB := { maxEntries := initialMax p }

def resetLimit (active_threads : Nat) (old : BitVec 32) : BitVec 32 :=
  match p.robPolicy with
  | .partitioned => BitVec.ofNat 32 (p.numEntries / active_threads)
  | .threshold => if active_threads = 1 then BitVec.ofNat 32 p.numEntries else old
  | .dynamic => old

namespace SharedROB

def resetEntries (s : SharedROB) : SharedROB :=
  if p.robPolicy ≠ .dynamic ∨ 1 < p.numThreads then
    { s with
      maxEntries := s.activeThreads.foldl
        (fun limits tid =>
          Function.update limits tid (resetLimit p s.activeThreads.length (limits tid)))
        s.maxEntries }
  else s

def numFreeEntries (s : SharedROB) (tid : ThreadID) : BitVec 32 :=
  s.maxEntries tid - BitVec.ofNat 32 (s.threads tid).threadEntries

end SharedROB

open SharedROB

inductive SharedEvent where
  | inst (e : Event)
  /-- The list of active threads changes, and `resetEntries` is called. -/
  | setActiveThreads (threads : List ThreadID)

def sharedStep (s : SharedROB) : SharedEvent → SharedROB
  | .inst e => { s with toROB := Rob.step p.toParams s.toROB e }
  | .setActiveThreads threads => { s with activeThreads := threads }.resetEntries p

/-- How the stages use the buffer: an instruction enters when its thread has a free
entry, and only an instruction that is there retires. -/
def Allowed (s : SharedROB) : SharedEvent → Prop
  | .inst (.insertInst inst) =>
      inst.threadNumber < p.numThreads ∧ 0 < (s.numFreeEntries inst.threadNumber).toNat
  | .inst (.retireHead tid) => tid < p.numThreads ∧ (s.threads tid).instList ≠ []
  | .inst _ => True
  | .setActiveThreads threads => threads.Nodup ∧ ∀ tid ∈ threads, tid < p.numThreads

instance (s : SharedROB) : DecidablePred (Allowed p s) := fun e => by
  rcases e with (_ | _) | _ <;> dsimp only [Allowed] <;> infer_instance

/-- The buffer holds at most its entries, and no difference of a limit and a count
wraps. -/
@[mk_iff] structure Safe (s : SharedROB) : Prop where
  total : ∑ tid ∈ Finset.range p.numThreads, (s.threads tid).instList.length ≤ p.numEntries
  free : ∀ tid < p.numThreads,
    (s.numFreeEntries tid).toNat + (s.threads tid).threadEntries = (s.maxEntries tid).toNat

/-- What `Allowed` leaves out: an instruction enters a buffer that is not full, and the
partitioned policy activates no thread that holds more than its share. -/
def Careful (s : SharedROB) (e : SharedEvent) : Prop :=
  Allowed p s e ∧
    match e with
    | .inst (.insertInst _) => s.numInstsInROB < p.numEntries
    | .inst _ => True
    | .setActiveThreads threads => p.robPolicy = .partitioned →
        ∀ tid ∈ threads, (s.threads tid).threadEntries ≤ p.numEntries / threads.length

instance (s : SharedROB) : Decidable (Safe p s) :=
  decidable_of_iff' _ (safe_iff p s)

instance (s : SharedROB) : DecidablePred (Careful p s) := fun e => by
  rcases e with (_ | _) | _ <;> dsimp only [Careful] <;> infer_instance

section

variable {p}

@[simp] theorem resetEntries_toROB (s : SharedROB) : (s.resetEntries p).toROB = s.toROB := by
  unfold resetEntries
  split <;> rfl

end

structure SameCounts (t t' : ThreadROB) : Prop where
  length : t'.instList.length = t.instList.length
  threadEntries : t'.threadEntries = t.threadEntries

private theorem squashLoop_counts (n : Nat) (t : ThreadROB) :
    SameCounts t (squashLoop n t).1 := by
  induction n generalizing t with
  | zero => exact ⟨rfl, rfl⟩
  | succ n ih =>
    rw [squashLoop]
    split
    · exact ⟨rfl, rfl⟩
    · next inst _ =>
      split
      · split
        · exact ⟨List.length_map _, rfl⟩
        · next before _ =>
          have hrest := ih { t.squashOne inst.seqNum with squashIt := some before.seqNum }
          exact ⟨hrest.length.trans (List.length_map _), hrest.threadEntries⟩
      · exact ⟨rfl, rfl⟩

theorem doSquash_counts (n : Nat) (t : ThreadROB) : SameCounts t (t.doSquash n) := by
  have hloop := squashLoop_counts n t
  unfold doSquash
  split
  · exact ⟨rfl, rfl⟩
  · split
    · exact ⟨rfl, rfl⟩
    · dsimp only
      split
      · exact hloop
      · split
        · exact { hloop with }
        · split
          · exact { hloop with }
          · exact hloop

theorem squash_counts (squash_num : InstSeqNum) (n : Nat) (t : ThreadROB) :
    SameCounts t (t.squash squash_num n) := by
  unfold squash
  split
  · exact ⟨rfl, rfl⟩
  · dsimp only
    split
    · exact ⟨rfl, rfl⟩
    · have hrest := doSquash_counts n
        { t with
          doneSquashing := false
          squashedSeqNum := squash_num
          squashIt := some (‹DynInst› : DynInst).seqNum }
      exact { hrest with }

section

variable {p} {s : SharedROB} {rob : ROB}

structure Counted (p : SharingParams) (rob : ROB) : Prop where
  length : ∀ tid, (rob.threads tid).threadEntries = (rob.threads tid).instList.length
  total : ∑ tid ∈ Finset.range p.numThreads, (rob.threads tid).threadEntries = rob.numInstsInROB

theorem Counted.modify (h : Counted p rob) {tid : ThreadID} {t : ThreadROB} {n : Nat}
    (hlength : t.threadEntries = t.instList.length)
    (hn : n + (rob.threads tid).threadEntries = rob.numInstsInROB + t.threadEntries)
    (htid : tid < p.numThreads ∨ t.threadEntries = (rob.threads tid).threadEntries) :
    Counted p { threads := update rob.threads tid t, numInstsInROB := n } where
  length := by
    intro t'
    by_cases heq : t' = tid
    · simpa [heq] using hlength
    · simpa [heq] using h.length t'
  total := by
    have htotal := h.total
    rcases htid with hlt | hsame
    · have hsum := sum_update_add hlt threadEntries rob.threads t
      dsimp only
      omega
    · have hrest : ∀ t' ∈ Finset.range p.numThreads,
          (update rob.threads tid t t').threadEntries =
            (rob.threads t').threadEntries := fun t' _ => by
        by_cases heq : t' = tid
        · simpa [heq] using hsame
        · simp [heq]
      rw [Finset.sum_congr rfl hrest]
      dsimp only
      omega

theorem Counted.same (h : Counted p rob) {tid : ThreadID} {t : ThreadROB}
    (hsame : SameCounts (rob.threads tid) t) :
    Counted p { threads := update rob.threads tid t,
                numInstsInROB := rob.numInstsInROB } := by
  refine h.modify ?_ ?_ (.inr hsame.threadEntries)
  · rw [hsame.threadEntries, hsame.length, h.length]
  · rw [hsame.threadEntries]

theorem Counted.le_total (h : Counted p rob) {tid : ThreadID} (htid : tid < p.numThreads) :
    (rob.threads tid).threadEntries ≤ rob.numInstsInROB := by
  rw [← h.total]
  exact Finset.single_le_sum (f := fun t => (rob.threads t).threadEntries)
    (fun _ _ => Nat.zero_le _) (Finset.mem_range.mpr htid)

theorem Counted.step (h : Counted p s.toROB) {e : Event} (ha : Allowed p s (.inst e)) :
    Counted p (Rob.step p.toParams s.toROB e) := by
  cases e with
  | insertInst inst =>
    refine h.modify ?_ ?_ (.inl ha.1)
    · simpa [insertInst] using h.length inst.threadNumber
    · simp only [insertInst]
      omega
  | markCompleted tid sn => exact h.same ⟨List.length_map _, rfl⟩
  | retireHead tid =>
    obtain ⟨htid, hne⟩ := ha
    obtain ⟨head, rest, hlist⟩ := List.exists_cons_of_ne_nil hne
    have hentries := h.length tid
    rw [hlist, List.length_cons] at hentries
    have hpos := h.le_total htid
    refine h.modify ?_ ?_ (.inl htid)
    · simp only [retireHead, hlist]
      omega
    · simp only [retireHead, hlist]
      omega
  | squash sn tid exiting => exact h.same (squash_counts _ _ _)
  | doSquash tid exiting => exact h.same (doSquash_counts _ _)

theorem entries_step (rob : ROB) (e : Event) (tid : ThreadID) :
    ((Rob.step p.toParams rob e).threads tid).threadEntries ≤ (rob.threads tid).threadEntries ∨
      ∃ inst, e = .insertInst inst ∧ tid = inst.threadNumber ∧
        ((Rob.step p.toParams rob e).threads tid).threadEntries =
          (rob.threads tid).threadEntries + 1 := by
  by_cases htid : tid = e.tid
  · cases e with
    | insertInst inst =>
      refine .inr ⟨inst, rfl, htid, ?_⟩
      simp [Rob.step, ROB.insertInst, ROB.modify, insertInst, htid, Event.tid]
    | markCompleted t sn =>
      simp [Rob.step, ROB.modify, markCompleted, htid, Event.tid]
    | retireHead t =>
      refine .inl ?_
      simp only [Rob.step, ROB.retireHead, ROB.modify, htid, Event.tid, update_self]
      unfold retireHead
      split
      · exact le_rfl
      · exact Nat.sub_le _ _
    | squash sn t exiting =>
      simp [Rob.step, ROB.modify, htid, Event.tid, (squash_counts _ _ _).threadEntries]
    | doSquash t exiting =>
      simp [Rob.step, ROB.modify, htid, Event.tid, (doSquash_counts _ _).threadEntries]
  · rw [step_other rob e htid]
    exact .inl (le_rfl)

theorem numFreeEntries_toNat {tid : ThreadID}
    (h : (s.threads tid).threadEntries ≤ (s.maxEntries tid).toNat) :
    (s.numFreeEntries tid).toNat = (s.maxEntries tid).toNat - (s.threads tid).threadEntries := by
  have hlt : (s.threads tid).threadEntries < 2 ^ 32 := h.trans_lt (s.maxEntries tid).isLt
  have hnat : (BitVec.ofNat 32 (s.threads tid).threadEntries).toNat =
      (s.threads tid).threadEntries := by
    rw [BitVec.toNat_ofNat, Nat.mod_eq_of_lt hlt]
  rw [numFreeEntries, BitVec.toNat_sub_of_le (BitVec.le_def.mpr (hnat.trans_le h)), hnat]

theorem within_step
    (h : ∀ tid < p.numThreads, (s.threads tid).threadEntries ≤ (s.maxEntries tid).toNat)
    {e : Event} (ha : Allowed p s (.inst e)) (tid : ThreadID) (htid : tid < p.numThreads) :
    ((sharedStep p s (.inst e)).threads tid).threadEntries ≤ (s.maxEntries tid).toNat := by
  obtain hle | ⟨inst, rfl, rfl, hadd⟩ := entries_step (p := p) s.toROB e tid
  · exact hle.trans (h tid htid)
  · have hfree : 0 < (s.numFreeEntries inst.threadNumber).toNat := ha.2
    rw [numFreeEntries_toNat (h _ htid)] at hfree
    exact hadd.trans_le (by omega)

theorem total_step (h : s.numInstsInROB ≤ p.numEntries) {e : Event}
    (hc : Careful p s (.inst e)) :
    (sharedStep p s (.inst e)).numInstsInROB ≤ p.numEntries := by
  cases e with
  | insertInst inst => exact hc.2
  | retireHead tid => exact (Nat.sub_le _ _).trans h
  | _ => exact h

structure Inv (p : SharingParams) (s : SharedROB) : Prop where
  counted : Counted p s.toROB
  total : s.numInstsInROB ≤ p.numEntries
  within : ∀ tid < p.numThreads, (s.threads tid).threadEntries ≤ (s.maxEntries tid).toNat

/-- A limit that `resetEntries` sets covers what the thread holds. Only a share of the partitioned
policy can fall below the occupancy, which is what the condition on it keeps out. -/
theorem Inv.resetLimit (h : Inv p s) {threads : List ThreadID}
    (hc : Careful p s (.setActiveThreads threads)) {tid : ThreadID} (hmem : tid ∈ threads)
    {old : BitVec 32} (hold : (s.threads tid).threadEntries ≤ old.toNat) :
    (s.threads tid).threadEntries ≤ (RobCapacity.resetLimit p threads.length old).toNat := by
  have hbuffer := (h.counted.le_total (hc.1.2 tid hmem)).trans h.total
  have hlt := p.numEntries_lt
  have hshare : p.numEntries / threads.length ≤ p.numEntries := Nat.div_le_self _ _
  unfold RobCapacity.resetLimit
  cases hpolicy : p.robPolicy with
  | dynamic => exact hold
  | partitioned =>
    rw [BitVec.toNat_ofNat, Nat.mod_eq_of_lt (by omega)]
    exact hc.2 hpolicy tid hmem
  | threshold =>
    dsimp only
    split
    · rwa [BitVec.toNat_ofNat, Nat.mod_eq_of_lt hlt]
    · exact hold

theorem foldl_update_inv {f : BitVec 32 → BitVec 32} {P : ThreadID → BitVec 32 → Prop}
    {threads : List ThreadID} (hf : ∀ tid ∈ threads, ∀ old, P tid old → P tid (f old))
    {limits : ThreadID → BitVec 32} {tid : ThreadID} (h : P tid (limits tid)) :
    P tid (threads.foldl (fun limits t => update limits t (f (limits t))) limits tid) := by
  induction threads generalizing limits with
  | nil => exact h
  | cons t threads ih =>
    refine ih (fun tid hmem => hf tid (.tail _ hmem)) ?_
    dsimp only
    rw [update_apply]
    split
    · subst tid
      exact hf t (.head _) _ h
    · exact h

theorem Inv.step (h : Inv p s) {e : SharedEvent} (hc : Careful p s e) :
    Inv p (sharedStep p s e) := by
  cases e with
  | inst e => exact ⟨h.counted.step hc.1, total_step h.total hc, within_step h.within hc.1⟩
  | setActiveThreads threads =>
    have hrob : (sharedStep p s (.setActiveThreads threads)).toROB = s.toROB :=
      resetEntries_toROB _
    refine ⟨by rw [hrob]; exact h.counted, by rw [hrob]; exact h.total, fun tid htid => ?_⟩
    rw [sharedStep, resetEntries]
    split
    · exact foldl_update_inv (P := fun tid limit => (s.threads tid).threadEntries ≤ limit.toNat)
        (fun _ hmem _ hold => h.resetLimit hc hmem hold) (h.within tid htid)
    · exact h.within tid htid

private theorem inv_construct : Inv p (SharedROB.construct p) :=
  ⟨⟨fun _ => rfl, by simp [SharedROB.construct]⟩, Nat.zero_le _, fun _ _ => Nat.zero_le _⟩

theorem Inv.safe (h : Inv p s) : Safe p s where
  total := by
    rw [Finset.sum_congr rfl fun tid _ => (h.counted.length tid).symm, h.counted.total]
    exact h.total
  free := by
    intro tid htid
    have hwithin := h.within tid htid
    rw [numFreeEntries_toNat hwithin]
    omega

end

/-- Over every run in which instructions enter a buffer that is not full and the partitioned
policy activates no thread that holds more than its share, the buffer is large enough and
no count of free entries wraps. -/
theorem capacity_safe (events : List SharedEvent)
    (hl : Legal (sharedStep p) (Careful p) (SharedROB.construct p) events) :
    Safe p (run (sharedStep p) (SharedROB.construct p) events) :=
  (run_inv (Inv p) (fun _ _ h hc => h.step hc) events inv_construct hl).safe

def smt (robPolicy : SMTQueuePolicy) (smtROBThreshold : Int) : SharingParams where
  numEntries := 4
  squashWidth := none
  numThreads := 2
  robPolicy
  smtROBThreshold
  numEntries_lt := by decide

def inserts (tid : ThreadID) (sn n : Nat) : List SharedEvent :=
  (List.range n).map fun i => .inst (.insertInst { seqNum := sn + i, threadNumber := tid })

def halves : List SharedEvent :=
  [.setActiveThreads [0, 1]] ++ inserts 0 1 2 ++ inserts 1 3 2 ++
    [.inst (.squash 2 1 true), .inst (.retireHead 1), .inst (.retireHead 1),
      .setActiveThreads [0]] ++ inserts 0 5 2

def crowded : List SharedEvent :=
  [.setActiveThreads [0, 1]] ++ inserts 0 1 3 ++ inserts 1 4 1 ++ [.inst (.retireHead 0)] ++
    inserts 1 5 1

theorem capacity_safe_shared :
    Safe (smt .partitioned 0)
      (run (sharedStep (smt .partitioned 0)) (SharedROB.construct (smt .partitioned 0)) halves) ∧
    Safe (smt .dynamic 0)
      (run (sharedStep (smt .dynamic 0)) (SharedROB.construct (smt .dynamic 0)) crowded) :=
  ⟨capacity_safe (smt .partitioned 0) halves (by decide),
    capacity_safe (smt .dynamic 0) crowded (by decide)⟩

/-- With the dynamic policy each thread may fill the buffer on its own; the partitioned
policy gives a thread that holds four entries a limit of two; and the threshold policy
does not take back the limit of a thread that was alone. -/
theorem limits_not_safe :
    (let p := smt .dynamic 0
      let events := [.setActiveThreads [0, 1]] ++ inserts 0 1 4 ++ inserts 1 5 1
      Legal (sharedStep p) (Allowed p) (.construct p) events ∧
        (run (sharedStep p) (.construct p) events).numInstsInROB = 5) ∧
    (let p := smt .partitioned 0
      let events := [.setActiveThreads [0]] ++ inserts 0 1 4 ++ [.setActiveThreads [0, 1]]
      Legal (sharedStep p) (Allowed p) (.construct p) events ∧
        ((run (sharedStep p) (.construct p) events).numFreeEntries 0).toNat = 2 ^ 32 - 2) ∧
    (let p := smt .threshold 2
      let events := [.setActiveThreads [0], .setActiveThreads [0, 1]] ++ inserts 0 1 4 ++
        inserts 1 5 1
      Legal (sharedStep p) (Allowed p) (.construct p) events ∧
        (run (sharedStep p) (.construct p) events).numInstsInROB = 5) := by
  decide

end Gem5Core.O3.RobCapacity
