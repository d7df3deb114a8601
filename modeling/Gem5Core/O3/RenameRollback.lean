import Gem5Core.Lib.Protocol
import Gem5Core.O3.RenameSpec

/-! A squash in the rename stage takes the thread's map back to what it was. -/
namespace Gem5Core.O3.RenameRollback
open Pred.Branch Rename RenameSpec Function List
open Lib.Protocol (legal_of_forall run Legal run_inv)

variable {p : Params} {tid : ThreadID} {sn : InstSeqNum}

def rewind (entries : List RenameHistory) (m : RenameMap) : RenameMap := entries.foldl rewindOne m

def Ordered (entries : List RenameHistory) : Prop :=
  entries.Pairwise fun a b => b.instSeqNum ≤ a.instSeqNum

/-- `m` and `kept` are the map and the history of the point to which the squash has to go
back, `t` is the thread now. -/
structure Rolled (sn : InstSeqNum) (m : RenameMap) (kept : List RenameHistory)
    (t : ThreadRename) : Prop where
  ordered : Ordered kept
  older : ∀ e ∈ kept, e.instSeqNum ≤ sn
  added : ∃ added, t.historyBuffer = added ++ kept ∧ (∀ e ∈ added, sn < e.instSeqNum) ∧
    rewind added t.renameMap = m

section

variable {m : RenameMap} {kept : List RenameHistory} {s : RenameState}

theorem Rolled.undoEntry (h : Rolled sn m kept (s.threads tid)) {e : RenameHistory}
    {rest : List RenameHistory} (hhist : (s.threads tid).historyBuffer = e :: rest)
    (hlt : sn < e.instSeqNum) : Rolled sn m kept ((s.undoEntry tid e rest).threads tid) := by
  obtain ⟨added, heq, hyoung, hmap⟩ := h.added
  rw [undoEntry_threads, update_self]
  cases added with
  | nil =>
    have hmem : e ∈ kept := by
      rw [nil_append] at heq
      rw [← heq, hhist]
      exact mem_cons_self
    exact absurd (h.older e hmem) hlt.not_ge
  | cons e' added =>
    rw [hhist] at heq
    obtain ⟨rfl, rfl⟩ := List.cons.inj heq
    exact ⟨h.ordered, h.older, added, rfl, fun e he => hyoung e (mem_cons_of_mem _ he), hmap⟩

theorem Rolled.renameDestReg (h : Rolled sn m kept (s.threads tid)) {seqNum : InstSeqNum}
    (hlt : sn < seqNum) (reg : RegId) :
    Rolled sn m kept ((s.renameDestReg p tid seqNum reg).threads tid) := by
  obtain ⟨added, heq, hyoung, hmap⟩ := h.added
  have hyoung' : ∀ r r', ∀ e ∈ (⟨seqNum, reg, r, r'⟩ : RenameHistory) :: added,
      sn < e.instSeqNum := by
    intro r r' e he
    obtain rfl | he := mem_cons.mp he
    · exact hlt
    · exact hyoung e he
  obtain ⟨r, hthreads, -⟩ | ⟨r, free, -, -, hthreads, -⟩ := renameDestReg_cases p s tid seqNum reg
  · rw [hthreads, update_self]
    refine ⟨h.ordered, h.older, _ :: added, by rw [heq]; rfl, hyoung' r r, ?_⟩
    rw [← hmap]
    simp [rewind, rewindOne, RenameHistory.changed]
  · rw [hthreads, update_self]
    refine ⟨h.ordered, h.older, _ :: added, by rw [heq]; rfl, hyoung' r _, ?_⟩
    rw [← hmap]
    unfold rewind
    rw [foldl_cons]
    congr 1
    unfold rewindOne
    split
    · simp only [setEntry_setEntry, setEntry_eq_self]
    · rename_i hsame
      have hsame : r = (s.threads tid).renameMap reg.classValue reg.index := by
        simpa [RenameHistory.changed] using hsame
      simp only [hsame, setEntry_eq_self]

theorem Rolled.commitEntry {c : InstSeqNum} (hc : c ≤ sn)
    (h : Rolled sn m kept (s.threads tid)) {e : RenameHistory} {rest : List RenameHistory}
    (hhist : (s.threads tid).historyBuffer = rest.reverse ++ [e]) (hle : e.instSeqNum ≤ c) :
    ∃ kept', kept = kept' ++ [e] ∧
      Rolled sn m kept' ((s.commitEntry tid e rest).threads tid) := by
  obtain ⟨added, heq, hyoung, hmap⟩ := h.added
  rw [hhist] at heq
  rcases eq_nil_or_concat kept with rfl | ⟨kept', e', rfl⟩
  · have hmem : e ∈ added := by
      rw [append_nil] at heq
      rw [← heq]
      simp
    exact absurd (hle.trans hc) (hyoung e hmem).not_ge
  · rw [concat_eq_append] at h heq ⊢
    rw [← append_assoc] at heq
    obtain ⟨hrest, he⟩ := append_inj' heq rfl
    cases he
    refine ⟨kept', rfl, ?_⟩
    rw [commitEntry_threads, update_self]
    exact ⟨(pairwise_append.mp h.ordered).1, fun e he => h.older e (by simp [he]),
      added, hrest, hyoung, hmap⟩

end

section

variable {m : RenameMap} {kept : List RenameHistory} {s : RenameState}

/-- Younger instructions are renamed, older ones commit, and no squash goes further back. -/
def After (tid : ThreadID) (sn : InstSeqNum) : Event → Prop
  | .rename t seqNum _ => t = tid → sn < seqNum
  | .commit t c => t = tid → c ≤ sn
  | .squash t sn' => t = tid → sn ≤ sn'
  | .release _ | .setSquashed _ _ => True

instance (tid : ThreadID) (sn : InstSeqNum) : DecidablePred (After tid sn) := fun e => by
  rcases e with _ | _ <;> dsimp only [After] <;> infer_instance

def spares (tid : ThreadID) (h : RenameHistory) : Event → Bool
  | .commit t c => t != tid || decide (c < h.instSeqNum)
  | _ => true

private theorem filter_spares {e : Event} (h : ∀ h ∈ kept, spares tid h e = true) :
    kept.filter (fun h => spares tid h e) = kept := filter_eq_self.mpr h

theorem Rolled.commit {c : InstSeqNum} (hc : c ≤ sn) (h : Rolled sn m kept (s.threads tid)) :
    Rolled sn m (kept.filter fun h => c < h.instSeqNum)
      ((s.removeFromHistory c tid).threads tid) := by
  obtain ⟨⟨kept', dropped, heq, hdropped, hrolled⟩, hlast⟩ :=
    removeFromHistory_inv
      (fun s' => ∃ kept' dropped, kept = kept' ++ dropped ∧
        (∀ e ∈ dropped, e.instSeqNum ≤ c) ∧ Rolled sn m kept' (s'.threads tid))
      (fun s' e rest hhist hle ⟨kept', dropped, heq, hdropped, hrolled⟩ => by
        obtain ⟨kept'', rfl, hrolled'⟩ := hrolled.commitEntry hc hhist hle
        refine ⟨kept'', e :: dropped, by rw [heq]; simp, ?_, hrolled'⟩
        intro e' he'
        obtain rfl | he' := mem_cons.mp he'
        · exact hle
        · exact hdropped e' he')
      ⟨kept, [], (append_nil kept).symm, by simp, h⟩
  have hkept : ∀ e ∈ kept', c < e.instSeqNum := by
    intro e he
    rcases eq_nil_or_concat kept' with rfl | ⟨init, oldest, rfl⟩
    · exact absurd he not_mem_nil
    · rw [concat_eq_append] at he hrolled
      obtain ⟨added, hhist, -⟩ := hrolled.added
      have holdest : c < oldest.instSeqNum := by
        apply hlast
        rw [hhist]
        simp
      obtain he | he := mem_append.mp he
      · exact holdest.trans_le ((pairwise_append.mp hrolled.ordered).2.2 e he oldest (by simp))
      · rwa [mem_singleton.mp he]
  have hfilter : kept.filter (fun h => c < h.instSeqNum) = kept' := by
    rw [heq, filter_append, filter_eq_self.mpr (by simpa using hkept),
      filter_eq_nil_iff.mpr (by simpa using hdropped), append_nil]
  rw [hfilter]
  exact hrolled

theorem Rolled.step (h : Rolled sn m kept (s.threads tid)) {e : Event} (ha : After tid sn e) :
    Rolled sn m (kept.filter fun h => spares tid h e) ((step p s e).threads tid) := by
  by_cases ht : thread e = some tid
  · cases e with
    | rename t seqNum destRegs =>
      cases ht
      rw [filter_spares fun _ _ => rfl]
      exact renameDestRegs_inv (fun s' => Rolled sn m kept (s'.threads tid))
        (fun s' reg hs' => hs'.renameDestReg (ha rfl) reg) destRegs h
    | commit t c =>
      cases ht
      simpa [spares, Rename.step] using h.commit (ha rfl)
    | squash t sn' =>
      cases ht
      rw [filter_spares fun _ _ => rfl]
      exact (doSquash_inv (fun s' => Rolled sn m kept (s'.threads tid))
        (fun s' e rest hhist hlt hs' => hs'.undoEntry hhist ((ha rfl).trans_lt hlt)) h).1
    | release t =>
      cases ht
      rw [filter_spares fun _ _ => rfl]
      obtain ⟨added, hadded⟩ := h.added
      refine ⟨h.ordered, h.older, added, ?_⟩
      simpa [Rename.step, releaseRegs_threads] using hadded
    | setSquashed dests written => exact absurd ht (by simp [thread])
  · rw [step_other e ht]
    have hspares : ∀ h ∈ kept, spares tid h e = true := by
      intro h _
      cases e with
      | commit t c =>
        have hne : t ≠ tid := fun heq => ht (congrArg some heq)
        simp [spares, hne]
      | _ => rfl
    rw [filter_spares hspares]
    exact h

theorem Rolled.run (events : List Event) : ∀ {kept : List RenameHistory} {s : RenameState},
    Rolled sn m kept (s.threads tid) → (∀ e ∈ events, After tid sn e) →
      Rolled sn m (kept.filter fun h => events.all (spares tid h))
        ((Lib.Protocol.run (Rename.step p) s events).threads tid) := by
  induction events with
  | nil =>
    intro kept s h _
    simpa using h
  | cons e events ih =>
    intro kept s h ha
    have hnext := ih (h.step (p := p) (ha e mem_cons_self))
      fun e' he' => ha e' (mem_cons_of_mem _ he')
    simpa [filter_filter, Bool.and_comm] using hnext

theorem Rolled.doSquash (h : Rolled sn m kept (s.threads tid)) :
    ((s.doSquash sn tid).threads tid).renameMap = m ∧
      ((s.doSquash sn tid).threads tid).historyBuffer = kept := by
  obtain ⟨hrolled, hhead⟩ := doSquash_inv (fun s' => Rolled sn m kept (s'.threads tid))
    (fun s' e rest hhist hlt hs' => hs'.undoEntry hhist hlt) h
  obtain ⟨added, hhist, hyoung, hmap⟩ := hrolled.added
  cases added with
  | nil => exact ⟨hmap, hhist⟩
  | cons e added =>
    have hle := hhead e (by simp [hhist])
    exact absurd (hyoung e mem_cons_self) hle.not_gt

end

section

def InOrder (s : RenameState) : Event → Prop
  | .rename tid seqNum _ => ∀ h ∈ (s.threads tid).historyBuffer, h.instSeqNum < seqNum
  | _ => True

instance (s : RenameState) : DecidablePred (InOrder s) := fun e => by
  rcases e with _ | _ <;> dsimp only [InOrder] <;> infer_instance

def Before (tid : ThreadID) (sn : InstSeqNum) : Event → Prop
  | .rename t seqNum _ => t = tid → seqNum ≤ sn
  | _ => True

instance (tid : ThreadID) (sn : InstSeqNum) : DecidablePred (Before tid sn) := fun e => by
  rcases e with _ | _ <;> dsimp only [Before] <;> infer_instance

variable {s : RenameState}

def Past (sn : InstSeqNum) (t : ThreadRename) : Prop :=
  Ordered t.historyBuffer ∧ ∀ h ∈ t.historyBuffer, h.instSeqNum ≤ sn

theorem Past.sublist {t t' : ThreadRename} (h : Past sn t)
    (hsub : t'.historyBuffer.Sublist t.historyBuffer) : Past sn t' :=
  ⟨List.Pairwise.sublist hsub h.1, fun e he => h.2 e (hsub.subset he)⟩

def Renaming (sn seqNum : InstSeqNum) (t : ThreadRename) : Prop :=
  Past sn t ∧ ∀ h ∈ t.historyBuffer, h.instSeqNum ≤ seqNum

theorem Renaming.renameDestReg {seqNum : InstSeqNum} (h : Renaming sn seqNum (s.threads tid))
    (hle : seqNum ≤ sn) (reg : RegId) :
    Renaming sn seqNum ((s.renameDestReg p tid seqNum reg).threads tid) := by
  obtain ⟨⟨hord, hpast⟩, hmax⟩ := h
  obtain ⟨e, heq, hseq⟩ : ∃ e : RenameHistory,
      ((s.renameDestReg p tid seqNum reg).threads tid).historyBuffer =
        e :: (s.threads tid).historyBuffer ∧ e.instSeqNum = seqNum := by
    obtain ⟨r, hthreads, -⟩ | ⟨r, free, -, -, hthreads, -⟩ :=
      renameDestReg_cases p s tid seqNum reg <;>
      exact ⟨_, by rw [hthreads, update_self], rfl⟩
  unfold Renaming Past Ordered
  rw [heq]
  refine ⟨⟨pairwise_cons.mpr ⟨fun h hmem => ?_, hord⟩, fun h hmem => ?_⟩, fun h hmem => ?_⟩
  · exact (hmax h hmem).trans_eq hseq.symm
  · obtain rfl | hmem := mem_cons.mp hmem
    · exact hseq.trans_le hle
    · exact hpast h hmem
  · obtain rfl | hmem := mem_cons.mp hmem
    · exact hseq.le
    · exact hmax h hmem

theorem Past.step (h : Past sn (s.threads tid)) {e : Event} (ho : InOrder s e)
    (hb : Before tid sn e) : Past sn ((step p s e).threads tid) := by
  by_cases ht : thread e = some tid
  · cases e with
    | rename t seqNum destRegs =>
      cases ht
      exact (renameDestRegs_inv (fun s' => Renaming sn seqNum (s'.threads tid))
        (fun s' reg hs' => hs'.renameDestReg (hb rfl) reg) destRegs
        ⟨h, fun e he => (ho e he).le⟩).1
    | commit t c =>
      cases ht
      refine (removeFromHistory_inv (fun s' => Past sn (s'.threads tid))
        (fun s' e rest hhist _ hs' => hs'.sublist ?_) h).1
      rw [commitEntry_threads, update_self, hhist]
      exact sublist_append_left _ _
    | squash t sn' =>
      cases ht
      refine (doSquash_inv (fun s' => Past sn (s'.threads tid))
        (fun s' e rest hhist _ hs' => hs'.sublist ?_) h).1
      rw [undoEntry_threads, update_self, hhist]
      exact sublist_cons_self _ _
    | release t =>
      cases ht
      refine h.sublist ?_
      simp [Rename.step, releaseRegs_threads]
    | setSquashed dests written => exact absurd ht (by simp [thread])
  · rw [step_other e ht]
    exact h

end

/-- `before` ends when the youngest instruction up to `sn` has been renamed. Whatever
follows in this and in the other threads, a squash down to `sn` gives the thread the map
of that moment back, keeps the entries of that moment that did not commit since, and
leaves the maps of the other threads alone. -/
theorem doSquash_restores (p : Params) {start : RenameState} {tid : ThreadID}
    (hstart : (start.threads tid).historyBuffer = []) (sn : InstSeqNum)
    (before after : List Event) (hlegal : Legal (step p) InOrder start before)
    (hbefore : ∀ e ∈ before, Before tid sn e) (hafter : ∀ e ∈ after, After tid sn e) :
    let point := run (step p) start before
    let now := run (step p) point after
    let squashed := now.doSquash sn tid
    (squashed.threads tid).renameMap = (point.threads tid).renameMap ∧
      (squashed.threads tid).historyBuffer =
        (point.threads tid).historyBuffer.filter (fun h => after.all (spares tid h)) ∧
      ∀ t, t ≠ tid → squashed.threads t = now.threads t := by
  intro point now squashed
  have hpast : Past sn (point.threads tid) :=
    run_inv (fun s => Past sn (s.threads tid)) (fun _ _ h ha => h.step ha.1 ha.2) before
      ⟨by simp [Ordered, hstart], by simp [hstart]⟩ (hlegal.and (legal_of_forall fun e he _ => hbefore e he))
  have hrolled : Rolled sn (point.threads tid).renameMap (point.threads tid).historyBuffer
      (point.threads tid) := ⟨hpast.1, hpast.2, [], rfl, by simp, rfl⟩
  obtain ⟨hmap, hhist⟩ := (hrolled.run (p := p) after hafter).doSquash
  refine ⟨hmap, hhist, fun t ht => ?_⟩
  exact step_other (p := p) (s := now) (.squash tid sn) fun heq => ht (Option.some.inj heq).symm

def bothRenamed : List Event := [.rename 0 1 [⟨.int, 0, 0⟩, ⟨.int, 1, 0⟩]]

/-- A younger instruction writes one register twice, another thread renames, and the
first instruction commits. -/
def twiceRenamed : List Event :=
  [.rename 0 2 [⟨.int, 0, 0⟩, ⟨.int, 0, 0⟩], .rename 1 3 [⟨.int, 1, 0⟩], .commit 0 1]

theorem doSquash_restores_twiceRenamed :
    let point := run (step twoThreads) (start twoThreads) bothRenamed
    let now := run (step twoThreads) point twiceRenamed
    let squashed := now.doSquash 1 0
    (now.threads 0).renameMap .int 0 = ⟨.int, 7⟩ ∧
      (squashed.threads 0).renameMap .int 0 = ⟨.int, 4⟩ ∧
      (squashed.threads 0).renameMap = (point.threads 0).renameMap ∧
      (squashed.threads 0).historyBuffer = [] ∧
      (squashed.threads 1).renameMap .int 1 = ⟨.int, 8⟩ := by
  have hsquash := doSquash_restores twoThreads
    (rfl : ((start twoThreads).threads 0).historyBuffer = []) 1 bothRenamed twiceRenamed
    (by decide) (by decide) (by decide)
  exact ⟨by decide +kernel, by decide +kernel, hsquash.1, by decide +kernel, by decide +kernel⟩

end Gem5Core.O3.RenameRollback
