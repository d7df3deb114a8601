import Mathlib.Algebra.Order.BigOperators.Group.Finset
import Gem5Core.Lib.Protocol
import Gem5Core.O3.RenameSpec

/-! Physical registers are neither lost nor handed out twice: a register is in the free list, waits
to be released, is mapped, or is the previous register of a history entry. -/
namespace Gem5Core.O3.RenameConservation
open Pred.Branch Rename RenameSpec Function
open Lib.Protocol (run Legal run_inv)
open List hiding beq_eq_decide

variable {p : Params}

section

variable (p) (t : ThreadRename) (r : PhysRegId)

def mapped : Nat :=
  (List.range (p.numArchRegs r.classValue)).countP fun i => t.renameMap r.classValue i = r

def previous : Nat := t.historyBuffer.countP fun e => e.changed && e.prevPhysReg == r

def held : Nat := t.freeingInProgress.count r + mapped p t r + previous t r

def places (s : RenameState) : Nat :=
  (s.freeLists r.classValue).count r +
    ∑ tid ∈ Finset.range p.numThreads, held p (s.threads tid) r

end

/-- The history can be undone entry by entry: each entry that changed a mapping finds its
new register there. -/
def Linked (p : Params) : RenameMap → List RenameHistory → Prop
  | _, [] => True
  | m, e :: rest =>
      (e.changed = true → e.archReg.classValue.isRenameable = true ∧
        e.archReg.index < p.numArchRegs e.archReg.classValue ∧
        m e.archReg.classValue e.archReg.index = e.newPhysReg ∧
        e.prevPhysReg.classValue = e.archReg.classValue) ∧
      Linked p (rewindOne m e) rest

/-- Every physical register is in exactly one place. -/
structure Conserved (p : Params) (s : RenameState) : Prop where
  once : ∀ r : PhysRegId, r.classValue.isRenameable = true →
    places p r s = if r.index < p.numPhysRegs r.classValue then 1 else 0
  freeClass : ∀ c, ∀ r ∈ s.freeLists c, r.classValue = c
  mapClass : ∀ tid c i, ((s.threads tid).renameMap c i).classValue = c
  linked : ∀ tid, Linked p (s.threads tid).renameMap (s.threads tid).historyBuffer

variable {rest : List RenameHistory}

section

theorem countP_range_update {n i : Nat} (hi : i < n) (f : Nat → PhysRegId) (r₁ r : PhysRegId) :
    (List.range n).countP (fun j => update f i r₁ j = r) + (if f i = r then 1 else 0) =
      (List.range n).countP (fun j => f j = r) + if r₁ = r then 1 else 0 := by
  obtain ⟨l₁, l₂, hsplit⟩ := append_of_mem (mem_range.mpr hi)
  have hnodup : (l₁ ++ i :: l₂).Nodup := hsplit ▸ nodup_range
  have hl₁ : i ∉ l₁ := fun hmem => by
    have := (nodup_append.mp hnodup).2.2 i hmem i (by simp)
    exact this rfl
  have hl₂ : i ∉ l₂ := (nodup_cons.mp (nodup_append.mp hnodup).2.1).1
  have hcongr : ∀ l : List Nat, i ∉ l →
      l.countP (fun j => update f i r₁ j = r) = l.countP fun j => f j = r := by
    intro l hl
    refine countP_congr fun j hj => ?_
    have hne : j ≠ i := by
      rintro rfl
      exact hl hj
    rw [update_of_ne hne]
  rw [hsplit]
  simp only [countP_append, countP_cons, hcongr l₁ hl₁, hcongr l₂ hl₂,
    update_self, decide_eq_true_eq]
  omega

variable {t : ThreadRename}

theorem mapped_setEntry {reg : RegId} (hr : reg.classValue.isRenameable = true)
    (hi : reg.index < p.numArchRegs reg.classValue) (hm : ∀ c i, (t.renameMap c i).classValue = c)
    {r₁ : PhysRegId} (hc : r₁.classValue = reg.classValue) (r : PhysRegId) :
    mapped p { t with renameMap := t.renameMap.setEntry reg r₁ } r +
        (if t.renameMap reg.classValue reg.index = r then 1 else 0) =
      mapped p t r + if r₁ = r then 1 else 0 := by
  unfold mapped
  rw [RenameMap.setEntry, if_pos hr]
  by_cases hclass : r.classValue = reg.classValue
  · rw [hclass]
    simp only [update_self]
    exact countP_range_update hi _ _ _
  · have h₀ : t.renameMap reg.classValue reg.index ≠ r := fun heq => hclass (heq ▸ hm _ _)
    have h₁ : r₁ ≠ r := fun heq => hclass (heq ▸ hc)
    simp only [update_of_ne hclass, if_neg h₀, if_neg h₁]

private theorem held_undone {e : RenameHistory} (hhist : t.historyBuffer = e :: rest)
    (hl : Linked p t.renameMap t.historyBuffer) (hm : ∀ c i, (t.renameMap c i).classValue = c)
    (r : PhysRegId) : held p (undone t e rest) r = held p t r := by
  rw [hhist] at hl
  unfold held previous
  by_cases hc : e.changed
  · obtain ⟨hr, hi, hnew, hprev⟩ := hl.1 hc
    have hmap := mapped_setEntry hr hi hm hprev r
    rw [hnew] at hmap
    simp only [mapped, undone, rewindOne, hc, if_true, hhist, countP_cons, count_append,
      count_singleton, Bool.true_and, beq_iff_eq] at hmap ⊢
    omega
  · have hmap : mapped p (undone t e rest) r = mapped p t r := by
      simp [mapped, undone, rewindOne, hc]
    rw [hmap]
    simp [undone, hc, hhist]

end

theorem Linked.of_append {m : RenameMap} {l l' : List RenameHistory} (h : Linked p m (l ++ l')) :
    Linked p m l := by
  induction l generalizing m with
  | nil => trivial
  | cons e l ih => exact ⟨h.1, ih h.2⟩

section

variable {s s' : RenameState} {tid : ThreadID}

theorem Conserved.move (h : Conserved p s) (htid : tid < p.numThreads) {t : ThreadRename}
    (ht : s'.threads = update s.threads tid t)
    (hcount : ∀ r, r.classValue.isRenameable = true →
      (s'.freeLists r.classValue).count r + held p t r =
        (s.freeLists r.classValue).count r + held p (s.threads tid) r)
    (hfree : ∀ c, ∀ r ∈ s'.freeLists c, r.classValue = c)
    (hmap : ∀ c i, (t.renameMap c i).classValue = c)
    (hlink : Linked p t.renameMap t.historyBuffer) : Conserved p s' where
  once := by
    intro r hr
    rw [← h.once r hr]
    unfold places
    rw [ht, ← Finset.add_sum_erase _ _ (Finset.mem_range.mpr htid),
      ← Finset.add_sum_erase _ _ (Finset.mem_range.mpr htid), update_self]
    have hothers : ∀ tid' ∈ (Finset.range p.numThreads).erase tid,
        held p (update s.threads tid t tid') r = held p (s.threads tid') r :=
      fun tid' hmem => by rw [update_of_ne (Finset.mem_erase.mp hmem).1]
    rw [Finset.sum_congr rfl hothers]
    have := hcount r hr
    omega
  freeClass := hfree
  mapClass := by
    intro tid' c i
    rw [ht]
    by_cases heq : tid' = tid
    · rw [heq, update_self]
      exact hmap c i
    · rw [update_of_ne heq]
      exact h.mapClass tid' c i
  linked := by
    intro tid'
    rw [ht]
    by_cases heq : tid' = tid
    · rw [heq, update_self]
      exact hlink
    · rw [update_of_ne heq]
      exact h.linked tid'

theorem setEntry_class {m : RenameMap} (hm : ∀ c i, (m c i).classValue = c) {reg : RegId}
    {r : PhysRegId} (hr : r.classValue = reg.classValue) :
    ∀ c i, (m.setEntry reg r c i).classValue = c := by
  intro c i
  unfold RenameMap.setEntry
  split
  · by_cases hc : c = reg.classValue
    · subst hc
      rw [update_self]
      by_cases hi : i = reg.index
      · rw [hi, update_self, hr]
      · rw [update_of_ne hi, hm]
    · rw [update_of_ne hc, hm]
  · exact hm c i

theorem Conserved.undoEntry (h : Conserved p s) (htid : tid < p.numThreads) {e : RenameHistory}
    (hhist : (s.threads tid).historyBuffer = e :: rest) : Conserved p (s.undoEntry tid e rest) := by
  have hlink := h.linked tid
  refine h.move htid (undoEntry_threads s tid e rest) (fun r _ => ?_)
    (by simpa using h.freeClass) ?_ ?_
  · rw [undoEntry_freeLists, held_undone hhist hlink (h.mapClass tid)]
  · rw [hhist] at hlink
    unfold undone rewindOne
    split
    · rename_i hc
      exact setEntry_class (h.mapClass tid) (hlink.1 hc).2.2.2
    · exact h.mapClass tid
  · rw [hhist] at hlink
    exact hlink.2

theorem addReg_freeLists (freed : PhysRegId) : (s.addReg freed).freeLists =
    update s.freeLists freed.classValue (s.freeLists freed.classValue ++ [freed]) := rfl

theorem addReg_freeClass (hfree : ∀ c, ∀ r ∈ s.freeLists c, r.classValue = c) (freed : PhysRegId) :
    ∀ c, ∀ r ∈ (s.addReg freed).freeLists c, r.classValue = c := by
  intro c r hmem
  by_cases hc : c = freed.classValue
  · subst hc
    rw [addReg_freeLists, update_self, mem_append, mem_singleton] at hmem
    obtain hmem | rfl := hmem
    · exact hfree _ r hmem
    · rfl
  · rw [addReg_freeLists, update_of_ne hc] at hmem
    exact hfree c r hmem

theorem addReg_count (freed r : PhysRegId) :
    ((s.addReg freed).freeLists r.classValue).count r =
      (s.freeLists r.classValue).count r + if freed = r then 1 else 0 := by
  rw [addReg_freeLists]
  by_cases hc : r.classValue = freed.classValue
  · simp only [hc, update_self, count_append, count_singleton, beq_iff_eq]
  · have hne : freed ≠ r := fun heq => hc (heq ▸ rfl)
    simp only [update_of_ne hc, if_neg hne, Nat.add_zero]

theorem Conserved.commitEntry (h : Conserved p s) (htid : tid < p.numThreads) {e : RenameHistory}
    (hhist : (s.threads tid).historyBuffer = rest.reverse ++ [e]) :
    Conserved p (s.commitEntry tid e rest) := by
  have hlink := h.linked tid
  refine h.move htid (commitEntry_threads s tid e rest) (fun r _ => ?_) ?_ (h.mapClass tid) ?_
  · rw [commitEntry_freeLists]
    by_cases hc : e.changed
    · rw [if_pos hc, addReg_count]
      simp only [held, mapped, previous, hhist, countP_append, countP_singleton, hc,
        Bool.true_and, beq_iff_eq]
      omega
    · simp [held, mapped, previous, hhist, hc]
  · rw [commitEntry_freeLists]
    split
    · exact addReg_freeClass h.freeClass _
    · exact h.freeClass
  · rw [hhist] at hlink
    exact hlink.of_append

theorem addRegs_spec (regs : List PhysRegId) (s : RenameState)
    (hfree : ∀ c, ∀ r ∈ s.freeLists c, r.classValue = c) :
    (∀ c, ∀ r ∈ (regs.foldl RenameState.addReg s).freeLists c, r.classValue = c) ∧
      ∀ r : PhysRegId, ((regs.foldl RenameState.addReg s).freeLists r.classValue).count r =
        (s.freeLists r.classValue).count r + regs.count r := by
  induction regs generalizing s with
  | nil => exact ⟨hfree, fun r => rfl⟩
  | cons reg regs ih =>
    obtain ⟨hfree', hcount⟩ := ih (s.addReg reg) (addReg_freeClass hfree reg)
    refine ⟨hfree', fun r => ?_⟩
    rw [foldl_cons, hcount, addReg_count, count_cons]
    simp only [beq_iff_eq]
    omega

theorem Conserved.releaseRegs (h : Conserved p s) (htid : tid < p.numThreads) :
    Conserved p (s.releaseRegs tid) := by
  obtain ⟨hfree, hcount⟩ := addRegs_spec (s.threads tid).freeingInProgress s h.freeClass
  refine h.move htid releaseRegs_threads (fun r _ => ?_) hfree (h.mapClass tid) (h.linked tid)
  have := hcount r
  simp only [RenameState.releaseRegs, RenameState.modify, held, mapped, previous,
    count_nil] at this ⊢
  omega

theorem Conserved.fresh (h : Conserved p s) (htid : tid < p.numThreads) {c : RegClassType}
    (hc : c.isRenameable = true) {i : Nat} (hi : i < p.numArchRegs c) {r : PhysRegId}
    (hr : r ∈ s.freeLists c) : r ≠ (s.threads tid).renameMap c i := by
  intro heq
  have hclass := h.freeClass c r hr
  have hfree : 0 < (s.freeLists r.classValue).count r := by
    rw [hclass]
    exact count_pos_iff.mpr hr
  have hmapped : 0 < mapped p (s.threads tid) r := by
    refine countP_pos_iff.mpr ⟨i, ?_, ?_⟩
    · simpa [hclass] using hi
    · rw [decide_eq_true_eq, hclass]
      exact heq.symm
  have hheld : held p (s.threads tid) r ≤
      ∑ tid ∈ Finset.range p.numThreads, held p (s.threads tid) r :=
    Finset.single_le_sum (f := fun tid => held p (s.threads tid) r) (fun _ _ => Nat.zero_le _)
      (Finset.mem_range.mpr htid)
  have honce := h.once r (hclass ▸ hc)
  unfold places at honce
  unfold held at hheld honce
  split at honce <;> omega

theorem Conserved.renameDestReg (h : Conserved p s) (htid : tid < p.numThreads)
    (seqNum : InstSeqNum) {reg : RegId}
    (hi : reg.classValue.isRenameable = true → reg.index < p.numArchRegs reg.classValue) :
    Conserved p (s.renameDestReg p tid seqNum reg) := by
  have hlink := h.linked tid
  obtain ⟨r, hthreads, hfree, -⟩ | ⟨r, free, hr, hlist, hthreads, hfree, -⟩ :=
    renameDestReg_cases p s tid seqNum reg
  · refine h.move htid hthreads (fun r' _ => ?_) (hfree ▸ h.freeClass) (h.mapClass tid) ?_
    · rw [hfree]
      simp [held, mapped, previous, RenameHistory.changed]
    · exact ⟨fun hc => by simp [RenameHistory.changed] at hc,
        by simpa [rewindOne, RenameHistory.changed] using hlink⟩
  · have hmem : r ∈ s.freeLists reg.classValue := by simp [hlist]
    have hclass := h.freeClass _ r hmem
    have hfresh := h.fresh htid hr (hi hr) hmem
    refine h.move htid hthreads (fun r' _ => ?_) (fun c r' hmem' => ?_)
      (setEntry_class (h.mapClass tid) hclass) ⟨fun _ => ?_, ?_⟩
    · have hmap := mapped_setEntry hr (hi hr) (h.mapClass tid) hclass r'
      have hcount : ((s.renameDestReg p tid seqNum reg).freeLists r'.classValue).count r' +
          (if r = r' then 1 else 0) = (s.freeLists r'.classValue).count r' := by
        rw [hfree]
        by_cases hc : r'.classValue = reg.classValue
        · rw [hc, update_self, hlist, count_cons]
          simp only [beq_iff_eq]
        · have hne : r ≠ r' := fun heq => hc (heq ▸ hclass)
          rw [update_of_ne hc, if_neg hne, Nat.add_zero]
      simp only [held, mapped, previous, countP_cons, RenameHistory.changed, bne_iff_ne, ne_eq,
        hfresh, not_false_eq_true, Bool.and_eq_true, beq_iff_eq, true_and] at hmap ⊢
      omega
    · rw [hfree] at hmem'
      by_cases hc : c = reg.classValue
      · subst hc
        rw [update_self] at hmem'
        exact h.freeClass _ r' (by simp [hlist, hmem'])
      · rw [update_of_ne hc] at hmem'
        exact h.freeClass c r' hmem'
    · refine ⟨hr, hi hr, ?_, h.mapClass tid _ _⟩
      simp [RenameMap.setEntry, hr]
    · have hback : rewindOne ((s.threads tid).renameMap.setEntry reg r)
          ⟨seqNum, reg, r, (s.threads tid).renameMap reg.classValue reg.index⟩ =
            (s.threads tid).renameMap := by
        simp only [rewindOne, RenameHistory.changed, bne_iff_ne, ne_eq, hfresh, not_false_eq_true,
          if_true, setEntry_setEntry, setEntry_eq_self]
      rw [hback]
      exact hlink

end

section

variable {s : RenameState} {tid : ThreadID}

def Enough (s : RenameState) (destRegs : List RegId) : Prop :=
  ∀ c : RegClassType, c.isRenameable = true →
    destRegs.countP (fun reg => reg.classValue == c) ≤ (s.freeLists c).length

private theorem enough_of_canRename {destRegs : List RegId} (h : s.canRename destRegs = true) :
    Enough s destRegs := by
  intro c hc
  have hmem : c ∈ RegClassType.renameMaps := by
    cases c <;> first | decide | exact absurd hc (by decide)
  simpa using all_eq_true.mp h c hmem

theorem Enough.renameDestReg {reg : RegId} {destRegs : List RegId}
    (h : Enough s (reg :: destRegs)) (p : Params) (tid : ThreadID) (seqNum : InstSeqNum) :
    Enough (s.renameDestReg p tid seqNum reg) destRegs ∧
      (s.renameDestReg p tid seqNum reg).getRegFailed = s.getRegFailed := by
  have hcount : ∀ c : RegClassType, c.isRenameable = true →
      destRegs.countP (fun reg => reg.classValue == c) + (if reg.classValue = c then 1 else 0) ≤
        (s.freeLists c).length := by
    intro c hc
    simpa [countP_cons] using h c hc
  obtain ⟨r, -, hfree, hfailed⟩ | ⟨r, free, hr, hlist, -, hfree, hfailed⟩ :=
    renameDestReg_cases p s tid seqNum reg
  · refine ⟨fun c hc => ?_, hfailed.resolve_right fun hempty => ?_⟩
    · have := hcount c hc
      rw [hfree]
      omega
    · have := hcount reg.classValue hempty.1
      simp [hempty.2] at this
  · refine ⟨fun c hc => ?_, hfailed⟩
    have := hcount c hc
    rw [hfree]
    by_cases heq : c = reg.classValue
    · subst heq
      rw [hlist] at this
      simpa using this
    · rw [update_of_ne heq]
      omega

theorem Conserved.renameDestRegs (htid : tid < p.numThreads) (seqNum : InstSeqNum)
    (destRegs : List RegId) : ∀ {s : RenameState}, Conserved p s → Enough s destRegs →
      (∀ reg ∈ destRegs, reg.classValue.isRenameable = true →
        reg.index < p.numArchRegs reg.classValue) →
      Conserved p (s.renameDestRegs p tid seqNum destRegs) ∧
        (s.renameDestRegs p tid seqNum destRegs).getRegFailed = s.getRegFailed := by
  induction destRegs with
  | nil => exact fun h _ _ => ⟨h, rfl⟩
  | cons reg destRegs ih =>
    intro s h henough hvalid
    obtain ⟨hnext, hfailed⟩ := henough.renameDestReg p tid seqNum
    obtain ⟨hconserved, hfailed'⟩ := ih (h.renameDestReg htid seqNum (hvalid reg (by simp))) hnext
      fun reg' hmem => hvalid reg' (by simp [hmem])
    exact ⟨hconserved, hfailed'.trans hfailed⟩

def Allowed (p : Params) (s : RenameState) : Event → Prop
  | .rename tid _ destRegs => tid < p.numThreads ∧ s.canRename destRegs = true ∧
      ∀ reg ∈ destRegs, reg.classValue.isRenameable = true →
        reg.index < p.numArchRegs reg.classValue
  | .commit tid _ | .squash tid _ | .release tid => tid < p.numThreads
  | .setSquashed _ _ => True

instance (p : Params) (s : RenameState) : DecidablePred (Allowed p s) := fun e => by
  cases e <;> dsimp only [Allowed] <;> infer_instance

theorem Conserved.step (h : Conserved p s ∧ s.getRegFailed = false) {e : Event}
    (ha : Allowed p s e) : Conserved p (step p s e) ∧ (step p s e).getRegFailed = false := by
  obtain ⟨hs, hfailed⟩ := h
  cases e with
  | rename tid seqNum destRegs =>
    obtain ⟨hconserved, hsame⟩ :=
      Conserved.renameDestRegs ha.1 seqNum destRegs hs (enough_of_canRename ha.2.1) ha.2.2
    exact ⟨hconserved, hsame.trans hfailed⟩
  | commit tid c =>
    exact (removeFromHistory_inv (fun s' => Conserved p s' ∧ s'.getRegFailed = false)
      (fun s' e rest hhist _ hs' => ⟨hs'.1.commitEntry ha hhist, by simpa using hs'.2⟩)
      ⟨hs, hfailed⟩).1
  | squash tid sn =>
    exact (doSquash_inv (fun s' => Conserved p s' ∧ s'.getRegFailed = false)
      (fun s' e rest hhist _ hs' => ⟨hs'.1.undoEntry ha hhist, by simpa using hs'.2⟩)
      ⟨hs, hfailed⟩).1
  | release tid =>
    exact ⟨hs.releaseRegs ha, (addRegs_frame _ s).2.trans hfailed⟩
  | setSquashed dests written =>
    obtain ⟨hthreads, hfree, hsame⟩ := setSquashed_frame dests written s
    refine ⟨⟨fun r hr => ?_, ?_, ?_, ?_⟩, hsame.trans hfailed⟩
    · rw [← hs.once r hr]
      simp only [places, Rename.step, hthreads, hfree]
    · simpa only [Rename.step, hfree] using hs.freeClass
    · simpa only [Rename.step, hthreads] using hs.mapClass
    · simpa only [Rename.step, hthreads] using hs.linked

end

private theorem countP_consecutive (n base : Nat) (r : PhysRegId) :
    (List.range n).countP (fun i => (⟨r.classValue, base + i⟩ : PhysRegId) = r) =
      if base ≤ r.index ∧ r.index < base + n then 1 else 0 := by
  have hiff : ∀ i, (⟨r.classValue, base + i⟩ : PhysRegId) = r ↔
      base ≤ r.index ∧ i = r.index - base := by
    intro i
    obtain ⟨c, index⟩ := r
    simp only [PhysRegId.mk.injEq, true_and]
    omega
  by_cases hbase : base ≤ r.index
  · have hcount : (List.range n).countP (fun i => (⟨r.classValue, base + i⟩ : PhysRegId) = r) =
        (List.range n).count (r.index - base) := by
      refine countP_congr fun i _ => ?_
      simp [hiff, hbase]
    rw [hcount, nodup_range.count]
    simp only [mem_range, hbase, true_and]
    congr 1
    exact propext (by omega)
  · rw [countP_eq_zero.mpr (by simp [hiff, hbase]), if_neg (by simp [hbase])]

private theorem sum_consecutive (n a i : Nat) :
    (∑ tid ∈ Finset.range n, if tid * a ≤ i ∧ i < tid * a + a then 1 else 0) =
      if i < n * a then 1 else 0 := by
  induction n with
  | zero => simp
  | succ n ih =>
    rw [Finset.sum_range_succ, ih, Nat.succ_mul]
    by_cases h : i < n * a
    · rw [if_pos h, if_neg (by omega), if_pos (by omega)]
    · rw [if_neg h, Nat.zero_add]
      congr 1
      exact propext (by omega)

theorem start_conserved (henough : ∀ c, c.isRenameable = true →
    p.numThreads * p.numArchRegs c ≤ p.numPhysRegs c) : Conserved p (start p) where
  once := by
    intro r hclass
    have hheld : ∀ tid : Nat, held p ((start p).threads tid) r =
        if tid * p.numArchRegs r.classValue ≤ r.index ∧
          r.index < tid * p.numArchRegs r.classValue + p.numArchRegs r.classValue then 1 else 0 := by
      intro tid
      have hmapped : mapped p ((start p).threads tid) r = _ := countP_consecutive _ _ r
      rw [held, hmapped]
      simp [previous, start]
    have hfree : ((start p).freeLists r.classValue).count r =
        if p.numThreads * p.numArchRegs r.classValue ≤ r.index ∧
          r.index < p.numThreads * p.numArchRegs r.classValue + (p.numPhysRegs r.classValue -
            p.numThreads * p.numArchRegs r.classValue) then 1 else 0 := by
      rw [← countP_consecutive]
      simp [start, List.count, countP_map, Function.comp_def, beq_eq_decide]
    unfold places
    rw [hfree, Finset.sum_congr rfl fun tid _ => hheld tid, sum_consecutive]
    have := henough r.classValue hclass
    split <;> split <;> split <;> omega
  freeClass := by
    intro c r hmem
    obtain ⟨i, -, rfl⟩ := mem_map.mp hmem
    rfl
  mapClass := fun tid c i => rfl
  linked := fun tid => trivial

/-- From the state that the CPU starts in, every run of renames, commits, squashes and
releases keeps each physical register in exactly one place, and no register is taken
from an empty free list. -/
theorem registers_conserved (p : Params) (henough : ∀ c, c.isRenameable = true →
      p.numThreads * p.numArchRegs c ≤ p.numPhysRegs c) (events : List Event)
    (hl : Legal (step p) (Allowed p) (start p) events) :
    let s := run (step p) (start p) events
    (∀ r : PhysRegId, r.classValue.isRenameable = true →
      places p r s = if r.index < p.numPhysRegs r.classValue then 1 else 0) ∧
      s.getRegFailed = false := by
  intro s
  have h : Conserved p s ∧ s.getRegFailed = false :=
    run_inv (fun s => Conserved p s ∧ s.getRegFailed = false) (fun _ _ h ha => Conserved.step h ha)
      events ⟨start_conserved henough, rfl⟩ hl
  exact ⟨h.1.once, h.2⟩

/-- A pinned register is renamed to itself; the third instruction is squashed and its register
released, the first one commits. -/
def pinnedAndSquashed : List Event :=
  [.rename 0 1 [⟨.int, 0, 1⟩], .rename 0 2 [⟨.int, 0, 0⟩],
    .rename 1 3 [⟨.int, 1, 0⟩, ⟨.misc, 5, 0⟩], .commit 0 1, .squash 1 2, .release 1]

theorem registers_conserved_pinnedAndSquashed :
    let s := run (step twoThreads) (start twoThreads) pinnedAndSquashed
    s.freeLists .int = [⟨.int, 6⟩, ⟨.int, 7⟩, ⟨.int, 8⟩, ⟨.int, 9⟩, ⟨.int, 0⟩, ⟨.int, 5⟩] ∧
      (s.threads 0).renameMap .int 0 = ⟨.int, 4⟩ ∧ places twoThreads ⟨.int, 4⟩ s = 1 ∧
      s.getRegFailed = false := by
  have hrun := registers_conserved twoThreads
    (fun c => by cases c <;> decide) pinnedAndSquashed (by decide)
  exact ⟨by decide +kernel, by decide +kernel, hrun.1 ⟨.int, 4⟩ rfl, hrun.2⟩

end Gem5Core.O3.RenameConservation
