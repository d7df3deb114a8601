import Gem5Core.O3.InstQueueInv

/-! A squash of the instruction queue, from the youngest instruction on: nodes are found where they
are looked for, and no reader is left behind. -/
namespace Gem5Core.O3.InstQueueSquash
open Pred.Branch InstQueue InstQueueInv List InstructionQueue

variable {n : Nat} {q : InstructionQueue} {sn x : InstSeqNum} {s : Nat}

/-- All nodes of the instruction are found and removed, once for each operand. -/
theorem foldl_removeSrc (sn : InstSeqNum) (srcs : List Src) {q : InstructionQueue}
    (hg : ∀ s, (q.dependGraph s).next = [] ∨
      (q.dependGraph s).next.count sn = (unready srcs).count s) :
    ∃ g, srcs.foldl (removeSrc sn) q = { q with dependGraph := g } ∧
      ∀ s x, (g s).next.count x = if x = sn then 0 else (q.dependGraph s).next.count x := by
  induction srcs generalizing q with
  | nil =>
    refine ⟨q.dependGraph, rfl, fun s x => ?_⟩
    split
    next hx =>
      subst hx
      rcases hg s with hnil | hcount
      · simp [hnil]
      · simpa using hcount
    next => rfl
  | cons src srcs ih =>
    rw [foldl_cons]
    rw [unready_cons] at hg
    cases hskip : src.ready || src.reg.isAlwaysReady with
    | true =>
      have hsrc : q.removeSrc sn src = q := by simp [removeSrc, hskip]
      rw [hsrc]
      exact ih (by simpa [awaits, hskip] using hg)
    | false =>
      have hawaits : awaits src = true := by simp only [awaits, hskip, Bool.not_false]
      rw [if_pos hawaits] at hg
      generalize hidx : src.reg.flatIndex = idx at hg
      cases hempty : q.dependGraph.empty idx with
      | true =>
        have hsrc : q.removeSrc sn src = q := by
          simp [removeSrc, DependencyGraph.remove, hskip, hidx, hempty]
        rw [hsrc]
        refine ih fun s => ?_
        by_cases hs : s = idx
        · exact .inl (by simpa [DependencyGraph.empty, hs] using hempty)
        · simpa [count_cons_of_ne (Ne.symm hs)] using hg s
      | false =>
        -- the register is not produced, so the node is there
        have hcount : (q.dependGraph idx).next.count sn = (unready srcs).count idx + 1 := by
          rcases hg idx with hnil | hcount
          · simp [DependencyGraph.empty, hnil] at hempty
          · simpa using hcount
        have hmem : sn ∈ (q.dependGraph idx).next := count_pos_iff.mp (by omega)
        have hsrc : q.removeSrc sn src = { q with
            dependGraph := q.dependGraph.setNext idx ((q.dependGraph idx).next.erase sn) } := by
          simp [removeSrc, DependencyGraph.remove, hskip, hidx, hempty, hmem]
        rw [hsrc]
        obtain ⟨g, heq, hcounts⟩ := ih (q := { q with
            dependGraph := q.dependGraph.setNext idx ((q.dependGraph idx).next.erase sn) })
          fun s => by
            by_cases hs : s = idx
            · subst hs
              exact .inr (by simp [count_erase_self, hcount])
            · simpa [setNext_of_ne _ hs, count_cons_of_ne (Ne.symm hs)] using hg s
        refine ⟨g, heq, fun s x => (hcounts s x).trans ?_⟩
        split
        · rfl
        next hx =>
          by_cases hs : s = idx
          · subst hs
            simp [count_erase_of_ne hx]
          · simp [setNext_of_ne _ hs]

theorem foldl_clearDest (dests : List PhysReg) {q : InstructionQueue}
    (hg : ∀ d ∈ dests, d.isAlwaysReady = false → (q.dependGraph d.flatIndex).next = []) :
    ∃ g, dests.foldl clearDest q = { q with dependGraph := g } ∧
      ∀ s, (g s).next = (q.dependGraph s).next := by
  induction dests generalizing q with
  | nil => exact ⟨q.dependGraph, rfl, fun _ => rfl⟩
  | cons d dests ih =>
    rw [foldl_cons]
    cases hd : d.isAlwaysReady with
    | true =>
      have hclear : q.clearDest d = q := by simp [clearDest, hd]
      rw [hclear]
      exact ih fun d' hd' => hg d' (mem_cons_of_mem _ hd')
    | false =>
      have hnil := hg d mem_cons_self hd
      have hclear : q.clearDest d =
          { q with dependGraph := q.dependGraph.clearInst d.flatIndex } := by
        simp [clearDest, hd, DependencyGraph.empty, hnil]
      rw [hclear]
      obtain ⟨g, heq, hnext⟩ := ih
        (q := { q with dependGraph := q.dependGraph.clearInst d.flatIndex })
        fun d' hd' halways => by simpa using hg d' (mem_cons_of_mem _ hd') halways
      exact ⟨g, heq, fun s => by simpa using hnext s⟩

structure Removed (q : InstructionQueue) (sn : InstSeqNum) (g : DependencyGraph InstSeqNum)
    (nonSpecInsts : List InstSeqNum) : Prop where
  graph : ∀ s x, (g s).next.count x = if x = sn then 0 else (q.dependGraph s).next.count x
  nonSpec : nonSpecInsts.Sublist q.nonSpecInsts
  others : ∀ x ∈ q.nonSpecInsts, x ≠ sn → x ∈ nonSpecInsts

theorem Removed.of_no_node (h : Wf n q)
    (hout : (q.insts sn).viaInsert = false ∨ (q.insts sn).inIQ = false)
    {nonSpecInsts : List InstSeqNum} (hns : nonSpecInsts.Sublist q.nonSpecInsts)
    (hns' : ∀ x ∈ q.nonSpecInsts, x ≠ sn → x ∈ nonSpecInsts) :
    Removed q sn q.dependGraph nonSpecInsts := by
  refine ⟨fun s x => ?_, hns, hns'⟩
  split
  next hx =>
    refine count_eq_zero.mpr fun hmem => ?_
    obtain ⟨-, hvia, hin⟩ := h.waiting s sn (hx ▸ hmem)
    simp [hvia, hin] at hout
  next => rfl

def dropped (q : InstructionQueue) (sn : InstSeqNum) (t : ThreadID) (inQueue : Bool)
    (g : DependencyGraph InstSeqNum) (nonSpecInsts : List InstSeqNum) : InstructionQueue :=
  { q with
    insts := fun x =>
      { q.insts x with
        inIQ := (q.insts x).inIQ && !decide (x = sn)
        issued := (q.insts x).issued || decide (x = sn)
        squashedInIQ := (q.insts x).squashedInIQ || (decide (x = sn) && inQueue) }
    dependGraph := g
    nonSpecInsts
    instList := Function.update q.instList t ((q.instList t).erase sn) }

variable {t : ThreadID}

theorem dropped_wf (h : Wf n q) (hsn : sn ∈ q.instList t) {g : DependencyGraph InstSeqNum}
    {nonSpecInsts : List InstSeqNum} (hr : Removed q sn g nonSpecInsts) :
    Wf n (dropped q sn t (q.insts sn).inIQ g nonSpecInsts) := by
  obtain ⟨hg, hns, hns'⟩ := hr
  generalize hin : (q.insts sn).inIQ = inQueue
  have hmem : ∀ s x, x ∈ (g s).next → x ∈ (q.dependGraph s).next ∧ x ≠ sn := by
    intro s x hx
    have hpos := count_pos_iff.mpr hx
    rw [hg s x] at hpos
    split at hpos
    · omega
    next hne => exact ⟨count_pos_iff.mp hpos, hne⟩
  have hlist : ∀ t', (dropped q sn t inQueue g nonSpecInsts).instList t' =
      (q.instList t').filter (· ≠ sn) := by
    intro t'
    by_cases ht : t' = t
    · subst ht
      have hnodup : (q.instList t').Nodup := (h.sorted t').imp fun hlt => hlt.ne
      simp only [dropped, Function.update_self]
      rw [hnodup.erase_eq_filter]
      exact filter_congr fun x _ => by by_cases hx : x = sn <;> simp [hx]
    · -- the instruction is in the list of its own thread only
      have hnot : ∀ x ∈ q.instList t', x ≠ sn := by
        rintro x hx rfl
        exact ht ((h.listed t' x hx).2.1.symm.trans (h.listed t x hsn).2.1)
      simp only [dropped, Function.update_of_ne ht]
      exact (filter_eq_self.mpr fun x hx => by simpa using hnot x hx).symm
  have hin' : ∀ x, ((dropped q sn t inQueue g nonSpecInsts).insts x).inIQ = true →
      (q.insts x).inIQ = true ∧ x ≠ sn := fun x hx => by simpa [dropped] using hx
  have hsq' : ∀ x, ((dropped q sn t inQueue g nonSpecInsts).insts x).squashedInIQ = false →
      (q.insts x).squashedInIQ = false ∧ (x = sn → inQueue = false) := fun x hx => by
    simpa [dropped] using hx
  -- an instruction that had left the queue was issued
  have hissued : inQueue = false → (q.insts sn).issued = true := by
    intro hout
    have hheld := h.held t sn hsn
    rw [hin, hout] at hheld
    simpa using (Bool.or_eq_false_iff.mp hheld.symm).1
  have hlisted : ∀ t' x, x ∈ (dropped q sn t inQueue g nonSpecInsts).instList t' →
      x ∈ q.instList t' ∧ x ≠ sn := fun t' x hx => by
    simpa [hlist t'] using hx
  exact { h with
    account := by
      intro x hvia hsq
      obtain ⟨hsq, hout⟩ := hsq' x hsq
      change (q.insts x).readyRegs + nodes n g x = (q.insts x).srcs.length
      by_cases hx : x = sn
      · have hzero : nodes n g x = 0 :=
          nodes_eq_zero_iff.mpr fun s _ => by rw [hg s x, if_pos hx]
        rw [hzero]
        exact h.issued x hvia hsq (hx ▸ hissued (hout hx))
      · have hsame : nodes n g x = nodes n q.dependGraph x :=
          nodes_congr fun s => by rw [hg s x, if_neg hx]
        rw [hsame]
        exact h.account x hvia hsq
    ready := fun x hvia hsq => h.ready x hvia (hsq' x hsq).1
    issued := by
      intro x hvia hsq hx
      obtain ⟨hsq, hout⟩ := hsq' x hsq
      refine h.issued x hvia hsq ?_
      by_cases hxsn : x = sn
      · exact hxsn ▸ hissued (hout hxsn)
      · simpa [dropped, hxsn] using hx
    waiting := by
      intro s x hx
      obtain ⟨hx, hne⟩ := hmem s x hx
      obtain ⟨hs, hvia, hxin⟩ := h.waiting s x hx
      exact ⟨hs, hvia, by simp [dropped, hxin, hne]⟩
    unsquashed := by
      intro x hx
      obtain ⟨hx, hne⟩ := hin' x hx
      simp [dropped, h.unsquashed x hx, hne]
    listed := by
      intro t' x hx
      obtain ⟨hx, hne⟩ := hlisted t' x hx
      obtain ⟨hentered, hthread, hsq⟩ := h.listed t' x hx
      exact ⟨hentered, hthread, by simp [dropped, hsq, hne]⟩
    sorted := by
      intro t'
      rw [hlist t']
      exact (h.sorted t').filter _
    queued := by
      intro x hx
      obtain ⟨hx, hne⟩ := hin' x hx
      rw [hlist]
      exact mem_filter.mpr ⟨h.queued x hx, by simpa using hne⟩
    held := by
      intro t' x hx
      obtain ⟨hx, hne⟩ := hlisted t' x hx
      simpa [dropped, hne] using h.held t' x hx
    done := by
      intro x hx
      exact Bool.or_eq_true_iff.mpr (.inl (h.done x hx))
    known := fun x hx => h.known x (hx.imp_right fun hx => (hin' x hx).1)
    places := by
      intro x hx hvia s
      obtain ⟨hx, hne⟩ := hin' x hx
      change (g s).next.count x = _
      rw [hg s x, if_neg hne]
      exact h.places x hx hvia s
    order := by
      intro t' p hp s hs x hx
      exact h.order t' p (hlisted t' p hp).1 s hs x (hmem s x hx).1
    kind := fun x hx => h.kind x (hin' x hx).1
    nonSpec := by
      intro x hx hvia
      obtain ⟨hx, hne⟩ := hin' x hx
      exact (h.nonSpec x hx hvia).imp_left fun hmem => hns' x hmem hne
    nonSpecKind := fun x hx => h.nonSpecKind x (hns.subset hx) }

theorem no_reader (h : Wf n q) (hsn : sn ∈ q.instList t) (hlast : ∀ x ∈ q.instList t, x ≤ sn)
    (hs : s ∈ (q.insts sn).destRegs) : (q.dependGraph s).next = [] := by
  refine eq_nil_iff_forall_not_mem.mpr fun x hx => ?_
  obtain ⟨hthread, hlt⟩ := h.order t sn hsn s hs x hx
  have hmem := h.queued x (h.waiting s x hx).2.2
  exact absurd (hlast x (hthread ▸ hmem)) hlt.not_ge

/-- A scheduled instruction that was not issued has a fault, unless it accesses memory. -/
def Excused (q : InstructionQueue) (sn : InstSeqNum) : Prop :=
  (q.insts sn).atCommit = true → (q.insts sn).issued = false →
    (q.insts sn).fault = true ∨ (q.insts sn).isMemRef = true

theorem squashQueued_eq (h : Wf n q) (hsn : sn ∈ q.instList t) (hin : (q.insts sn).inIQ = true)
    (hcommit : Excused q sn) :
    ∃ g nonSpecInsts, q.squashQueued sn =
        { q with
          insts := (dropped q sn t true g nonSpecInsts).insts
          dependGraph := g
          nonSpecInsts } ∧
      Removed q sn g nonSpecInsts := by
  have hinsts : ∀ q' : InstructionQueue, q'.insts = q.insts →
      (q'.clearInIQ sn).modifyInst sn (fun i => { i with squashedInIQ := true, issued := true }) =
        { q' with insts := (dropped q sn t true q.dependGraph []).insts } := by
    intro q' hq'
    unfold clearInIQ modifyInst dropped
    simp only [hq', Function.update_self, hin, Bool.and_true]
    congr 1
    funext x
    by_cases hx : x = sn <;> simp [hx]
  unfold squashQueued
  dsimp only
  rw [h.kind sn hin]
  cases hvia : (q.insts sn).viaInsert with
  | true =>
    obtain ⟨g, heq, hg⟩ := foldl_removeSrc sn (q.insts sn).srcs (q := q) fun s => by
      cases hsb : q.regScoreboard s with
      | true =>
        refine .inl (eq_nil_iff_forall_not_mem.mpr fun x hx => ?_)
        simp [(h.scoreboard hx).1] at hsb
      | false => exact .inr (by simpa [hsb] using h.places sn hin hvia s)
    rw [heq]
    exact ⟨g, q.nonSpecInsts, hinsts { q with dependGraph := g } rfl, hg, .refl _,
      fun x hx _ => hx⟩
  | false =>
    rw [if_neg Bool.false_ne_true]
    split
    · exact ⟨q.dependGraph, q.nonSpecInsts.erase sn,
        hinsts { q with nonSpecInsts := q.nonSpecInsts.erase sn } rfl,
        .of_no_node h (.inl hvia) erase_sublist fun x hx hne => (mem_erase_of_ne hne).mpr hx⟩
    next hcontains =>
      -- it was scheduled
      have hatCommit : (q.insts sn).atCommit = true :=
        (h.nonSpec sn hin hvia).resolve_left fun hmem =>
          hcontains (contains_iff_mem.mpr hmem)
      have hfault : ((q.insts sn).fault || (q.insts sn).isMemRef) = true := by
        cases hissued : (q.insts sn).issued with
        | false => exact Bool.or_eq_true_iff.mpr (hcommit hatCommit hissued)
        | true =>
          have hheld := h.held t sn hsn
          rw [hin, hissued] at hheld
          have hmem : (q.insts sn).isMemRef = true :=
            ((Bool.and_eq_true _ _).mp hheld.symm).1
          rw [hmem, Bool.or_true]
      rw [hfault, Bool.and_true]
      exact ⟨q.dependGraph, q.nonSpecInsts, hinsts q rfl,
        .of_no_node h (.inl hvia) (.refl _) fun x hx _ => hx⟩

theorem squashInst_eq (h : Wf n q) (hsn : sn ∈ q.instList t) (hlast : ∀ x ∈ q.instList t, x ≤ sn)
    (hcommit : Excused q sn) :
    ∃ g nonSpecInsts, q.squashInst sn t =
        dropped q sn t (q.insts sn).inIQ g nonSpecInsts ∧ Removed q sn g nonSpecInsts := by
  -- the destinations have no readers, whatever was removed
  have hdests : ∀ (q' : InstructionQueue) {g : DependencyGraph InstSeqNum}
      {nonSpecInsts : List InstSeqNum}, Removed q sn g nonSpecInsts → q'.dependGraph = g →
      ∃ g', (q.insts sn).dests.foldl clearDest q' =
          { q' with dependGraph := g' } ∧ Removed q sn g' nonSpecInsts := by
    intro q' g nonSpecInsts hremoved hq'
    obtain ⟨g', heq, hnext⟩ := foldl_clearDest (q.insts sn).dests (q := q') fun d hd halways => by
      have hs : d.flatIndex ∈ (q.insts sn).destRegs :=
        mem_map_of_mem (mem_filter.mpr ⟨hd, by simp [halways]⟩)
      refine eq_nil_iff_forall_not_mem.mpr fun x hx => ?_
      have hcount := hremoved.graph d.flatIndex x
      rw [← hq', no_reader h hsn hlast hs, count_nil, ite_self] at hcount
      exact count_eq_zero.mp hcount hx
    exact ⟨g', heq, fun s x => by rw [hnext s, hq', hremoved.graph s x], hremoved.nonSpec,
      hremoved.others⟩
  unfold squashInst
  dsimp only
  rw [← h.held t sn hsn]
  cases hin : (q.insts sn).inIQ with
  | true =>
    obtain ⟨g, nonSpecInsts, heq, hremoved⟩ := squashQueued_eq h hsn hin hcommit
    rw [if_pos rfl, heq]
    obtain ⟨g', heq', hremoved'⟩ := hdests
      { q with
        insts := (dropped q sn t true g nonSpecInsts).insts
        dependGraph := g
        nonSpecInsts } hremoved rfl
    rw [heq']
    exact ⟨g', nonSpecInsts, rfl, hremoved'⟩
  | false =>
    have hremoved : Removed q sn q.dependGraph q.nonSpecInsts :=
      .of_no_node h (.inr hin) (.refl _) fun x hx _ => hx
    rw [if_neg Bool.false_ne_true]
    obtain ⟨g', heq', hremoved'⟩ := hdests q hremoved rfl
    rw [heq']
    refine ⟨g', q.nonSpecInsts, ?_, hremoved'⟩
    have hissued : (q.insts sn).issued = true := by
      have hheld := h.held t sn hsn
      rw [hin] at hheld
      simpa using (Bool.or_eq_false_iff.mp hheld.symm).1
    congr 1
    funext x
    by_cases hx : x = sn
    · subst hx
      have hsame : q.insts x = { q.insts x with inIQ := false, issued := true } := by
        rw [← hin, ← hissued]
      simpa using hsame
    · simp [hx]

theorem squashLoop_wf (squashedSeqNum : InstSeqNum) (t : ThreadID) {l : List InstSeqNum}
    (h : Wf n q) (hl : q.instList t = l.reverse)
    (hcommit : ∀ x ∈ l, squashedSeqNum < x → Excused q x) :
    Wf n (squashLoop squashedSeqNum t l q) := by
  induction l generalizing q with
  | nil => exact h
  | cons x older ih =>
    unfold squashLoop
    split
    next hlt =>
      rw [reverse_cons] at hl
      have hx : x ∈ q.instList t := by simp [hl]
      have hsorted := h.sorted t
      rw [hl, pairwise_append] at hsorted
      have holder : ∀ y ∈ older, y < x := fun y hy =>
        hsorted.2.2 y (mem_reverse.mpr hy) x mem_cons_self
      obtain ⟨-, hthread, hsq⟩ := h.listed t x hx
      have hlast : ∀ y ∈ q.instList t, y ≤ x := by
        intro y hy
        rw [hl] at hy
        rcases mem_append.mp hy with hy | hy
        · exact (holder y (mem_reverse.mp hy)).le
        · exact (mem_singleton.mp hy).le
      have hqueue : ((q.insts x).threadNumber != t || (q.insts x).squashedInIQ) = false := by
        simp [hthread, hsq]
      rw [if_neg (by simp [hqueue])]
      obtain ⟨g, nonSpecInsts, heq, hremoved⟩ :=
        squashInst_eq h hx hlast (hcommit x mem_cons_self hlt)
      rw [heq]
      refine ih (dropped_wf h hx hremoved) ?_ ?_
      · have hnot : x ∉ older.reverse := fun hmem =>
          lt_irrefl x (holder x (mem_reverse.mp hmem))
        simp only [dropped, Function.update_self, hl]
        rw [erase_append_right _ hnot, erase_cons_head, append_nil]
      · intro y hy hlt' hatCommit hissued
        have hne : y ≠ x := (holder y hy).ne
        refine hcommit y (mem_cons_of_mem _ hy) hlt' hatCommit ?_
        simpa [dropped, hne] using hissued
    next => exact h

theorem doSquash_wf (h : Wf n q) {squashedSeqNum : InstSeqNum}
    (hcommit : ∀ x ∈ q.instList t, squashedSeqNum < x → Excused q x) :
    Wf n (q.doSquash squashedSeqNum t) :=
  squashLoop_wf squashedSeqNum t h (reverse_reverse _).symm fun x hx =>
    hcommit x (mem_reverse.mp hx)

end Gem5Core.O3.InstQueueSquash
