import Mathlib.Algebra.Order.BigOperators.Group.Finset
import Gem5Core.O3.InstQueue

/-! The accounts of the instruction queue: the sources that an instruction has counted and its nodes
in the dependency graph add up to its sources. -/
namespace Gem5Core.O3.InstQueueInv
open Pred.Branch InstQueue Function
open List hiding beq_eq_decide
open InstructionQueue

variable {n : Nat} {q : InstructionQueue} {sn r x : InstSeqNum} {s : Nat}

section

variable {α : Type} (g : DependencyGraph α) (idx s : Nat)

@[simp] theorem setNext_self (next : List α) : (g.setNext idx next idx).next = next := by
  simp [DependencyGraph.setNext]

theorem setNext_of_ne {idx s : Nat} (h : s ≠ idx) (next : List α) :
    g.setNext idx next s = g s := by
  simp [DependencyGraph.setNext, h]

@[simp] theorem setInst_next (x : α) : (g.setInst idx x s).next = (g s).next := by
  by_cases h : s = idx <;> simp [DependencyGraph.setInst, h]

@[simp] theorem clearInst_next : (g.clearInst idx s).next = (g s).next := by
  by_cases h : s = idx <;> simp [DependencyGraph.clearInst, h]

end

def nodes (n : Nat) (g : DependencyGraph InstSeqNum) (r : InstSeqNum) : Nat :=
  ∑ s ∈ Finset.range n, (g s).next.count r

section

variable {g g' : DependencyGraph InstSeqNum}

theorem nodes_congr (h : ∀ s, (g' s).next.count r = (g s).next.count r) :
    nodes n g' r = nodes n g r :=
  Finset.sum_congr rfl fun s _ => h s

private theorem nodes_setNext (hs : s < n) (next : List InstSeqNum) (r : InstSeqNum) :
    nodes n (g.setNext s next) r + (g s).next.count r = nodes n g r + next.count r := by
  have hmem := Finset.mem_range.mpr hs
  unfold nodes
  rw [← Finset.add_sum_erase _ _ hmem, ← Finset.add_sum_erase _ _ hmem, setNext_self,
    Finset.sum_congr rfl fun x hx => by rw [setNext_of_ne g (Finset.ne_of_mem_erase hx)]]
  omega

private theorem count_le_nodes (hs : s < n) : (g s).next.count r ≤ nodes n g r :=
  Finset.single_le_sum (f := fun s => (g s).next.count r) (fun _ _ => Nat.zero_le _)
    (Finset.mem_range.mpr hs)

private theorem nodes_pos (hs : s < n) (hr : r ∈ (g s).next) : 0 < nodes n g r :=
  (count_pos_iff.mpr hr).trans_le (count_le_nodes hs)

theorem nodes_eq_zero_iff : nodes n g r = 0 ↔ ∀ s < n, (g s).next.count r = 0 := by
  simp [nodes, Finset.sum_eq_zero_iff]

end

def awaits (src : Src) : Bool := !(src.ready || src.reg.isAlwaysReady)

def unready (srcs : List Src) : List Nat := (srcs.filter awaits).map (·.reg.flatIndex)

@[simp] theorem unready_nil : unready [] = [] := rfl

theorem unready_cons (src : Src) (srcs : List Src) :
    unready (src :: srcs) =
      if awaits src then src.reg.flatIndex :: unready srcs else unready srcs := by
  unfold unready
  rw [filter_cons]
  split <;> rfl

structure Counted (n : Nat) (q : InstructionQueue) : Prop where
  account : ∀ r, (q.insts r).viaInsert = true → (q.insts r).squashedInIQ = false →
    (q.insts r).readyRegs + nodes n q.dependGraph r = (q.insts r).srcs.length
  issuable : ∀ r, (q.insts r).viaInsert = true → (q.insts r).canIssue = true →
    (q.insts r).readyRegs = (q.insts r).srcs.length
  ready : ∀ r, (q.insts r).viaInsert = true → (q.insts r).squashedInIQ = false →
    (r ∈ q.ready ↔ (q.insts r).readyRegs = (q.insts r).srcs.length)
  once : ∀ r, (q.insts r).viaInsert = true → q.ready.count r ≤ 1
  issued : ∀ r, (q.insts r).viaInsert = true → (q.insts r).squashedInIQ = false →
    (q.insts r).issued = true → (q.insts r).readyRegs = (q.insts r).srcs.length
  short : ∀ r, (q.insts r).viaInsert = true → (q.insts r).srcs.length ≤ 127
  waiting : ∀ s, ∀ r ∈ (q.dependGraph s).next, s < n ∧ (q.insts r).viaInsert = true ∧
    (q.insts r).inIQ = true
  unsquashed : ∀ r, (q.insts r).inIQ = true → (q.insts r).squashedInIQ = false

namespace Counted

theorem readyRegs_lt (h : Counted n q) (hr : r ∈ (q.dependGraph s).next) :
    (q.insts r).readyRegs < (q.insts r).srcs.length := by
  obtain ⟨hs, hvia, hin⟩ := h.waiting s r hr
  have := h.account r hvia (h.unsquashed r hin)
  have := nodes_pos hs hr
  omega

theorem no_node (h : Counted n q) (hr : (q.insts r).readyRegs = (q.insts r).srcs.length) (s : Nat) :
    r ∉ (q.dependGraph s).next :=
  fun hmem => (h.readyRegs_lt hmem).ne hr

end Counted

structure Placed (q : InstructionQueue) : Prop where
  listed : ∀ t, ∀ x ∈ q.instList t, x ∈ q.entered ∧ (q.insts x).threadNumber = t ∧
    (q.insts x).squashedInIQ = false
  sorted : ∀ t, (q.instList t).Pairwise (· < ·)
  queued : ∀ x, (q.insts x).inIQ = true → x ∈ q.instList (q.insts x).threadNumber
  held : ∀ t, ∀ x ∈ q.instList t, (q.insts x).inIQ =
    (!(q.insts x).issued || ((q.insts x).isMemRef && !(q.insts x).memOpDone))
  done : ∀ x, (q.insts x).memOpDone = true → (q.insts x).issued = true
  known : ∀ x, (q.insts x).viaInsert = true ∨ (q.insts x).inIQ = true → x ∈ q.entered
  logged : ∀ x ∈ q.ready, x ∈ q.entered
  places : ∀ r, (q.insts r).inIQ = true → (q.insts r).viaInsert = true → ∀ s,
    (q.dependGraph s).next.count r =
      if q.regScoreboard s then 0 else (unready (q.insts r).srcs).count s
  order : ∀ t, ∀ p ∈ q.instList t, ∀ s ∈ (q.insts p).destRegs, ∀ r ∈ (q.dependGraph s).next,
    (q.insts r).threadNumber = t ∧ p < r
  kind : ∀ x, (q.insts x).inIQ = true → (q.insts x).hasNodes = (q.insts x).viaInsert
  always : ∀ r, (q.insts r).viaInsert = true → ∀ src ∈ (q.insts r).srcs,
    src.reg.isAlwaysReady = true → src.ready = true
  nonSpec : ∀ x, (q.insts x).inIQ = true → (q.insts x).viaInsert = false →
    x ∈ q.nonSpecInsts ∨ (q.insts x).atCommit = true
  nonSpecKind : ∀ x ∈ q.nonSpecInsts, x ∈ q.entered ∧ (q.insts x).viaInsert = false
  asserted : q.asserted = true

structure Wf (n : Nat) (q : InstructionQueue) : Prop extends Counted n q, Placed q

namespace Wf

theorem scoreboard (h : Wf n q) (hr : r ∈ (q.dependGraph s).next) :
    q.regScoreboard s = false ∧ s ∈ unready (q.insts r).srcs := by
  obtain ⟨-, hvia, hin⟩ := h.waiting s r hr
  have hpos := count_pos_iff.mpr hr
  rw [h.places r hin hvia s] at hpos
  split at hpos
  · omega
  next hsb => exact ⟨by simpa using hsb, count_pos_iff.mp hpos⟩

end Wf

section

def Recounted (insts insts' : InstSeqNum → DynInst) : Prop :=
  ∃ (readyRegs : InstSeqNum → Nat) (canIssue : InstSeqNum → Bool), insts' =
    fun x => { insts x with readyRegs := readyRegs x, canIssue := canIssue x }

theorem Recounted.refl (insts : InstSeqNum → DynInst) : Recounted insts insts :=
  ⟨fun x => (insts x).readyRegs, fun x => (insts x).canIssue, rfl⟩

theorem Recounted.trans {a b c : InstSeqNum → DynInst} (hab : Recounted a b)
    (hbc : Recounted b c) : Recounted a c := by
  obtain ⟨f, c, rfl⟩ := hab
  obtain ⟨f', c', rfl⟩ := hbc
  exact ⟨f', c', rfl⟩

theorem Recounted.update (insts : InstSeqNum → DynInst) (r : InstSeqNum) (readyRegs : Nat)
    (canIssue : Bool) :
    Recounted insts (Function.update insts r { insts r with readyRegs, canIssue }) := by
  refine ⟨Function.update (fun x => (insts x).readyRegs) r readyRegs,
    Function.update (fun x => (insts x).canIssue) r canIssue, funext fun x => ?_⟩
  by_cases hx : x = r
  · subst hx
    simp
  · simp [hx]

def popped (q : InstructionQueue) (s : Nat) (r : InstSeqNum) (rest : List InstSeqNum) :
    InstructionQueue :=
  let i := q.insts r
  { q with
    dependGraph := q.dependGraph.setNext s rest
    insts := Function.update q.insts r
      { i with
        readyRegs := i.readyRegs + 1
        canIssue := decide (i.readyRegs + 1 = i.srcs.length) }
    ready := q.ready ++ if i.readyRegs + 1 = i.srcs.length then [r] else [] }

variable {rest : List InstSeqNum}

theorem pop_eq (h : Counted n q) (hnext : (q.dependGraph s).next = r :: rest) :
    (({ q with dependGraph := q.dependGraph.setNext s rest }).markSrcRegReady r).addIfReady r =
      popped q s r rest := by
  have hmem : r ∈ (q.dependGraph s).next := hnext ▸ mem_cons_self
  have hlt := h.readyRegs_lt hmem
  have hvia := (h.waiting s r hmem).2.1
  have hmod : ((q.insts r).readyRegs + 1) % 256 = (q.insts r).readyRegs + 1 :=
    Nat.mod_eq_of_lt (by have := h.short r hvia; omega)
  have hcan : (q.insts r).canIssue = false := by
    by_contra hcan
    exact hlt.ne (h.issuable r hvia (Bool.not_eq_false _ ▸ hcan))
  unfold addIfReady markSrcRegReady
    modifyInst popped
  simp only [update_self, hmod, hcan, Bool.false_or, beq_eq_decide, decide_eq_true_eq]
  split
  next heq => simp [heq]
  next heq => simp [heq]

theorem popped_counted (h : Counted n q) (hnext : (q.dependGraph s).next = r :: rest) :
    Counted n (popped q s r rest) := by
  have hmem : r ∈ (q.dependGraph s).next := hnext ▸ mem_cons_self
  have hlt := h.readyRegs_lt hmem
  obtain ⟨hs, hvia, hin⟩ := h.waiting s r hmem
  have hunsquashed := h.unsquashed r hin
  have hunready : r ∉ q.ready := fun hready => hlt.ne ((h.ready r hvia hunsquashed).mp hready)
  have hnodes := nodes_setNext (g := q.dependGraph) hs rest
  have hre : Recounted q.insts (popped q s r rest).insts := .update _ _ _ _
  have hself : (popped q s r rest).insts r =
      { q.insts r with
        readyRegs := (q.insts r).readyRegs + 1
        canIssue := decide ((q.insts r).readyRegs + 1 = (q.insts r).srcs.length) } := by
    simp [popped]
  have hother : ∀ x, x ≠ r → (popped q s r rest).insts x = q.insts x := fun x hx => by
    simp [popped, hx]
  constructor
  case account =>
    intro x hxvia hxsq
    have hnode := hnodes x
    rw [hnext] at hnode
    change _ + nodes n (q.dependGraph.setNext s rest) x = _
    by_cases hx : x = r
    · subst hx
      have haccount := h.account x hvia hunsquashed
      rw [count_cons_self] at hnode
      rw [hself]
      dsimp only
      omega
    · rw [hother x hx] at hxvia hxsq ⊢
      have haccount := h.account x hxvia hxsq
      rw [count_cons_of_ne (Ne.symm hx)] at hnode
      omega
  case issuable =>
    intro x hxvia hxcan
    by_cases hx : x = r
    · subst hx
      rw [hself] at hxcan ⊢
      exact of_decide_eq_true hxcan
    · rw [hother x hx] at hxvia hxcan ⊢
      exact h.issuable x hxvia hxcan
  case ready =>
    intro x hxvia hxsq
    by_cases hx : x = r
    · subst hx
      by_cases heq : (q.insts x).readyRegs + 1 = (q.insts x).srcs.length <;>
        simp [popped, heq, hunready]
    · rw [hother x hx] at hxvia hxsq ⊢
      rw [← h.ready x hxvia hxsq]
      by_cases heq : (q.insts r).readyRegs + 1 = (q.insts r).srcs.length <;>
        simp [popped, heq, hx]
  case once =>
    intro x hxvia
    by_cases hx : x = r
    · subst hx
      have hzero := count_eq_zero.mpr hunready
      by_cases heq : (q.insts x).readyRegs + 1 = (q.insts x).srcs.length <;>
        simp [popped, heq, hzero]
    · rw [hother x hx] at hxvia
      have honce := h.once x hxvia
      by_cases heq : (q.insts r).readyRegs + 1 = (q.insts r).srcs.length <;>
        simpa [popped, heq, count_append, count_singleton, Ne.symm hx] using honce
  case issued =>
    intro x hxvia hxsq hxissued
    by_cases hx : x = r
    · subst hx
      rw [hself] at hxissued
      exact absurd (h.issued x hvia hunsquashed hxissued) hlt.ne
    · rw [hother x hx] at hxvia hxsq hxissued ⊢
      exact h.issued x hxvia hxsq hxissued
  case short =>
    obtain ⟨f, c, hinsts⟩ := hre
    rw [hinsts]
    exact h.short
  case waiting =>
    intro t x hx
    obtain ⟨f, c, hinsts⟩ := hre
    rw [hinsts]
    refine h.waiting t x ?_
    by_cases ht : t = s
    · subst ht
      rw [hnext]
      exact mem_cons_of_mem _ (by simpa [popped] using hx)
    · simpa [popped, setNext_of_ne _ ht] using hx
  case unsquashed =>
    obtain ⟨f, c, hinsts⟩ := hre
    rw [hinsts]
    exact h.unsquashed

theorem wakeLoop_spec (h : Counted n q) {deps : List InstSeqNum}
    (hnext : (q.dependGraph s).next = deps) :
    ∃ insts ready, wakeLoop s deps q =
        { q with insts, ready, dependGraph := q.dependGraph.setNext s [] } ∧
      Recounted q.insts insts ∧ (∀ x ∈ ready, x ∈ q.ready ∨ (q.insts x).viaInsert = true) ∧
      Counted n (wakeLoop s deps q) := by
  induction deps generalizing q with
  | nil =>
    have hgraph : q.dependGraph.setNext s [] = q.dependGraph := by
      funext t
      by_cases ht : t = s
      · simp [DependencyGraph.setNext, ← hnext]
      · rw [setNext_of_ne _ ht]
    exact ⟨q.insts, q.ready, by rw [hgraph]; rfl, .refl q.insts, fun _ hx => .inl hx, h⟩
  | cons r rest ih =>
    rw [wakeLoop, pop_eq h hnext]
    obtain ⟨insts, ready, heq, hre, hready, hcounted⟩ :=
      ih (popped_counted h hnext) (by simp [popped])
    refine ⟨insts, ready, ?_, .trans (.update _ _ _ _) hre, fun x hx => ?_, hcounted⟩
    · rw [heq]
      have hgraph : (popped q s r rest).dependGraph.setNext s [] = q.dependGraph.setNext s [] := by
        funext t
        by_cases ht : t = s <;> simp [popped, DependencyGraph.setNext, ht]
      rw [hgraph]
      rfl
    · rcases hready x hx with hx | hvia
      · rcases mem_append.mp hx with hx | hx
        · exact .inl hx
        · split at hx
          · have hmem : r ∈ (q.dependGraph s).next := hnext ▸ mem_cons_self
            exact .inr (mem_singleton.mp hx ▸ (h.waiting s r hmem).2.1)
          · cases hx
      · obtain ⟨f, c, hinsts⟩ : Recounted q.insts (popped q s r rest).insts := .update _ _ _ _
        rw [hinsts] at hvia
        exact .inr hvia

theorem Counted.congr_graph (h : Counted n q) {g : DependencyGraph InstSeqNum}
    (hg : ∀ s, (g s).next = (q.dependGraph s).next) : Counted n { q with dependGraph := g } := by
  have hnodes : ∀ r, nodes n g r = nodes n q.dependGraph r := fun r =>
    nodes_congr fun s => by rw [hg s]
  refine { h with account := fun r hvia hsq => ?_, waiting := fun s r hr => ?_ }
  · rw [hnodes]
    exact h.account r hvia hsq
  · rw [hg s] at hr
    exact h.waiting s r hr

theorem wakeReg_wf (h : Wf n q) (dest_reg : PhysReg) : Wf n (q.wakeReg dest_reg) := by
  unfold wakeReg
  split
  · exact h
  dsimp only
  generalize dest_reg.flatIndex = idx
  generalize q.numPinnedWritesToComplete idx - 1 = left
  split
  · exact { h with }
  obtain ⟨insts, ready, heq, hre, hready, hcounted⟩ := wakeLoop_spec (s := idx)
    (q := { q with
      numPinnedWritesToComplete := update q.numPinnedWritesToComplete idx left })
    { h.toCounted with } rfl
  rw [heq] at hcounted ⊢
  have hnext : ∀ t, ((q.dependGraph.setNext idx []).clearInst idx t).next =
      if t = idx then [] else (q.dependGraph t).next := by
    intro t
    by_cases ht : t = idx
    · simp [ht]
    · simp [ht, setNext_of_ne _ ht]
  have hsub : ∀ t r, r ∈ ((q.dependGraph.setNext idx []).clearInst idx t).next →
      r ∈ (q.dependGraph t).next := by
    intro t r hr
    rw [hnext t] at hr
    split at hr
    · cases hr
    · exact hr
  have hlogged : ∀ x ∈ ready, x ∈ q.entered := fun x hx =>
    (hready x hx).elim (h.logged x) fun hvia => h.known x (.inl hvia)
  obtain ⟨f, c, rfl⟩ := hre
  refine { hcounted.congr_graph (fun t => clearInst_next _ idx t), h with
    logged := hlogged, places := fun r hin hvia t => ?_
    order := fun t p hp s hs r hr => h.order t p hp s hs r (hsub s r hr), asserted := ?_ }
  · by_cases ht : t = idx
    · simp [ht]
    · simpa [setNext_of_ne _ ht, ht] using h.places r hin hvia t
  · simp [h.asserted, DependencyGraph.empty]

theorem foldl_wakeReg_wf (h : Wf n q) (dests : List PhysReg) :
    Wf n (dests.foldl wakeReg q) := by
  induction dests generalizing q with
  | nil => exact h
  | cons dest_reg dests ih => exact ih (wakeReg_wf h dest_reg)

end

def departed (q : InstructionQueue) (sn : InstSeqNum) (out done : Bool) : InstructionQueue :=
  { q with
    insts := fun x =>
      { q.insts x with
        inIQ := (q.insts x).inIQ && !(decide (x = sn) && out)
        issued := (q.insts x).issued || decide (x = sn)
        memOpDone := (q.insts x).memOpDone || (decide (x = sn) && done) } }

theorem departed_wf (h : Wf n q) {out done : Bool}
    (hready : (q.insts sn).viaInsert = true → (q.insts sn).readyRegs = (q.insts sn).srcs.length)
    (hheld : ((q.insts sn).inIQ && !out) =
      ((q.insts sn).isMemRef && !((q.insts sn).memOpDone || done))) :
    Wf n (departed q sn out done) := by
  have hin : ∀ x, ((departed q sn out done).insts x).inIQ = true → (q.insts x).inIQ = true :=
    fun x hx => ((Bool.and_eq_true _ _).mp hx).1
  refine
    { h with
      issued := fun r hvia hsq hissued => ?_, waiting := fun s r hr => ?_
      unsquashed := fun r hr => h.unsquashed r (hin r hr)
      queued := fun x hx => h.queued x (hin x hx), held := fun t x hx => ?_
      done := fun x hx => ?_, known := fun x hx => h.known x (hx.imp_right (hin x))
      places := fun r hr => h.places r (hin r hr), kind := fun x hx => h.kind x (hin x hx)
      nonSpec := fun x hx => h.nonSpec x (hin x hx) }
  · by_cases hx : r = sn
    · exact hx ▸ hready (hx ▸ hvia)
    · refine h.issued r hvia hsq ?_
      simpa [departed, hx] using hissued
  · obtain ⟨hs, hvia, hrin⟩ := h.waiting s r hr
    -- what has all its sources has no node left
    have hne : r ≠ sn := by
      rintro rfl
      exact h.no_node (hready hvia) s hr
    exact ⟨hs, hvia, by simp [departed, hrin, hne]⟩
  · by_cases hsn : x = sn
    · subst hsn
      simpa [departed] using hheld
    · simpa [departed, hsn] using h.held t x hx
  · by_cases hsn : x = sn
    · simp [departed, hsn]
    · have hdone : (q.insts x).memOpDone = true := by simpa [departed, hsn] using hx
      simp [departed, h.done x hdone]

theorem Wf.not_done (h : Wf n q) {t : ThreadID} (hsn : sn ∈ q.instList t)
    (hin : (q.insts sn).inIQ = true) (hmem : (q.insts sn).isMemRef = true) :
    (q.insts sn).memOpDone = false := by
  by_contra hdone
  have hdone : (q.insts sn).memOpDone = true := by simpa using hdone
  have hheld := h.held t sn hsn
  simp [hin, hdone, h.done sn hdone, hmem] at hheld

theorem issue_wf (h : Wf n q) {t : ThreadID} (hsn : sn ∈ q.instList t)
    (hin : (q.insts sn).inIQ = true)
    (hready : (q.insts sn).viaInsert = true → sn ∈ q.ready) : Wf n (q.issue sn) := by
  have hfull : (q.insts sn).viaInsert = true →
      (q.insts sn).readyRegs = (q.insts sn).srcs.length :=
    fun hvia => (h.ready sn hvia (h.unsquashed sn hin)).mp (hready hvia)
  cases hmem : (q.insts sn).isMemRef with
  | true =>
    have heq : q.issue sn = departed q sn false false := by
      unfold issue modifyInst departed
      simp only [update_self]
      rw [if_pos hmem]
      congr 1
      funext x
      by_cases hx : x = sn <;> simp [hx]
    rw [heq]
    exact departed_wf h hfull (by simp [hin, hmem, h.not_done hsn hin hmem])
  | false =>
    have heq : q.issue sn = departed q sn true false := by
      unfold issue clearInIQ modifyInst departed
      simp only [update_self, hin, Bool.and_true]
      rw [if_neg (by simpa using hmem)]
      congr 1
      funext x
      by_cases hx : x = sn <;> simp [hx]
    rw [heq]
    exact departed_wf h hfull (by simp [hmem])

theorem wakeDependents_wf (h : Wf n q) {t : ThreadID} (hsn : sn ∈ q.instList t)
    (hissued : (q.insts sn).issued = true)
    (hdone : (q.insts sn).isMemRef = true → (q.insts sn).memOpDone = false) :
    Wf n (q.wakeDependents sn) := by
  have hsq := (h.listed t sn hsn).2.2
  unfold wakeDependents
  refine foldl_wakeReg_wf ?_ _
  rw [hsq, Bool.not_false, Bool.and_true]
  split
  next hmem =>
    have hin : (q.insts sn).inIQ = true := by
      rw [h.held t sn hsn]
      simp [hmem, hdone hmem]
    have heq : (q.clearInIQ sn).modifyInst sn (fun i => { i with memOpDone := true }) =
        departed q sn true true := by
      unfold clearInIQ modifyInst departed
      simp only [update_self, hin, Bool.and_true]
      congr 1
      funext x
      by_cases hx : x = sn <;> simp [hx, hissued]
    rw [heq]
    exact departed_wf h (fun hvia => h.issued sn hvia hsq hissued) (by simp)
  next => exact h

private theorem mem_dropWhile {l : List InstSeqNum} (hx : x ∈ l) (hlt : sn < x) :
    x ∈ l.dropWhile (· ≤ sn) := by
  induction l with
  | nil => exact hx
  | cons y l ih =>
    rw [dropWhile_cons]
    split
    next hy =>
      rcases mem_cons.mp hx with rfl | hx
      · exact absurd (of_decide_eq_true hy) hlt.not_ge
      · exact ih hx
    next => exact hx

theorem commit_wf (h : Wf n q) {t : ThreadID}
    (hout : ∀ x ∈ q.instList t, x ≤ sn → (q.insts x).inIQ = false) : Wf n (q.commit sn t) := by
  have hsub : ∀ t', (q.commit sn t).instList t' <:+ q.instList t' := by
    intro t'
    by_cases ht : t' = t
    · subst ht
      simpa [commit] using dropWhile_suffix _
    · simp [commit, ht]
  refine
    { h with
      listed := fun t' x hx => h.listed t' x ((hsub t').subset hx)
      sorted := fun t' => (h.sorted t').sublist (hsub t').sublist
      queued := fun x hx => ?_
      held := fun t' x hx => h.held t' x ((hsub t').subset hx)
      order := fun t' p hp => h.order t' p ((hsub t').subset hp) }
  have hmem := h.queued x hx
  change x ∈ update q.instList t _ (q.insts x).threadNumber
  by_cases ht : (q.insts x).threadNumber = t
  · rw [ht] at hmem ⊢
    rw [update_self]
    refine mem_dropWhile hmem (Nat.not_le.mp fun hle => ?_)
    have hin : (q.insts x).inIQ = true := hx
    simp [hout x hmem hle] at hin
  · rwa [update_of_ne ht]

def scheduled (q : InstructionQueue) (sn : InstSeqNum) (ready : List InstSeqNum) :
    InstructionQueue :=
  { q with
    insts := fun x =>
      { q.insts x with
        atCommit := (q.insts x).atCommit || decide (x = sn)
        canIssue := (q.insts x).canIssue || decide (x = sn) }
    ready := q.ready ++ ready
    nonSpecInsts := q.nonSpecInsts.erase sn }

theorem scheduleNonSpec_eq (hsn : sn ∈ q.nonSpecInsts) :
    q.scheduleNonSpec sn = scheduled q sn (if (q.insts sn).isMemRef then [] else [sn]) := by
  have hinsts : update q.insts sn
      { q.insts sn with atCommit := true, canIssue := true } =
        (scheduled q sn []).insts := by
    funext x
    by_cases hx : x = sn <;> simp [scheduled, hx]
  unfold scheduleNonSpec modifyInst
  simp only [hinsts, contains_iff_mem.mpr hsn, Bool.and_true]
  unfold addIfReady scheduled
  cases (q.insts sn).isMemRef <;> simp

theorem scheduleNonSpec_wf (h : Wf n q) (hsn : sn ∈ q.nonSpecInsts) :
    Wf n (q.scheduleNonSpec sn) := by
  obtain ⟨hentered, hvia⟩ := h.nonSpecKind sn hsn
  rw [scheduleNonSpec_eq hsn]
  generalize hready : (if (q.insts sn).isMemRef then [] else [sn]) = ready
  have hsub : ∀ x ∈ ready, x = sn := by
    intro x hx
    rw [← hready] at hx
    split at hx
    · cases hx
    · exact mem_singleton.mp hx
  -- it was not entered through `insert`
  have hnot : ∀ x, (q.insts x).viaInsert = true → x ≠ sn ∧ x ∉ ready := by
    intro x hx
    have hne : x ≠ sn := fun heq => by simp [heq, hvia] at hx
    exact ⟨hne, fun hmem => hne (hsub x hmem)⟩
  refine
    { h with
      issuable := fun r hr hcan => h.issuable r hr ?_
      ready := fun r hr hsq => ?_, once := fun r hr => ?_
      logged := fun x hx => ?_, nonSpec := fun x hin hx => ?_
      nonSpecKind := fun x hx => h.nonSpecKind x (mem_of_mem_erase hx) }
  · simpa [scheduled, (hnot r hr).1] using hcan
  · simpa [scheduled, (hnot r hr).2] using h.ready r hr hsq
  · have hzero := count_eq_zero.mpr (hnot r hr).2
    simpa [scheduled, count_append, hzero] using h.once r hr
  · rcases mem_append.mp hx with hx | hx
    · exact h.logged x hx
    · exact hsub x hx ▸ hentered
  · by_cases hne : x = sn
    · exact .inr (by simp [scheduled, hne])
    · refine (h.nonSpec x hin hx).imp (fun hmem => ?_) fun hcommit => ?_
      · exact (mem_erase_of_ne hne).mpr hmem
      · simp only [scheduled, hcommit, Bool.true_or]

end Gem5Core.O3.InstQueueInv
