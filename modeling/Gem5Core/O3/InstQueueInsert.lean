import Mathlib.Algebra.BigOperators.Group.Finset.Piecewise
import Gem5Core.O3.InstQueueInv

/-! An instruction enters the queue: what it adds to the graph and to the scoreboard. -/
namespace Gem5Core.O3.InstQueueInsert
open Pred.Branch InstQueue InstQueueInv Function
open List hiding beq_eq_decide
open InstructionQueue

variable {n : Nat} {q : InstructionQueue} {sn : InstSeqNum} {s : Nat}

theorem int8_toNat {k : Nat} (hk : k ≤ 127) : (int8 k).toNat = k := by
  have hlt : k < 2 ^ 8 := by omega
  unfold int8
  rw [BitVec.toInt_eq_toNat_of_lt (by rw [BitVec.toNat_ofNat, Nat.mod_eq_of_lt hlt]; omega),
    BitVec.toNat_ofNat, Nat.mod_eq_of_lt hlt, Int.toNat_natCast]

def counting (i : DynInst) (m : Nat) : DynInst :=
  { i with
    readyRegs := i.readyRegs + m
    canIssue := decide (i.readyRegs + m = i.srcs.length) }

def waitingFor (g : DependencyGraph InstSeqNum) (sn : InstSeqNum) (regs : List Nat) :
    DependencyGraph InstSeqNum :=
  fun s => { g s with next := List.replicate (regs.count s) sn ++ (g s).next }

@[simp] theorem waitingFor_nil (g : DependencyGraph InstSeqNum) (sn : InstSeqNum) :
    waitingFor g sn [] = g := by
  funext s
  simp [waitingFor]

/-- A source is marked if its register was produced before the instruction arrived. -/
def settled (regScoreboard : Nat → Bool) (src : Src) : Src :=
  if awaits src && regScoreboard src.reg.flatIndex then { src with ready := true } else src

def missing (regScoreboard : Nat → Bool) (srcs : List Src) : List Nat :=
  (unready srcs).filter (!regScoreboard ·)

def settledCount (regScoreboard : Nat → Bool) (srcs : List Src) : Nat :=
  srcs.countP fun src => awaits src && regScoreboard src.reg.flatIndex

theorem addSrcs_eq (sn : InstSeqNum) (srcs : List Src) {q : InstructionQueue}
    (hcan : (q.insts sn).canIssue =
      decide ((q.insts sn).readyRegs = (q.insts sn).srcs.length))
    (hle : (q.insts sn).readyRegs + settledCount q.regScoreboard srcs ≤ (q.insts sn).srcs.length)
    (hshort : (q.insts sn).srcs.length ≤ 127) :
    addSrcs sn srcs q =
      (srcs.map (settled q.regScoreboard),
        { q with
          insts := update q.insts sn
            (counting (q.insts sn) (settledCount q.regScoreboard srcs))
          dependGraph := waitingFor q.dependGraph sn (missing q.regScoreboard srcs) }) := by
  induction srcs generalizing q with
  | nil =>
    have hself : counting (q.insts sn) 0 = q.insts sn := by
      simp only [counting, Nat.add_zero, ← hcan]
    simp [addSrcs, settledCount, hself, missing]
  | cons src srcs ih =>
    unfold addSrcs
    cases hawaits : awaits src with
    | false =>
      have hskip : (src.ready || src.reg.isAlwaysReady) = true := by
        simpa only [awaits, Bool.not_eq_false'] using hawaits
      have hsrc : q.addSrc sn src = (src, q) := by simp [addSrc, hskip]
      have hcount : settledCount q.regScoreboard (src :: srcs) =
          settledCount q.regScoreboard srcs := by
        simp [settledCount, hawaits]
      have hmissing : missing q.regScoreboard (src :: srcs) = missing q.regScoreboard srcs := by
        simp [missing, unready_cons, hawaits]
      rw [hcount] at hle ⊢
      rw [hsrc, hmissing]
      dsimp only
      rw [ih hcan hle hshort]
      simp [settled, hawaits]
    | true =>
      have hskip : (src.ready || src.reg.isAlwaysReady) = false := by simpa [awaits] using hawaits
      cases hsb : q.regScoreboard src.reg.flatIndex with
      | true =>
        have hcount : settledCount q.regScoreboard (src :: srcs) =
            settledCount q.regScoreboard srcs + 1 := by
          simp [settledCount, hawaits, hsb]
        have hmissing : missing q.regScoreboard (src :: srcs) =
            missing q.regScoreboard srcs := by
          simp [missing, unready_cons, hawaits, hsb]
        rw [hcount] at hle ⊢
        have hmod : ((q.insts sn).readyRegs + 1) % 256 = (q.insts sn).readyRegs + 1 :=
          Nat.mod_eq_of_lt (by omega)
        have hnot : (q.insts sn).canIssue = false := by
          rw [hcan]
          exact decide_eq_false (by omega)
        have hsrc : q.addSrc sn src = ({ src with ready := true },
            { q with insts := update q.insts sn (counting (q.insts sn) 1) }) := by
          simp only [addSrc, hskip, hsb, markSrcRegReady,
            modifyInst, hmod, hnot, counting, beq_eq_decide, Bool.false_or]
          rfl
        rw [hsrc, hmissing]
        dsimp only
        rw [ih (by simp [counting]) (by simp only [update_self, counting]; omega)
          (by simpa [counting] using hshort)]
        simp only [update_self, update_idem, map_cons, settled, hawaits, hsb,
          Bool.and_self, if_true, counting, Nat.add_assoc, Nat.add_comm 1]
      | false =>
        have hcount : settledCount q.regScoreboard (src :: srcs) =
            settledCount q.regScoreboard srcs := by
          simp [settledCount, hsb]
        have hmissing : missing q.regScoreboard (src :: srcs) =
            src.reg.flatIndex :: missing q.regScoreboard srcs := by
          simp [missing, unready_cons, hawaits, hsb]
        have hsrc : q.addSrc sn src = (src,
            { q with dependGraph := q.dependGraph.insert src.reg.flatIndex sn }) := by
          simp [addSrc, hskip, hsb]
        rw [hcount] at hle ⊢
        rw [hsrc, hmissing]
        dsimp only
        rw [ih (q := { q with dependGraph := q.dependGraph.insert src.reg.flatIndex sn })
          hcan hle hshort]
        have hgraph : waitingFor (q.dependGraph.insert src.reg.flatIndex sn) sn
            (missing q.regScoreboard srcs) =
              waitingFor q.dependGraph sn
                (src.reg.flatIndex :: missing q.regScoreboard srcs) := by
          funext s
          by_cases hs : s = src.reg.flatIndex
          · subst hs
            simp [waitingFor, DependencyGraph.insert, DependencyGraph.setNext,
              replicate_succ']
          · simp [waitingFor, DependencyGraph.insert, setNext_of_ne _ hs,
              count_cons_of_ne (Ne.symm hs)]
        rw [hgraph]
        simp [settled, hsb]

theorem settledCount_add (sb : Nat → Bool) {srcs : List Src}
    (halways : ∀ src ∈ srcs, src.reg.isAlwaysReady = true → src.ready = true) :
    srcs.countP (·.ready) + settledCount sb srcs + (missing sb srcs).length = srcs.length := by
  induction srcs with
  | nil => rfl
  | cons src srcs ih =>
    have hsrcs := ih fun src' hsrc' => halways src' (mem_cons_of_mem _ hsrc')
    have hsrc := halways src mem_cons_self
    unfold settledCount missing at hsrcs ⊢
    rw [unready_cons]
    cases hready : src.ready with
    | true =>
      have hawaits : awaits src = false := by simp [awaits, hready]
      simp [hready, hawaits]
      omega
    | false =>
      have hreg : src.reg.isAlwaysReady = false := by
        by_contra hreg
        simp [hsrc (by simpa using hreg)] at hready
      have hawaits : awaits src = true := by simp [awaits, hready, hreg]
      cases hsb : sb src.reg.flatIndex <;> simp [hready, hawaits, hsb] <;> omega

private theorem unready_settled (sb : Nat → Bool) (srcs : List Src) :
    unready (srcs.map (settled sb)) = missing sb srcs := by
  induction srcs with
  | nil => rfl
  | cons src srcs ih =>
    unfold missing at ih ⊢
    rw [map_cons, unready_cons, unready_cons, ih]
    cases hawaits : awaits src with
    | false => simp [settled, hawaits]
    | true =>
      cases hsb : sb src.reg.flatIndex with
      | true =>
        have hmarked : settled sb src = { src with ready := true } := by
          simp [settled, hawaits, hsb]
        have hawaits' : awaits { src with ready := true } = false := by simp [awaits]
        simp [hmarked, hawaits', hsb]
      | false =>
        have hsame : settled sb src = src := by simp [settled, hsb]
        simp [hsame, hawaits, hsb]

def produced (dests : List PhysReg) : List Nat :=
  (dests.filter (!·.isAlwaysReady)).map (·.flatIndex)

theorem foldl_addProducer (sn : InstSeqNum) (dests : List PhysReg) {q : InstructionQueue}
    (hg : ∀ s ∈ produced dests, (q.dependGraph s).next = []) :
    ∃ g, dests.foldl (addProducer sn) q =
        { q with
          dependGraph := g
          regScoreboard := fun s => q.regScoreboard s && !decide (s ∈ produced dests) } ∧
      ∀ s, (g s).next = (q.dependGraph s).next := by
  induction dests generalizing q with
  | nil => exact ⟨q.dependGraph, by simp [produced], fun _ => rfl⟩
  | cons d dests ih =>
    rw [foldl_cons]
    cases hd : d.isAlwaysReady with
    | true =>
      have hsame : q.addProducer sn d = q := by simp [addProducer, hd]
      have hproduced : produced (d :: dests) = produced dests := by simp [produced, hd]
      rw [hproduced] at hg ⊢
      rw [hsame]
      exact ih hg
    | false =>
      have hproduced : produced (d :: dests) = d.flatIndex :: produced dests := by
        simp [produced, hd]
      rw [hproduced] at hg ⊢
      have hnil := hg d.flatIndex mem_cons_self
      have hset : q.addProducer sn d =
          { q with
            dependGraph := q.dependGraph.setInst d.flatIndex sn
            regScoreboard := update q.regScoreboard d.flatIndex false } := by
        simp [addProducer, hd, DependencyGraph.empty, hnil]
      obtain ⟨g, heq, hnext⟩ := ih
        (q := { q with
          dependGraph := q.dependGraph.setInst d.flatIndex sn
          regScoreboard := update q.regScoreboard d.flatIndex false })
        fun s hs => by simpa using hg s (mem_cons_of_mem _ hs)
      rw [hset, heq]
      refine ⟨g, ?_, fun s => by simpa using hnext s⟩
      congr 1
      funext s
      by_cases hs : s = d.flatIndex <;> simp [hs]

def admitted (q : InstructionQueue) (sn : InstSeqNum) (i : DynInst)
    (g : DependencyGraph InstSeqNum) (ready nonSpec : List InstSeqNum) : InstructionQueue :=
  { q with
    insts := Function.update q.insts sn i
    instList := Function.update q.instList i.threadNumber (q.instList i.threadNumber ++ [sn])
    dependGraph := g
    regScoreboard := fun s => q.regScoreboard s && !decide (s ∈ i.destRegs)
    nonSpecInsts := q.nonSpecInsts ++ nonSpec
    ready := q.ready ++ ready
    entered := q.entered ++ [sn] }

/-- No instruction that waits in the queue reads a register that the new one produces. -/
def NotRead (q : InstructionQueue) (new_inst : RenamedInst) : Prop :=
  ∀ r ∈ q.entered, (q.insts r).inIQ = true → (q.insts r).viaInsert = true →
    ∀ d ∈ new_inst.destRegs, d ∉ unready (q.insts r).srcs

/-- The producers of what the new instruction has to wait for are older instructions of its
thread. -/
def ProducersOlder (q : InstructionQueue) (new_inst : RenamedInst) : Prop :=
  ∀ s ∈ missing q.regScoreboard new_inst.srcs, s ∉ new_inst.destRegs ∧
    ∀ p ∈ q.entered, p ∈ q.instList (q.insts p).threadNumber → s ∈ (q.insts p).destRegs →
      (q.insts p).threadNumber = new_inst.threadNumber

private theorem sum_count {regs : List Nat} (hregs : ∀ s ∈ regs, s < n) :
    ∑ s ∈ Finset.range n, regs.count s = regs.length := by
  induction regs with
  | nil => simp
  | cons reg regs ih =>
    have hreg := Finset.mem_range.mpr (hregs reg mem_cons_self)
    simp only [count_cons, Finset.sum_add_distrib, beq_iff_eq, Finset.sum_ite_eq, hreg, if_true,
      length_cons]
    rw [ih fun s hs => hregs s (mem_cons_of_mem _ hs)]

structure Newcomer (n : Nat) (q : InstructionQueue) (sn : InstSeqNum) (i : DynInst)
    (regs : List Nat) (ready nonSpec : List InstSeqNum) : Prop where
  unused : sn ∉ q.entered
  last : ∀ x ∈ q.instList i.threadNumber, x < sn
  notRead : NotRead q i.toRenamedInst
  inIQ : i.inIQ = true
  issued : i.issued = false
  squashed : i.squashedInIQ = false
  done : i.memOpDone = false
  kind : i.hasNodes = i.viaInsert
  waits : ∀ s ∈ regs, s < n ∧ q.regScoreboard s = false ∧ s ∉ i.destRegs ∧
    ∀ p ∈ q.entered, p ∈ q.instList (q.insts p).threadNumber → s ∈ (q.insts p).destRegs →
      (q.insts p).threadNumber = i.threadNumber
  spec : i.viaInsert = true → unready i.srcs = regs ∧
    i.readyRegs + regs.length = i.srcs.length ∧
    (i.canIssue = true → i.readyRegs = i.srcs.length) ∧ i.srcs.length ≤ 127 ∧
    (∀ src ∈ i.srcs, src.reg.isAlwaysReady = true → src.ready = true) ∧
    ready = (if i.readyRegs = i.srcs.length then [sn] else []) ∧ nonSpec = []
  nonSpec : i.viaInsert = false → regs = [] ∧ ready = [] ∧ nonSpec = [sn]

theorem Newcomer.logs {i : DynInst} {regs : List Nat} {ready nonSpec : List InstSeqNum}
    (hnew : Newcomer n q sn i regs ready nonSpec) :
    (ready = [] ∨ ready = [sn]) ∧ (nonSpec = [] ∨ nonSpec = [sn] ∧ i.viaInsert = false) := by
  cases hvia : i.viaInsert with
  | false =>
    obtain ⟨-, hready, hnonSpec⟩ := hnew.nonSpec hvia
    exact ⟨.inl hready, .inr ⟨hnonSpec, rfl⟩⟩
  | true =>
    obtain ⟨-, -, -, -, -, hready, hnonSpec⟩ := hnew.spec hvia
    refine ⟨?_, .inl hnonSpec⟩
    rw [hready]
    split <;> simp

section

variable {i : DynInst} {regs : List Nat} {ready nonSpec : List InstSeqNum}
  {g : DependencyGraph InstSeqNum}

theorem admitted_insts (q : InstructionQueue) (sn : InstSeqNum) (i : DynInst)
    (g : DependencyGraph InstSeqNum) (ready nonSpec : List InstSeqNum) (x : InstSeqNum) :
    x = sn ∧ (admitted q sn i g ready nonSpec).insts x = i ∨
      x ≠ sn ∧ (admitted q sn i g ready nonSpec).insts x = q.insts x := by
  by_cases hx : x = sn <;> simp [admitted, hx]

variable {x : InstSeqNum}

private theorem mem_admitted {t : ThreadID} : x ∈ (admitted q sn i g ready nonSpec).instList t ↔
      x ∈ q.instList t ∨ x = sn ∧ t = i.threadNumber := by
  by_cases ht : t = i.threadNumber
  · subst ht
    simp [admitted]
  · simp [admitted, ht]

variable (h : Wf n q) (hnew : Newcomer n q sn i regs ready nonSpec)
  (hg : ∀ s, (g s).next = List.replicate (regs.count s) sn ++ (q.dependGraph s).next)
include hnew

theorem Newcomer.not_logged (hx : x ≠ sn) : x ∉ ready := by
  rcases hnew.logs.1 with hready | hready <;> simp [hready, hx]

theorem Newcomer.ne_of_entered (hx : x ∈ q.entered) : x ≠ sn :=
  fun heq => hnew.unused (heq ▸ hx)

include h

theorem Newcomer.no_node (s : Nat) : sn ∉ (q.dependGraph s).next := fun hmem =>
  hnew.unused (h.known sn (.inl (h.waiting s sn hmem).2.1))

include hg

theorem mem_admitted_next (hx : x ∈ (g s).next) :
    x = sn ∧ s ∈ regs ∨ x ≠ sn ∧ x ∈ (q.dependGraph s).next := by
  rw [hg s] at hx
  rcases mem_append.mp hx with hx | hx
  · obtain ⟨hpos, hx⟩ := mem_replicate.mp hx
    exact .inl ⟨hx, count_pos_iff.mp (Nat.pos_of_ne_zero hpos)⟩
  · exact .inr ⟨fun heq => hnew.no_node h s (heq ▸ hx), hx⟩

theorem count_admitted_next (s : Nat) (x : InstSeqNum) :
    (g s).next.count x = if x = sn then regs.count s else (q.dependGraph s).next.count x := by
  rw [hg s, count_append, count_replicate]
  by_cases hx : x = sn
  · simp [hx, count_eq_zero.mpr (hnew.no_node h s)]
  · simp [hx, Ne.symm hx]

theorem admitted_counted : Counted n (admitted q sn i g ready nonSpec) := by
  have hinst := admitted_insts q sn i g ready nonSpec
  have hcount := count_admitted_next h hnew hg
  have hunready : sn ∉ q.ready := fun hmem => hnew.unused (h.logged sn hmem)
  constructor
  case account =>
    intro x
    rcases hinst x with ⟨rfl, hx⟩ | ⟨hne, hx⟩ <;> rw [hx]
    · intro hvia _
      have hnodes : nodes n g x = regs.length :=
        (Finset.sum_congr rfl fun s _ => (hcount s x).trans (if_pos rfl)).trans
          (sum_count fun s hs => (hnew.waits s hs).1)
      exact hnodes ▸ (hnew.spec hvia).2.1
    · have hnodes : nodes n g x = nodes n q.dependGraph x :=
        nodes_congr fun s => (hcount s x).trans (if_neg hne)
      exact hnodes ▸ h.account x
  case issuable =>
    intro x
    rcases hinst x with ⟨rfl, hx⟩ | ⟨-, hx⟩ <;> rw [hx]
    · exact fun hvia => (hnew.spec hvia).2.2.1
    · exact h.issuable x
  case ready =>
    intro x hvia hsq
    rcases hinst x with ⟨rfl, hx⟩ | ⟨hne, hx⟩ <;> rw [hx] at hvia hsq ⊢
    · simp only [admitted, mem_append, hunready, false_or, (hnew.spec hvia).2.2.2.2.2.1]
      split <;> simp [*]
    · rw [← h.ready x hvia hsq]
      simp [admitted, hnew.not_logged hne]
  case once =>
    intro x
    change _ → (q.ready ++ ready).count x ≤ 1
    rw [count_append]
    rcases hinst x with ⟨rfl, hx⟩ | ⟨hne, hx⟩ <;> rw [hx]
    · rw [count_eq_zero.mpr hunready]
      rcases hnew.logs.1 with hready | hready <;> simp [hready]
    · rw [count_eq_zero.mpr (hnew.not_logged hne)]
      exact h.once x
  case issued =>
    intro x
    rcases hinst x with ⟨rfl, hx⟩ | ⟨-, hx⟩ <;> rw [hx]
    · simp [hnew.issued]
    · exact h.issued x
  case short =>
    intro x
    rcases hinst x with ⟨rfl, hx⟩ | ⟨-, hx⟩ <;> rw [hx]
    · exact fun hvia => (hnew.spec hvia).2.2.2.1
    · exact h.short x
  case waiting =>
    intro s x hmem
    rcases hinst x with ⟨rfl, hx⟩ | ⟨hne, hx⟩ <;> rw [hx] <;>
      rcases mem_admitted_next h hnew hg hmem with ⟨heq, hs⟩ | ⟨hne', hmem⟩
    · refine ⟨(hnew.waits s hs).1, ?_, hnew.inIQ⟩
      by_contra hvia
      simp [(hnew.nonSpec (by simpa using hvia)).1] at hs
    · exact absurd rfl hne'
    · exact absurd heq hne
    · exact h.waiting s x hmem
  case unsquashed =>
    intro x
    rcases hinst x with ⟨rfl, hx⟩ | ⟨-, hx⟩ <;> rw [hx]
    · exact fun _ => hnew.squashed
    · exact h.unsquashed x

theorem admitted_placed : Placed (admitted q sn i g ready nonSpec) := by
  have hinst := admitted_insts q sn i g ready nonSpec
  have hself : (admitted q sn i g ready nonSpec).insts sn = i := by simp [admitted]
  have hother : ∀ x ∈ q.entered, (admitted q sn i g ready nonSpec).insts x = q.insts x :=
    fun x hx => by simp [admitted, hnew.ne_of_entered hx]
  have hold : ∀ t, ∀ x ∈ q.instList t, (admitted q sn i g ready nonSpec).insts x = q.insts x :=
    fun t x hx => hother x (h.listed t x hx).1
  have hcount := count_admitted_next h hnew hg
  constructor
  case listed =>
    intro t x hx
    rcases mem_admitted.mp hx with hx | ⟨rfl, rfl⟩
    · rw [hold t x hx]
      obtain ⟨hentered, hthread⟩ := h.listed t x hx
      exact ⟨mem_append_left _ hentered, hthread⟩
    · rw [hself]
      exact ⟨mem_append_right _ mem_cons_self, rfl, hnew.squashed⟩
  case sorted =>
    intro t
    by_cases ht : t = i.threadNumber
    · subst ht
      simp only [admitted, update_self]
      refine pairwise_append.mpr ⟨h.sorted _, pairwise_singleton _ _, ?_⟩
      intro x hx y hy
      exact mem_singleton.mp hy ▸ hnew.last x hx
    · simpa [admitted, ht] using h.sorted t
  case queued =>
    intro x
    rcases hinst x with ⟨rfl, hx⟩ | ⟨-, hx⟩ <;> rw [hx, mem_admitted]
    · exact fun _ => .inr ⟨rfl, rfl⟩
    · exact fun hin => .inl (h.queued x hin)
  case held =>
    intro t x hx
    rcases mem_admitted.mp hx with hx | ⟨rfl, -⟩
    · rw [hold t x hx]
      exact h.held t x hx
    · rw [hself, hnew.inIQ, hnew.issued]
      rfl
  case done =>
    intro x
    rcases hinst x with ⟨rfl, hx⟩ | ⟨-, hx⟩ <;> rw [hx]
    · simp [hnew.done]
    · exact h.done x
  case known =>
    intro x
    rcases hinst x with ⟨rfl, hx⟩ | ⟨-, hx⟩ <;> rw [hx]
    · exact fun _ => mem_append_right _ mem_cons_self
    · exact fun hin => mem_append_left _ (h.known x hin)
  case logged =>
    intro x hx
    rcases mem_append.mp hx with hx | hx
    · exact mem_append_left _ (h.logged x hx)
    · have heq : x = sn := by
        by_contra hne
        exact hnew.not_logged hne hx
      exact mem_append_right _ (by simp [heq])
  case places =>
    intro x hin hvia s
    change (g s).next.count x = _
    rw [hcount s x]
    rcases hinst x with ⟨rfl, hx⟩ | ⟨hne, hx⟩ <;> rw [hx] at hin hvia ⊢
    · rw [if_pos rfl, (hnew.spec hvia).1]
      split
      next hsb =>
        -- a produced register is not waited for
        refine count_eq_zero.mpr fun hs => ?_
        simp [admitted, (hnew.waits s hs).2.1] at hsb
      next => rfl
    · rw [if_neg hne, h.places x hin hvia s]
      by_cases hs : s ∈ i.destRegs
      · -- it does not read what the new instruction produces
        have hzero : (unready (q.insts x).srcs).count s = 0 :=
          count_eq_zero.mpr (hnew.notRead x (h.known x (.inr hin)) hin hvia s hs)
        simp [hzero]
      · simp [admitted, hs]
  case order =>
    intro t p hp s hs x hx
    rcases mem_admitted.mp hp with hpold | ⟨rfl, rfl⟩
    · rw [hold t p hpold] at hs
      rcases mem_admitted_next h hnew hg hx with ⟨rfl, hreg⟩ | ⟨-, hx⟩
      · obtain ⟨hentered, hthread, -⟩ := h.listed t p hpold
        have ht := (hnew.waits s hreg).2.2.2 p hentered (hthread ▸ hpold) hs
        rw [hself]
        have ht : t = i.threadNumber := hthread.symm.trans ht
        exact ⟨ht.symm, hnew.last p (ht ▸ hpold)⟩
      · rw [hother x (h.known x (.inl (h.waiting s x hx).2.1))]
        exact h.order t p hpold s hs x hx
    · rw [hself] at hs
      rcases mem_admitted_next h hnew hg hx with ⟨-, hreg⟩ | ⟨-, hx⟩
      · exact absurd hs (hnew.waits s hreg).2.2.1
      · obtain ⟨-, hvia, hin⟩ := h.waiting s x hx
        exact absurd (h.scoreboard hx).2
          (hnew.notRead x (h.known x (.inl hvia)) hin hvia s hs)
  case kind =>
    intro x
    rcases hinst x with ⟨rfl, hx⟩ | ⟨-, hx⟩ <;> rw [hx]
    · exact fun _ => hnew.kind
    · exact h.kind x
  case always =>
    intro x
    rcases hinst x with ⟨rfl, hx⟩ | ⟨-, hx⟩ <;> rw [hx]
    · exact fun hvia => (hnew.spec hvia).2.2.2.2.1
    · exact h.always x
  case nonSpec =>
    intro x
    rcases hinst x with ⟨rfl, hx⟩ | ⟨-, hx⟩ <;> rw [hx] <;> intro hin hvia
    · exact .inl (mem_append_right _ (by simp [(hnew.nonSpec hvia).2.2]))
    · exact (h.nonSpec x hin hvia).imp_left fun hmem => mem_append_left _ hmem
  case nonSpecKind =>
    intro x hx
    rcases mem_append.mp hx with hx | hx
    · obtain ⟨hentered, hvia⟩ := h.nonSpecKind x hx
      rw [hother x hentered]
      exact ⟨mem_append_left _ hentered, hvia⟩
    · rcases hnew.logs.2 with hnil | ⟨hsn, hvia⟩
      · rw [hnil] at hx
        cases hx
      · rw [hsn] at hx
        obtain rfl := mem_singleton.mp hx
        rw [hself]
        exact ⟨mem_append_right _ mem_cons_self, hvia⟩
  case asserted => exact h.asserted

theorem admitted_wf : Wf n (admitted q sn i g ready nonSpec) :=
  { admitted_counted h hnew hg, admitted_placed h hnew hg with }

end

/-- An atomic is no load or store, a store conditional is a store, and loads and stores carry both
barrier flags or neither and are speculative. The flags are set by the decoder of an ISA
(`static_inst.hh`), which is not modelled. That of atomics and store conditionals is assumed on top
of the rest: dispatch and `doSquash` do not test the flags in the same order. -/
def WellFlagged (i : RenamedInst) : Prop :=
  (i.isAtomic = true → i.isLoad = false ∧ i.isStore = false) ∧
    (i.isStoreConditional = true → i.isStore = true ∧ i.isLoad = false) ∧
    ((i.isLoad || i.isStore) = true →
      i.isReadBarrier = i.isWriteBarrier ∧ i.isNonSpeculative = false)

/-- Where dispatch sends an instruction: to `insert`, or to `insertNonSpec` (directly or
through `insertBarrier`). -/
def dispatchedToInsert (i : RenamedInst) : Bool :=
  if i.isAtomic then false
  else if i.isLoad then !i.isNonSpeculative
  else if i.isStore then !i.isStoreConditional && !i.isNonSpeculative
  else if i.isReadBarrier || i.isWriteBarrier then false
  else !i.isNonSpeculative

variable {i : RenamedInst}

theorem hasNodes_eq (hflags : WellFlagged i) : i.hasNodes = dispatchedToInsert i := by
  obtain ⟨hatomic, hcond, hplain⟩ := hflags
  unfold RenamedInst.hasNodes RenamedInst.isAcqRel RenamedInst.isFullMemBarrier dispatchedToInsert
  cases hA : i.isAtomic <;> cases hL : i.isLoad <;> cases hS : i.isStore <;>
    cases hC : i.isStoreConditional <;> simp_all
  cases i.isNonSpeculative <;> simp

/-- An instruction has a new number, the largest of its thread, and produces nothing that an older
one still waits to read. -/
def Arrives (q : InstructionQueue) (sn : InstSeqNum) (i : RenamedInst) : Prop :=
  sn ∉ q.entered ∧ (∀ x ∈ q.instList i.threadNumber, x < sn) ∧ WellFlagged i ∧ NotRead q i

/-- Sources that are always ready are marked, and what it has to wait for is produced by older
instructions. -/
def Sources (n : Nat) (q : InstructionQueue) (i : RenamedInst) : Prop :=
  (∀ src ∈ i.srcs, src.reg.isAlwaysReady = true → src.ready = true) ∧
    (∀ s ∈ unready i.srcs, s < n) ∧ ProducersOlder q i

/-- The register counts survive the `int8_t` of the loops. -/
def Fits (i : RenamedInst) : Prop := i.srcs.length ≤ 127 ∧ i.dests.length ≤ 127

theorem no_waiting (h : Wf n q) (hread : NotRead q i) (hs : s ∈ i.destRegs) :
    (q.dependGraph s).next = [] := by
  refine eq_nil_iff_forall_not_mem.mpr fun x hx => ?_
  obtain ⟨-, hvia, hin⟩ := h.waiting s x hx
  exact hread x (h.known x (.inl hvia)) hin hvia s hs (h.scoreboard hx).2

def settledInst (q : InstructionQueue) (a : DynInst) : DynInst :=
  { counting a (settledCount q.regScoreboard a.srcs) with
    srcs := a.srcs.map (settled q.regScoreboard)
    inIQ := true }

theorem addToDependents_eq {a : DynInst} (hcan : a.canIssue = decide (a.readyRegs = a.srcs.length))
    (hle : a.readyRegs + settledCount q.regScoreboard a.srcs ≤ a.srcs.length)
    (hfits : a.srcs.length ≤ 127) :
    (q.enter sn a).addToDependents sn =
      { q.enter sn a with
        insts := update q.insts sn (settledInst q a)
        dependGraph := waitingFor q.dependGraph sn (missing q.regScoreboard a.srcs) } := by
  have hinst : (q.enter sn a).insts sn = { a with inIQ := true } := by
    simp [enter]
  have hsame : ((q.enter sn a).insts sn).srcs = a.srcs := by rw [hinst]
  have hsrcs := addSrcs_eq sn a.srcs (q := q.enter sn a) (by rw [hinst]; exact hcan)
    (by rw [hinst]; exact hle) (by rw [hinst]; exact hfits)
  unfold addToDependents
  dsimp only
  rw [hsame, int8_toNat hfits, take_length, drop_length, hsrcs]
  simp only [modifyInst, update_self, update_idem,
    append_nil, enter]
  rfl

theorem addToProducers_eq (sn : InstSeqNum) {i : DynInst} (hinst : q.insts sn = i)
    (hfits : i.dests.length ≤ 127) (hg : ∀ s ∈ i.destRegs, (q.dependGraph s).next = []) :
    ∃ g, q.addToProducers sn =
        { q with
          dependGraph := g
          regScoreboard := fun s => q.regScoreboard s && !decide (s ∈ i.destRegs) } ∧
      ∀ s, (g s).next = (q.dependGraph s).next := by
  unfold addToProducers
  dsimp only
  rw [hinst, int8_toNat hfits, take_length]
  exact foldl_addProducer sn i.dests hg

theorem arrive_eq (hfits : i.srcs.length ≤ 127) (viaInsert : Bool) : i.arrive viaInsert =
      { i with
        readyRegs := i.srcs.countP (·.ready)
        canIssue := decide (i.srcs.countP (·.ready) = i.srcs.length)
        viaInsert } := by
  have hle : i.srcs.countP (·.ready) ≤ i.srcs.length := countP_le_length
  have hmod : i.srcs.countP (·.ready) % 256 = i.srcs.countP (·.ready) :=
    Nat.mod_eq_of_lt (by omega)
  have hcan : i.srcs.all (·.ready) =
      decide (i.srcs.countP (·.ready) = i.srcs.length) := by
    rw [Bool.eq_iff_iff, decide_eq_true_iff, countP_eq_length, all_eq_true]
  rw [RenamedInst.arrive, hmod, hcan]

theorem addIfReady_eq (sn : InstSeqNum) (i : DynInst) (g : DependencyGraph InstSeqNum) (memDeps : Bool) :
    (let q' := addIfReady
        { q.enter sn i with
          insts := update q.insts sn i
          dependGraph := g
          regScoreboard := fun s => q.regScoreboard s && !decide (s ∈ i.destRegs) } sn
      if memDeps then q'.modifyInst sn fun i => { i with canIssue := false } else q') =
      admitted q sn { i with canIssue := i.canIssue && !memDeps } g
        (if i.canIssue then [sn] else []) [] := by
  unfold addIfReady modifyInst admitted enter
  obtain ⟨i, readyRegs, canIssue⟩ := i
  cases canIssue <;> cases memDeps <;> simp

theorem insert_newcomer (hi : Arrives q sn i) (hs : Sources n q i)
    (hdispatch : dispatchedToInsert i = true) (hfits : Fits i) (memDeps : Bool) {a : DynInst}
    (ha : a = { i with
      readyRegs := i.srcs.countP (·.ready)
      canIssue := decide (i.srcs.countP (·.ready) = i.srcs.length)
      viaInsert := true }) : Newcomer n q sn
      { settledInst q a with canIssue := (settledInst q a).canIssue && !memDeps }
      (missing q.regScoreboard i.srcs) (if (settledInst q a).canIssue then [sn] else []) [] := by
  obtain ⟨hunused, hlast, hflags, hread⟩ := hi
  obtain ⟨halways, hbound, holder⟩ := hs
  have hsum := settledCount_add q.regScoreboard halways
  subst ha
  refine
    { unused := hunused, last := hlast, notRead := hread, inIQ := rfl, issued := rfl
      squashed := rfl, done := rfl, kind := (hasNodes_eq hflags).trans hdispatch
      waits := fun s hs => ?_, spec := fun _ => ?_, nonSpec := nofun }
  · obtain ⟨hunready, hsb⟩ := mem_filter.mp hs
    obtain ⟨hdest, hproducers⟩ := holder s hs
    exact ⟨hbound s hunready, by simpa using hsb, hdest, hproducers⟩
  · have hlength : (i.srcs.map (settled q.regScoreboard)).length = i.srcs.length :=
      length_map _
    refine ⟨unready_settled _ _, ?_, fun hcan => ?_, ?_, fun src hsrc hreg => ?_, ?_, rfl⟩
    · exact hsum.trans hlength.symm
    · have hcan := ((Bool.and_eq_true _ _).mp hcan).1
      exact (of_decide_eq_true hcan).trans hlength.symm
    · exact hlength.le.trans hfits.1
    · obtain ⟨src, hmem, rfl⟩ := mem_map.mp hsrc
      unfold settled at hreg ⊢
      split
      · rfl
      next hnot =>
        rw [if_neg hnot] at hreg
        exact halways src hmem hreg
    · simp [settledInst, counting]

theorem insert_wf (h : Wf n q) (hi : Arrives q sn i) (hs : Sources n q i)
    (hdispatch : dispatchedToInsert i = true) (hfits : Fits i) (memDeps : Bool) :
    Wf n (q.insert sn i memDeps) := by
  have hsum := settledCount_add q.regScoreboard hs.1
  unfold InstructionQueue.insert
  dsimp only
  rw [arrive_eq hfits.1]
  generalize ha : (DynInst.mk i (i.srcs.countP (·.ready))
    (decide (i.srcs.countP (·.ready) = i.srcs.length)) false false false false false true) = a
  have hsrcs : a.srcs = i.srcs := by rw [← ha]
  have hdests : (settledInst q a).dests = i.dests := by rw [← ha]; rfl
  rw [addToDependents_eq (a := a) (by rw [← ha]) (by rw [← ha]; dsimp only; omega)
    (hsrcs ▸ hfits.1)]
  -- nothing waits for what the instruction produces, itself included
  obtain ⟨g, heq, hg⟩ := addToProducers_eq sn (i := settledInst q a)
    (q := { q.enter sn a with
      insts := update q.insts sn (settledInst q a)
      dependGraph := waitingFor q.dependGraph sn (missing q.regScoreboard a.srcs) })
    (update_self _ _ _) (hdests ▸ hfits.2) fun s hdest => by
      have hdest : s ∈ i.destRegs := by
        unfold RenamedInst.destRegs at hdest ⊢
        rwa [← hdests]
      have hnot : s ∉ missing q.regScoreboard i.srcs := fun hmem => (hs.2.2 s hmem).1 hdest
      simp [waitingFor, hsrcs, count_eq_zero.mpr hnot, no_waiting h hi.2.2.2 hdest]
  rw [heq]
  have hfinal := addIfReady_eq (q := q) sn (settledInst q a) g (i.isMemRef && memDeps)
  have hwf := admitted_wf h (insert_newcomer hi hs hdispatch hfits (i.isMemRef && memDeps) ha.symm)
    (g := g) fun s => by rw [hg s, hsrcs]; rfl
  rw [← hfinal] at hwf
  exact hwf

theorem insertNonSpec_wf (h : Wf n q) (hi : Arrives q sn i)
    (hdispatch : dispatchedToInsert i = false) (hfits : Fits i) : Wf n (q.insertNonSpec sn i) := by
  obtain ⟨hunused, hlast, hflags, hread⟩ := hi
  unfold insertNonSpec
  obtain ⟨g, heq, hg⟩ := addToProducers_eq sn (i := { i.arrive false with inIQ := true })
    (q := enter { q with nonSpecInsts := q.nonSpecInsts ++ [sn] } sn
      (i.arrive false))
    (by simp [enter]) hfits.2 fun s hs => by
      have hnil : (q.dependGraph s).next = [] := no_waiting h hread hs
      exact hnil
  rw [heq]
  have hnew : Newcomer n q sn { i.arrive false with inIQ := true } [] [] [sn] :=
    { unused := hunused, last := hlast, notRead := hread, inIQ := rfl, issued := rfl
      squashed := rfl, done := rfl, kind := (hasNodes_eq hflags).trans hdispatch
      waits := fun s hs => absurd hs not_mem_nil, spec := nofun
      nonSpec := fun _ => ⟨rfl, rfl, rfl⟩ }
  have hwf := admitted_wf h hnew (g := g) fun s => by rw [hg s]; rfl
  simpa [admitted, enter] using hwf

end Gem5Core.O3.InstQueueInsert
