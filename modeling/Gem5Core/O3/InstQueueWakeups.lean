import Gem5Core.Lib.Protocol
import Gem5Core.O3.InstQueueInsert
import Gem5Core.O3.InstQueueSquash

/-! Wake-ups of the instruction queue are neither lost nor counted twice, over whole runs. -/
namespace Gem5Core.O3.InstQueueWakeups
open Pred.Branch InstQueue InstQueueInv InstQueueInsert InstQueueSquash List
open Lib.Protocol (legal_of_forall run Legal run_inv)

variable {n : Nat} {q : InstructionQueue} {r : InstSeqNum}

/-- How the other stages call the queue. Instructions go where dispatch sends them, are issued after
they were found ready, complete after that and commit after they left the queue; one that was
scheduled non-speculatively is the oldest of its thread, so that it is not squashed before it is
issued (unless it is a memory reference or has a fault). -/
def Allowed (n : Nat) (q : InstructionQueue) : Event → Prop
  | .insert sn new_inst _ =>
      Arrives q sn new_inst ∧ Sources n q new_inst ∧ dispatchedToInsert new_inst = true
  | .insertNonSpec sn new_inst => Arrives q sn new_inst ∧ dispatchedToInsert new_inst = false
  | .scheduleNonSpec sn => sn ∈ q.nonSpecInsts
  | .issue sn => (q.insts sn).inIQ = true ∧ ((q.insts sn).viaInsert = true → sn ∈ q.ready)
  | .wakeDependents sn =>
      sn ∈ q.instList (q.insts sn).threadNumber ∧ (q.insts sn).issued = true ∧
        ((q.insts sn).isMemRef = true → (q.insts sn).memOpDone = false)
  | .commit sn tid => ∀ x ∈ q.instList tid, x ≤ sn → (q.insts x).inIQ = false
  | .squash squashedSeqNum tid => ∀ x ∈ q.instList tid, squashedSeqNum < x →
      (q.insts x).atCommit = true → (q.insts x).issued = false →
        (q.insts x).fault = true ∨ (q.insts x).isMemRef = true
  | .setPins _ _ => True

def FitsEvent : Event → Prop
  | .insert _ new_inst _ | .insertNonSpec _ new_inst => Fits new_inst
  | _ => True

theorem step_wf (h : Wf n q) {e : Event} (ha : Allowed n q e) (hfits : FitsEvent e) :
    Wf n (step q e) := by
  cases e with
  | insert sn new_inst memDeps => exact insert_wf h ha.1 ha.2.1 ha.2.2 hfits memDeps
  | insertNonSpec sn new_inst => exact insertNonSpec_wf h ha.1 ha.2 hfits
  | scheduleNonSpec sn => exact scheduleNonSpec_wf h ha
  | issue sn => exact issue_wf h (h.queued sn ha.1) ha.1 ha.2
  | wakeDependents sn => exact wakeDependents_wf h ha.1 ha.2.1 ha.2.2
  | commit sn tid => exact commit_wf h ha
  | squash squashedSeqNum tid => exact doSquash_wf h ha
  | setPins idx writes => exact { h with }

theorem start_wf (n : Nat) : Wf n {} where
  account := fun _ hvia => absurd hvia Bool.false_ne_true
  issuable := fun _ hvia => absurd hvia Bool.false_ne_true
  ready := fun _ hvia => absurd hvia Bool.false_ne_true
  once := fun _ hvia => absurd hvia Bool.false_ne_true
  issued := fun _ hvia => absurd hvia Bool.false_ne_true
  short := fun _ hvia => absurd hvia Bool.false_ne_true
  waiting := fun _ _ hr => absurd hr not_mem_nil
  unsquashed := fun _ _ => rfl
  listed := fun _ _ hx => absurd hx not_mem_nil
  sorted := fun _ => .nil
  queued := fun _ hin => absurd hin Bool.false_ne_true
  held := fun _ _ hx => absurd hx not_mem_nil
  done := fun _ hdone => absurd hdone Bool.false_ne_true
  known := fun _ hin => absurd hin (by simp)
  logged := fun _ hx => absurd hx not_mem_nil
  places := fun _ hin => absurd hin Bool.false_ne_true
  order := fun _ _ hp => absurd hp not_mem_nil
  kind := fun _ hin => absurd hin Bool.false_ne_true
  always := fun _ hvia => absurd hvia Bool.false_ne_true
  nonSpec := fun _ hin => absurd hin Bool.false_ne_true
  nonSpecKind := fun _ hx => absurd hx not_mem_nil
  asserted := rfl

theorem ready_iff (h : Wf n q) (hin : (q.insts r).inIQ = true)
    (hvia : (q.insts r).viaInsert = true) :
    r ∈ q.ready ↔ ∀ src ∈ (q.insts r).srcs,
      src.ready = true ∨ q.regScoreboard src.reg.flatIndex = true := by
  have hsq := h.unsquashed r hin
  have haccount := h.account r hvia hsq
  rw [h.ready r hvia hsq]
  constructor
  · intro hfull src hsrc
    by_contra hmissing
    obtain ⟨hready, hsb⟩ := not_or.mp hmissing
    -- a missing source has a node
    have hawaits : awaits src = true := by
      have hreg : src.reg.isAlwaysReady = false := by
        by_contra hreg
        exact hready (h.always r hvia src hsrc (by simpa using hreg))
      simp [awaits, hreg, Bool.not_eq_true _ ▸ hready]
    have hunready : src.reg.flatIndex ∈ unready (q.insts r).srcs :=
      mem_map_of_mem (mem_filter.mpr ⟨hsrc, hawaits⟩)
    have hplaces := h.places r hin hvia src.reg.flatIndex
    rw [if_neg hsb] at hplaces
    exact h.no_node hfull src.reg.flatIndex
      (count_pos_iff.mp (hplaces ▸ count_pos_iff.mpr hunready))
  · intro hall
    have hzero : nodes n q.dependGraph r = 0 := by
      refine nodes_eq_zero_iff.mpr fun s _ => count_eq_zero.mpr fun hmem => ?_
      obtain ⟨hsb, hunready⟩ := h.scoreboard hmem
      obtain ⟨src, hsrc, rfl⟩ := mem_map.mp hunready
      obtain ⟨hsrc, hawaits⟩ := mem_filter.mp hsrc
      rcases hall src hsrc with hready | hready
      · simp [awaits, hready] at hawaits
      · simp [hready] at hsb
    omega

/-- Along every run in which instructions have at most 127 sources and destinations: for
each unsquashed instruction that was entered through `insert`, the counted sources and the
nodes that name it add up to its sources, it is found ready to issue at most once, and
exactly when all sources are counted; in the queue that is exactly when every source was
marked or has been produced. Nodes name only instructions in the queue, none of them
squashed, and no assertion fails. -/
theorem wakeups_counted (n : Nat) (events : List Event)
    (hl : Legal step (Allowed n) {} events) (hfits : ∀ e ∈ events, FitsEvent e) :
    let q := run step {} events
    (∀ r, (q.insts r).viaInsert = true → (q.insts r).squashedInIQ = false →
      (q.insts r).readyRegs + nodes n q.dependGraph r = (q.insts r).srcs.length ∧
        q.ready.count r ≤ 1 ∧
        (r ∈ q.ready ↔ (q.insts r).readyRegs = (q.insts r).srcs.length)) ∧
    (∀ r, (q.insts r).viaInsert = true → (q.insts r).inIQ = true →
      (r ∈ q.ready ↔ ∀ src ∈ (q.insts r).srcs,
        src.ready = true ∨ q.regScoreboard src.reg.flatIndex = true)) ∧
    (∀ s, ∀ r ∈ (q.dependGraph s).next, (q.insts r).inIQ = true ∧
      (q.insts r).squashedInIQ = false) ∧
    q.asserted = true := by
  intro q
  have h : Wf n q := run_inv (Wf n) (fun _ _ h ha => step_wf h ha.1 ha.2) events (start_wf n)
    (hl.and (legal_of_forall fun e he _ => hfits e he))
  refine ⟨fun r hvia hsq => ⟨h.account r hvia hsq, h.once r hvia, h.ready r hvia hsq⟩,
    fun r hvia hin => ready_iff h hin hvia, fun s r hr => ?_, h.asserted⟩
  have hin := (h.waiting s r hr).2.2
  exact ⟨hin, h.unsquashed r hin⟩

instance (q : InstructionQueue) (i : RenamedInst) : Decidable (NotRead q i) := by
  dsimp only [NotRead]; infer_instance

instance (q : InstructionQueue) (i : RenamedInst) : Decidable (ProducersOlder q i) := by
  dsimp only [ProducersOlder]; infer_instance

instance (i : RenamedInst) : Decidable (WellFlagged i) := inferInstanceAs (Decidable (_ ∧ _ ∧ _))

instance (q : InstructionQueue) (sn : InstSeqNum) (i : RenamedInst) : Decidable (Arrives q sn i) :=
  inferInstanceAs (Decidable (_ ∧ _ ∧ _ ∧ _))

instance (n : Nat) (q : InstructionQueue) (i : RenamedInst) : Decidable (Sources n q i) :=
  inferInstanceAs (Decidable (_ ∧ _ ∧ _))

instance (n : Nat) (q : InstructionQueue) : DecidablePred (Allowed n q) := fun e => by
  cases e <;> dsimp only [Allowed] <;> infer_instance

instance : DecidablePred FitsEvent := fun e => by
  cases e <;> dsimp only [FitsEvent, Fits] <;> infer_instance

/-- The second instruction reads the result of the first one twice; the third one waits for
the second one and is squashed. -/
def readTwice : List Event :=
  [.setPins 5 1, .insert 1 { dests := [⟨5, false⟩] } false,
    .insert 2 { srcs := [⟨⟨5, false⟩, false⟩, ⟨⟨7, false⟩, true⟩, ⟨⟨5, false⟩, false⟩],
                dests := [⟨6, false⟩] } false,
    .insert 3 { srcs := [⟨⟨6, false⟩, false⟩, ⟨⟨5, false⟩, false⟩] } false,
    .issue 1, .wakeDependents 1, .squash 2 0]

theorem wakeups_counted_readTwice :
    let q := run step {} readTwice
    q.ready = [1, 2] ∧ (q.insts 2).readyRegs = 3 ∧
      (q.insts 2).readyRegs + nodes 8 q.dependGraph 2 = (q.insts 2).srcs.length ∧
      q.asserted = true := by
  have hrun := wakeups_counted 8 readTwice (by decide +kernel) (by decide +kernel)
  have haccount := (hrun.1 2 (by decide +kernel) (by decide +kernel)).1
  exact ⟨by decide +kernel, by decide +kernel, haccount, hrun.2.2.2⟩

def readOften : List Event :=
  [.setPins 0 1, .insert 1 { dests := [⟨0, false⟩] } false,
    .insert 2 { srcs := List.replicate 128 ⟨⟨0, false⟩, false⟩ } false,
    .issue 1, .wakeDependents 1]

/-- With 128 sources the `int8_t` is negative: no source is looked at, and the instruction is
not found ready although its register was produced. -/
theorem wakeups_lost_readOften :
    Legal step (Allowed 1) {} readOften ∧
      let q := run step {} readOften
      (q.insts 2).viaInsert = true ∧ (q.insts 2).squashedInIQ = false ∧
        (q.insts 2).readyRegs + nodes 1 q.dependGraph 2 = 0 ∧ (q.insts 2).srcs.length = 128 ∧
        2 ∉ q.ready ∧ ∀ src ∈ (q.insts 2).srcs, q.regScoreboard src.reg.flatIndex = true := by
  exact ⟨by decide +kernel, by decide +kernel⟩

end Gem5Core.O3.InstQueueWakeups
