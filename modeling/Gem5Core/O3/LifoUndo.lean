import Gem5Core.O3.FrontEndInv

/-! Undo in the decoupled front end is last in, first out. -/
namespace Gem5Core.O3.LifoUndo
open Pred.Branch Bac FrontEnd Stamps FrontEndInv
open Lib.Deque (Live enters)

variable {PC σ η β : Type} {n : Nat}

/-- Predictions are numbered in the order in which they are made. One that was neither undone nor
committed has exactly one owner, those of fetch targets are later than those of the unit, and a
record that is squashed is that of the latest one. -/
structure LastInFirstOut (tid : ThreadID) (s : BAC PC σ η β n) : Prop where
  numbered : enters s.trace = List.range s.predicted.length
  queued : List.Forall₂ (Labels s.predicted) s.order (branches tid s.bpu)
  carried : ∀ ft ∈ s.ftq.ftq, Carries s.predicted ft
  owned : ∀ k, k ∈ targetStamps s.ftq.ftq ++ s.order.reduceOption ↔ Live s.trace k
  ownedOnce : (targetStamps s.ftq.ftq ++ s.order.reduceOption).Nodup
  later : ∀ k ∈ targetStamps s.ftq.ftq, ∀ k' ∈ s.order.reduceOption, k' < k
  undoesLatest : ∀ pre k post, s.trace = pre ++ .squash k :: post →
    Live pre k ∧ ∀ k', Live pre k' → k' ≤ k

theorem lastInFirstOut_of_inv [PCState PC] {p : Bac.Params PC σ η β} {tid : ThreadID}
    {s : BAC PC σ η β n} (h : Inv p tid s) : LastInFirstOut tid s where
  numbered := h.numbered
  queued := h.queued
  carried := fun ft hft => (h.targets ft hft).carries
  owned := h.trace.mem_queue_iff
  ownedOnce := h.trace.sorted.imp fun hlt => ne_of_gt hlt
  later := (List.pairwise_append.mp h.trace.sorted).2.2
  undoesLatest := by
    intro pre k post heq
    have htrace := h.trace
    rw [heq] at htrace
    exact htrace.squash_latest

/-- Every interleaving of the stage's cycles, with any signals of the other stages,
and of the instructions that fetch takes keeps the records in that order. -/
theorem front_end_lifo [PCState PC] [NeZero n] (p : Bac.Params PC σ η β) (tid : ThreadID)
    (cPred : σ) (btb : β) (hasRas hasIPred : Bool) (pc : PC)
    (events : List (FrontEnd.Event PC)) :
    LastInFirstOut tid (run p tid (start p cPred btb hasRas hasIPred pc) events : BAC PC σ η β n) :=
  lastInFirstOut_of_inv (run_inv p tid events (start_inv p tid cPred btb hasRas hasIPred pc))

def threeJumps : Bac.Params Addr Unit Unit Unit :=
  let jump := fourByteInst false false true
  fixedTargets true [(0x108, jump, 0x200), (0x208, jump, 0x300), (0x308, jump, 0x400)]

/-- Fetch finds a surprise branch, the exit branch of the first of three targets, and a branch
inside a macro-op, before commit squashes all but the surprise branch. -/
def surpriseMatchedComplex : List (FrontEnd.Event Addr) :=
  let jump := fourByteInst false false true
  [.tick quiet, .tick quiet, .tick quiet,
    .fetch { seqNum := 1, inst := jump, pc := 0x100 },
    .fetch { seqNum := 2, inst := jump, pc := 0x108 },
    .fetch { seqNum := 3, inst := { jump with isMicroop := true }, pc := 0x200 },
    .tick { quiet with fromCommit := ⟨true, 0x104, 1, none, false⟩ }]

theorem front_end_lifo_surpriseMatchedComplex :
    let s : BAC Addr Unit Unit Unit 16 :=
      run threeJumps 0 (start threeJumps () () true true 0x100) surpriseMatchedComplex
    s.trace = [.enter 0, .enter 1, .enter 2, .squash 2, .squash 1, .enter 3, .squash 3,
        .squash 0] ∧
      s.order = [none] ∧ LastInFirstOut 0 s :=
  ⟨by decide +kernel, by decide +kernel, front_end_lifo threeJumps 0 () () true true 0x100
    surpriseMatchedComplex⟩

end Gem5Core.O3.LifoUndo
