import Gem5Core.Lib.Protocol
import Gem5Core.Pred.RasRing

/-! Speculation recovery of the return address stack: a wrong path may push and pop at any point and
is then squashed, newest first, and every correct-path return gets the address of its own call. -/
namespace Gem5Core.Pred.RasRecovery
open Branch Ras RasRing Lib.RingStack Function List
open Lib.Protocol (Legal run run_inv)

section
variable {PC : Type} {n : Nat} [NeZero n]

inductive Op (PC : Type) where
  | push (pc : PC)
  | pop

/-- A step of the correct path, a step of a wrong path, or the squash of the
newest wrong-path branch that is not yet undone. -/
inductive Event (PC : Type) where
  | correct (op : Op PC)
  | wrong (op : Op PC)
  | squash

/-- `stack` is what the correct path has pushed and not popped, top first;
`wrong` the open wrong-path branches with their records, newest first; `answers`
what each correct-path pop returned, and what its matching push had pushed. -/
structure State (PC : Type) (n : Nat) where
  ras : ReturnAddrStack PC n
  stack : List PC := []
  wrong : List (Op PC × Option (RASHistory PC n)) := []
  answers : List (Option PC × Option PC) := []

def rise (wrong : List (Op PC × Option (RASHistory PC n))) : ℤ :=
  match wrong with
  | [] => 0
  | (.push _, _) :: rest => rise rest + 1
  | (.pop, _) :: rest => rise rest - 1

def perform (ras : ReturnAddrStack PC n) (tid : ThreadID) :
    Op PC → ReturnAddrStack PC n × Option (RASHistory PC n)
  | .push pc => ras.push tid pc none
  | .pop => (ras.pop tid none).2

def step (tid : ThreadID) (st : State PC n) : Event PC → State PC n
  | .correct (.push pc) =>
      { st with ras := (st.ras.push tid pc none).1, stack := pc :: st.stack }
  | .correct .pop =>
      let popped := st.ras.pop tid none
      { st with
        ras := popped.2.1
        stack := st.stack.tail
        answers := st.answers ++ [(popped.1, st.stack.head?)] }
  | .wrong op =>
      let (ras, history) := perform st.ras tid op
      { st with ras, wrong := (op, history) :: st.wrong }
  | .squash =>
      match st.wrong with
      | [] => st
      | (_, history) :: rest =>
          { st with ras := (st.ras.squash tid history).1, wrong := rest }

/-- The correct path is well nested, at most `n` deep and moves only when no
wrong path is open; a wrong path never rises more than `n` minus the depth. -/
def legal (st : State PC n) : Event PC → Bool
  | .correct (.push _) => st.wrong.isEmpty && decide (st.stack.length + 1 ≤ n)
  | .correct .pop => st.wrong.isEmpty && !st.stack.isEmpty
  | .wrong (.push _) => decide (rise st.wrong + 1 ≤ n - st.stack.length)
  | .wrong .pop => true
  | .squash => !st.wrong.isEmpty

def entryOf : Op PC × Option (RASHistory PC n) → Entry (Fin n) (Option PC)
  | (.push pc, _) => .pushed (some pc)
  | (.pop, history) => .popped ((history.map RASHistory.tos).getD 0)
      (history.bind RASHistory.ras_entry)

def Op.isPush : Op PC → Bool
  | .push _ => true
  | .pop => false

def Recorded : Op PC × Option (RASHistory PC n) → Prop
  | (op, history) => ∃ h, history = some h ∧ h.pushed = op.isPush ∧ h.poped = !op.isPush

structure Inv (tid : ThreadID) (st : State PC n) : Prop where
  tracks : ∃ top, StackTracks (st.ras.addrStacks tid) ⟨top, st.stack.map some⟩
    (st.wrong.map entryOf)
  recorded : ∀ branch ∈ st.wrong, Recorded branch
  answers : ∀ answer ∈ st.answers, answer.2.isSome = true ∧ answer.1 = answer.2

private theorem height_rise (top : ℤ) (wrong : List (Op PC × Option (RASHistory PC n))) :
    height top (wrong.map entryOf) = top + rise wrong := by
  induction wrong with
  | nil => simp [height, rise]
  | cons e rest ih =>
    obtain ⟨op, history⟩ := e
    cases op <;> simp only [map_cons, entryOf, height, rise, ih] <;> omega

variable (tid : ThreadID) (st : State PC n)

theorem correctPush_inv (pc : PC) (hlegal : legal st (.correct (.push pc)) = true)
    (hinv : Inv tid st) : Inv tid (step tid st (.correct (.push pc))) := by
  obtain ⟨top, htracks⟩ := hinv.tracks
  simp only [legal, Bool.and_eq_true, List.isEmpty_iff, decide_eq_true_eq] at hlegal
  obtain ⟨stats, heq⟩ := st.ras.push_none tid pc
  refine ⟨⟨top + 1, ?_⟩, hinv.recorded, hinv.answers⟩
  rw [hlegal.1] at htracks
  simp only [step, heq, update_self, hlegal.1, List.map_nil, List.map_cons]
  exact tracks_extend htracks pc (by simpa using hlegal.2)

theorem correctPop_inv (hlegal : legal st (.correct .pop) = true) (hinv : Inv tid st) :
    Inv tid (step tid st (.correct .pop)) := by
  obtain ⟨top, htracks⟩ := hinv.tracks
  simp only [legal, Bool.and_eq_true, List.isEmpty_iff, Bool.not_eq_true',
    List.isEmpty_eq_false_iff_exists_mem] at hlegal
  obtain ⟨stats, heq⟩ := st.ras.pop_none tid
  rw [hlegal.1] at htracks
  obtain ⟨hdrop, htop⟩ := tracks_drop htracks
  refine ⟨⟨top - 1, ?_⟩, hinv.recorded, ?_⟩
  · simp only [step, heq, update_self, hlegal.1, List.map_nil, List.map_tail]
    exact hdrop
  · intro answer hmem
    simp only [step, heq, List.mem_append, List.mem_singleton] at hmem
    rcases hmem with hmem | rfl
    · exact hinv.answers answer hmem
    · cases hstack : st.stack with
      | nil =>
        obtain ⟨pc, hpc⟩ := hlegal.2
        rw [hstack] at hpc
        cases hpc
      | cons pc rest =>
        exact ⟨rfl, htop (some pc) (rest.map some) (by simp [hstack])⟩

theorem wrong_inv (op : Op PC) (hlegal : legal st (.wrong op) = true) (hinv : Inv tid st) :
    Inv tid (step tid st (.wrong op)) := by
  obtain ⟨top, htracks⟩ := hinv.tracks
  cases op with
  | push pc =>
    simp only [legal, decide_eq_true_eq] at hlegal
    obtain ⟨stats, heq⟩ := st.ras.push_none tid pc
    simp only [step, perform, heq]
    refine ⟨⟨top, ?_⟩, forall_mem_cons.mpr ⟨⟨_, rfl, rfl, rfl⟩, hinv.recorded⟩, hinv.answers⟩
    simp only [update_self, map_cons, entryOf]
    apply tracks_push htracks pc
    rw [height_rise]
    simp only [Frames.bottom, length_map]
    omega
  | pop =>
    obtain ⟨stats, heq⟩ := st.ras.pop_none tid
    simp only [step, perform, heq]
    refine ⟨⟨top, ?_⟩, forall_mem_cons.mpr ⟨⟨_, rfl, rfl, rfl⟩, hinv.recorded⟩, hinv.answers⟩
    simp only [update_self, map_cons, entryOf, Option.map_some, Option.getD_some,
      Option.bind_some]
    exact tracks_pop htracks

theorem squash_inv (hinv : Inv tid st) : Inv tid (step tid st .squash) := by
  obtain ⟨top, htracks⟩ := hinv.tracks
  cases hwrong : st.wrong with
  | nil =>
    simp only [step, hwrong]
    exact hinv
  | cons entry rest =>
    have hall := hinv.recorded
    rw [hwrong] at hall
    obtain ⟨hrecorded, hrest⟩ := forall_mem_cons.mp hall
    rw [hwrong] at htracks
    obtain ⟨op, history⟩ := entry
    obtain ⟨h, rfl, hpushed, hpoped⟩ := hrecorded
    obtain ⟨stats, heq⟩ := st.ras.squash_some tid h
    simp only [step, hwrong, heq]
    refine ⟨⟨top, ?_⟩, hrest, hinv.answers⟩
    simp only [update_self, ReturnAddrStack.undoStack, hpushed, hpoped]
    cases op with
    | push pc => exact tracks_undoPush htracks
    | pop => exact tracks_undoPop htracks

theorem step_inv (event : Event PC) (hlegal : legal st event = true) (hinv : Inv tid st) :
    Inv tid (step tid st event) := by
  cases event with
  | correct op =>
    cases op with
    | push pc => exact correctPush_inv tid st pc hlegal hinv
    | pop => exact correctPop_inv tid st hlegal hinv
  | wrong op => exact wrong_inv tid st op hlegal hinv
  | squash => exact squash_inv tid st hinv

/-- Whatever wrong paths were taken and squashed in between, every correct-path
pop returns the address its matching push has pushed. -/
theorem pop_matches_push (tid : ThreadID) (events : List (Event PC))
    (hlegal : Legal (step tid) (fun st event => legal st event)
      ({ ras := .init } : State PC n) events) :
    ∀ answer ∈ (run (step tid) ({ ras := .init } : State PC n) events).answers,
      answer.2.isSome = true ∧ answer.1 = answer.2 := by
  have hstart : Inv tid ({ ras := .init } : State PC n) :=
    ⟨⟨0, init_tracks⟩, by simp, by simp⟩
  exact (run_inv (Inv tid) (fun st event hinv hevent => step_inv tid st event hevent hinv) events
    hstart hlegal).answers

/-- Two calls in a stack of two entries; a wrong path pops both and one more,
calls, and is squashed; then both returns. -/
def detour : List (Event Addr) :=
  [.correct (.push 0x10), .correct (.push 0x20),
    .wrong .pop, .wrong .pop, .wrong .pop, .wrong (.push 0x66),
    .squash, .squash, .squash, .squash,
    .correct .pop, .correct .pop]

theorem pop_matches_push_detour :
    let start : State Addr 2 := { ras := .init }
    Legal (step 0) (fun st event => legal st event) start detour ∧
      (run (step 0) start detour).answers =
        [(some 0x20, some 0x20), (some 0x10, some 0x10)] ∧
      ∀ answer ∈ (run (step 0) start detour).answers,
        answer.2.isSome = true ∧ answer.1 = answer.2 :=
  ⟨by decide +kernel, by decide +kernel, pop_matches_push 0 detour (by decide +kernel)⟩

end

end Gem5Core.Pred.RasRecovery
