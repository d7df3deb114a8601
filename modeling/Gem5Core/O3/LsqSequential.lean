import Gem5Core.O3.LsqMemoryStores

/-! A load that commits has read what the stores before it in the program have written, in whatever
order the queues let them execute. As in `LsqMemory`, distinct virtual addresses are distinct
bytes. -/
namespace Gem5Core.O3.Lsq
open Pred.Branch Lib.Protocol Lib.Indexed Lib.ByteMemory

/-- The unit with the stores dispatched and not squashed, in program order, and the last sequence
number. -/
structure Machine where
  unit : LSQUnit := {}
  stores : List DynInst := []
  last : InstSeqNum := 0

namespace Machine

variable (p : Params) (init : Nat → Byte) (m : Machine)

def step (e : Event) : Machine where
  unit := Lsq.step p m.unit e
  stores :=
    match e with
    | .insertStore store_inst => m.stores ++ [store_inst]
    | .squash squashed_num => m.stores.filter (·.seqNum ≤ squashed_num)
    | _ => m.stores
  last :=
    match e with
    | .insertLoad inst | .insertStore inst => inst.seqNum
    | _ => m.last

/-- Instructions are ordinary and numbered in program order, the memory answers with the last value
written, an instruction commits when it has executed and no violator is left at or before it, and
what has committed is not squashed. -/
def Expected : Event → Prop
  | .insertLoad load_inst =>
      load_inst.Ordinary ∧ m.last < load_inst.seqNum ∧ m.unit.loadQueue.length < p.lqEntries
  | .insertStore store_inst => store_inst.Ordinary ∧ m.last < store_inst.seqNum
  | .executeLoad _ outcome _ _ => outcome ≠ .notAccessed
  | .recvData load_idx offset byte =>
      ∃ ld ∈ m.unit.loadAt load_idx,
        byte = m.unit.memory init (ld.inst.request.vaddr.toNat + offset)
  | .writeback load_idx =>
      ∃ ld ∈ m.unit.loadAt load_idx, ∀ k < ld.inst.request.size, (ld.memData k).isSome
  | .commit youngest_inst =>
      (∀ w ∈ m.unit.violators, youngest_inst < w) ∧
        (∀ ld ∈ m.unit.loadQueue, ld.inst.seqNum ≤ youngest_inst →
          ld.isExecuted = true ∧ ld.reExec = false) ∧
        ∀ st ∈ m.unit.storeQueue, st.inst.seqNum ≤ youngest_inst → st.size ≠ 0
  | .squash squashed_num =>
      (∀ ld ∈ m.unit.retired, ld.inst.seqNum ≤ squashed_num) ∧
        (∀ st ∈ m.unit.sent, st.inst.seqNum ≤ squashed_num) ∧
        ∀ st ∈ m.unit.storeQueue, st.canWB = true → st.inst.seqNum ≤ squashed_num
  | _ => True

instance : DecidablePred (Expected p init m) := fun e => by
  rcases e with _ | _ <;> dsimp only [Expected] <;> infer_instance

def Allowed (e : Event) : Prop := LSQUnit.StoresAllowed p m.unit e ∧ Expected p init m e

instance (e : Event) : Decidable (Allowed p init m e) := inferInstanceAs (Decidable (_ ∧ _))

def Consistent : Prop := LSQUnit.Consistent init m.stores m.last m.unit

variable {p init m}

theorem Consistent.step (hc : Consistent init m) {e : Event} (he : Allowed p init m e) :
    Consistent init (m.step p e) := by
  obtain ⟨hstores, hexp⟩ := he
  cases e with
  | insertLoad inst => exact hc.insertLoad hexp.1 hexp.2.1
  | insertStore inst => exact hc.insertStore hexp.1 hexp.2
  | executeLoad idx outcome isAtCommit accepted => exact hc.executeLoad idx outcome _ _ hexp
  | executeStore idx outcome =>
    cases outcome with
    | delayed => exact hc
    | notAccessed => exact hc
    | accessed =>
      obtain ⟨st, hst, hmay⟩ := hstores
      exact hc.executeStore hst hmay.once
  | recvData idx offset byte =>
    obtain ⟨ld, hld, rfl⟩ := hexp
    exact hc.recvData hld offset
  | writeback idx =>
    obtain ⟨ld, hld, hall⟩ := hexp
    exact hc.writeback hld hall
  | getMemDepViolator => exact hc.getMemDepViolator
  | checkSnoop addr => exact hc.checkSnoop addr
  | commit youngest =>
    obtain ⟨hviolators, hdone, hexecuted⟩ := hexp
    -- the stores are marked when the loads before them have left
    have h := hc.commitLoads hviolators hdone hexecuted
    refine h.commitStores (fun ld hld => ?_) hexecuted
    obtain ⟨i, hi⟩ := exists_lookup_of_mem _ hld
    exact (LSQUnit.loadAt_commitLoads hc.order.loads hi).2
  | writebackStores blocked answers =>
    exact LSQUnit.writesBack_consistent.writebackStores hc blocked answers
  | recvRetry blocked => exact LSQUnit.writesBack_consistent.blockedStore hc blocked
  | completeStore idx =>
    obtain ⟨st, hst, hidx, hcompl⟩ := hstores
    exact hc.completeStore hst hidx hcompl
  | squash squashed_num =>
    obtain ⟨hretired, hsent, hcommitted⟩ := hexp
    exact hc.squash hretired hsent hcommitted

/-- However the loads and stores of a thread execute, a load that commits has for each byte
the value of the youngest older store to it in the program, or the initial value. -/
theorem committed_loads_sequential (p : Params) (init : Nat → Byte) (events : List Event)
    (hl : Legal (step p) (Allowed p init) {} events) :
    let m := run (step p) {} events
    ∀ ld ∈ m.unit.retired, ∀ k < ld.inst.request.size,
      ld.memData k = some (DynInst.writes.contents init
        (m.stores.filter (·.seqNum < ld.inst.seqNum)) (ld.inst.request.vaddr.toNat + k)) := by
  intro m ld hld k hk
  have hc : Consistent init m :=
    run_inv (Consistent init) (fun _ _ hc he => hc.step he) events LSQUnit.consistent_start hl
  obtain ⟨value, hvalue, hshows⟩ := (hc.retired ld hld).2.data k hk
  have hmem : DynInst.writes.Shows init (· ∈ m.stores.filter (·.seqNum < ld.inst.seqNum))
      (ld.inst.request.vaddr.toNat + k) value := by
    apply hshows.congr
    intro s _
    rw [List.mem_filter, decide_eq_true_eq, and_comm]
  rw [hvalue, hmem.eq_contents (hc.tracks.sorted.filter _)]

/-- A load that passes an older store is squashed and executes again, a second one takes half
of its bytes from memory after the store was sent. -/
theorem committed_loads_sequential_violation :
    let p : Params := { depCheckShift := 4, lqEntries := 4, sqEntries := 4 }
    let init : Nat → Byte := fun _ => 0
    let store : DynInst := { seqNum := 1, request := { vaddr := 64, size := 8 },
                             data := fun i => BitVec.ofNat 8 (i + 1) }
    let load (seqNum : InstSeqNum) (vaddr : Addr) : DynInst := { seqNum, request := { vaddr, size := 2 } }
    let events : List Event := [.insertStore store, .insertLoad (load 2 66),
      .executeLoad 1 .accessed false true, .recvData 1 0 0, .executeStore 1 .accessed,
      .getMemDepViolator, .squash 1, .insertLoad (load 3 66), .insertLoad (load 4 71),
      .executeLoad 1 .accessed false true, .writeback 1, .executeLoad 2 .accessed false true,
      .commit 3, .writebackStores {} [{}], .executeLoad 2 .accessed false true, .recvData 2 0 8,
      .recvData 2 1 0, .writeback 2, .commit 4]
    let m := run (step p) {} events
    Legal (step p) (Allowed p init) {} events ∧
      m.unit.retired.map (fun ld => (ld.memData 0, ld.memData 1)) =
        [(some 3, some 4), (some 8, some 0)] ∧
      ∀ ld ∈ m.unit.retired, ∀ k < ld.inst.request.size,
        ld.memData k = some (DynInst.writes.contents init
          (m.stores.filter (·.seqNum < ld.inst.seqNum)) (ld.inst.request.vaddr.toNat + k)) := by
  intro p init store load events m
  have hl : Legal (step p) (Allowed p init) {} events := by decide +kernel
  exact ⟨hl, by decide +kernel, committed_loads_sequential p init events hl⟩

end Machine

end Gem5Core.O3.Lsq
