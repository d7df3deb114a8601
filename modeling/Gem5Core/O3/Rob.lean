import Gem5Core.Pred.Branch

/-! The reorder buffer (`cpu/o3/rob.cc`). What it keeps per thread is one record here. -/
namespace Gem5Core.O3.Rob
open Pred.Branch

structure DynInst where
  seqNum : InstSeqNum
  threadNumber : ThreadID
  squashed : Bool := false
  canCommit : Bool := false
deriving DecidableEq

namespace DynInst

def readyToCommit (inst : DynInst) : Bool := inst.canCommit

def squash (inst : DynInst) : DynInst := { inst with squashed := true, canCommit := true }

def complete (inst : DynInst) : DynInst :=
  if inst.squashed then inst else { inst with canCommit := true }

def completeAt (sn : InstSeqNum) (inst : DynInst) : DynInst :=
  if inst.seqNum = sn then inst.complete else inst

end DynInst

structure Params where
  numEntries : Nat
  squashWidth : Option Nat
  numThreads : Nat

/-- `instList` is in program order. `squashIt` is the sequence number of the instruction that the
iterator points to; `none` is `end()`. `asserted` stays true as long as no `assert` failed and no
iterator without an instruction was followed. -/
structure ThreadROB where
  instList : List DynInst := []
  threadEntries : Nat := 0
  squashIt : Option InstSeqNum := none
  squashedSeqNum : InstSeqNum := 0
  doneSquashing : Bool := true
  asserted : Bool := true

namespace ThreadROB

variable (t : ThreadROB)

def isEmpty : Bool := t.threadEntries == 0

def squashInst : Option DynInst :=
  t.squashIt.bind fun sn => t.instList.find? fun inst => inst.seqNum == sn

def finish : ThreadROB := { t with squashIt := none, doneSquashing := true }

def older (sn : InstSeqNum) : List DynInst := t.instList.takeWhile fun inst => inst.seqNum != sn

def squashOne (sn : InstSeqNum) : ThreadROB :=
  { t with
    instList := t.instList.map fun inst => if inst.seqNum = sn then inst.squash else inst }

/-- The loop of `doSquash`, from the youngest instruction to the head. The flag says that the head
was squashed. -/
def squashLoop : Nat → ThreadROB → ThreadROB × Bool
  | 0, t => (t, false)
  | n + 1, t =>
      match t.squashInst with
      | none => (t, false)
      | some inst =>
          if t.squashedSeqNum < inst.seqNum then
            match (t.older inst.seqNum).getLast? with
            | none => ((t.squashOne inst.seqNum).finish, true)
            | some before =>
                squashLoop n { t.squashOne inst.seqNum with squashIt := some before.seqNum }
          else (t, false)

def doSquash (numInstsToSquash : Nat) : ThreadROB :=
  match t.squashInst with
  | none => { t with asserted := false }
  | some inst =>
      if inst.seqNum < t.squashedSeqNum then t.finish
      else
        let (t, returned) := squashLoop numInstsToSquash t
        if returned then t
        else
          match t.squashInst with
          | none => { t with asserted := false }
          | some inst => if inst.seqNum ≤ t.squashedSeqNum then t.finish else t

/-- The first instruction in the buffer becomes its head, so that the thread's list has
to be empty. -/
def insertInst (p : Params) (numInstsInROB : Nat) (inst : DynInst) : ThreadROB :=
  { t with
    instList := t.instList ++ [inst]
    threadEntries := t.threadEntries + 1
    asserted := t.asserted && numInstsInROB != p.numEntries &&
      (numInstsInROB != 0 || t.instList.isEmpty) }

def retireHead (numInstsInROB : Nat) : ThreadROB :=
  match t.instList with
  | [] => { t with asserted := false }
  | head_inst :: rest =>
      { t with
        instList := rest
        threadEntries := t.threadEntries - 1
        asserted := t.asserted && numInstsInROB != 0 && head_inst.readyToCommit }

def markCompleted (sn : InstSeqNum) : ThreadROB :=
  { t with instList := t.instList.map (DynInst.completeAt sn) }

def squash (squash_num : InstSeqNum) (numInstsToSquash : Nat) : ThreadROB :=
  if t.isEmpty then t
  else
    let t := { t with doneSquashing := false, squashedSeqNum := squash_num }
    match t.instList.getLast? with
    | none => t
    | some tail_thread =>
        { t with squashIt := some tail_thread.seqNum }.doSquash numInstsToSquash

end ThreadROB

structure ROB where
  threads : ThreadID → ThreadROB := fun _ => {}
  numInstsInROB : Nat := 0

namespace ROB

variable (p : Params) (rob : ROB)

def modify (tid : ThreadID) (f : ThreadROB → ThreadROB) : ROB :=
  { rob with threads := Function.update rob.threads tid (f (rob.threads tid)) }

def insertInst (inst : DynInst) : ROB :=
  { rob.modify inst.threadNumber (·.insertInst p rob.numInstsInROB inst) with
    numInstsInROB := rob.numInstsInROB + 1 }

def retireHead (tid : ThreadID) : ROB :=
  { rob.modify tid (·.retireHead rob.numInstsInROB) with numInstsInROB := rob.numInstsInROB - 1 }

end ROB

def numInstsToSquash (p : Params) (isThreadExiting : Bool) : Nat :=
  if isThreadExiting then p.numEntries else p.squashWidth.getD p.numEntries

inductive Event where
  | insertInst (inst : DynInst)
  | markCompleted (tid : ThreadID) (sn : InstSeqNum)
  | retireHead (tid : ThreadID)
  | squash (squash_num : InstSeqNum) (tid : ThreadID) (isThreadExiting : Bool)
  | doSquash (tid : ThreadID) (isThreadExiting : Bool)

def Event.tid : Event → ThreadID
  | .insertInst inst => inst.threadNumber
  | .markCompleted tid _ | .retireHead tid | .squash _ tid _ | .doSquash tid _ => tid

def step (p : Params) (rob : ROB) : Event → ROB
  | .insertInst inst => rob.insertInst p inst
  | .markCompleted tid sn => rob.modify tid (·.markCompleted sn)
  | .retireHead tid => rob.retireHead tid
  | .squash squash_num tid exiting =>
      rob.modify tid fun t => t.squash squash_num (numInstsToSquash p exiting)
  | .doSquash tid exiting => rob.modify tid fun t => t.doSquash (numInstsToSquash p exiting)

end Gem5Core.O3.Rob
