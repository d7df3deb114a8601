import Mathlib.Algebra.GroupWithZero.Nat
import Gem5Core.Lib.Ledger
import Gem5Core.Pred.Branch

/-! `ReturnAddrStack`: one circular stack of return addresses per thread, and
the records that let a squash undo what a branch did to it. -/
namespace Gem5Core.Pred.Ras
open Branch Lib.Ledger

variable {PC : Type} {n : Nat}

/-- `tos` is an index of the array, so it is below `numEntries` by type. -/
structure AddrStack (PC : Type) (numEntries : Nat) where
  addrStack : Fin numEntries → Option PC
  usedEntries : Nat
  tos : Fin numEntries

namespace AddrStack

def init [NeZero n] : AddrStack PC n := ⟨fun _ => none, 0, 0⟩

def top (s : AddrStack PC n) : Option PC := s.addrStack s.tos

def incrTos (tos : Fin n) : Fin n :=
  if h : tos.val + 1 = n then ⟨0, by omega⟩ else ⟨tos.val + 1, by omega⟩

def decrTos (tos : Fin n) : Fin n :=
  if tos.val = 0 then ⟨n - 1, Nat.sub_one_lt_of_lt tos.isLt⟩ else ⟨tos.val - 1, by omega⟩

def push (s : AddrStack PC n) (return_addr : PC) : AddrStack PC n :=
  { addrStack := Function.update s.addrStack (incrTos s.tos) (some return_addr)
    usedEntries := if s.usedEntries ≠ n then s.usedEntries + 1 else s.usedEntries
    tos := incrTos s.tos }

def pop (s : AddrStack PC n) : AddrStack PC n :=
  { s with
    usedEntries := if 0 < s.usedEntries then s.usedEntries - 1 else s.usedEntries
    tos := decrTos s.tos }

def restore (s : AddrStack PC n) (tos : Fin n) (restored : Option PC) : AddrStack PC n :=
  { addrStack := Function.update s.addrStack tos restored
    usedEntries := if s.usedEntries ≠ n then s.usedEntries + 1 else s.usedEntries
    tos }

end AddrStack

structure RASHistory (PC : Type) (n : Nat) where
  addr : Nat
  pushed : Bool
  poped : Bool
  ras_entry : Option PC
  tos : Fin n

structure Stats where
  pushes : Nat := 0
  pops : Nat := 0
  squashes : Nat := 0
  used : Nat := 0
  correct : Nat := 0
  incorrect : Nat := 0
deriving DecidableEq

structure ReturnAddrStack (PC : Type) (n : Nat) where
  addrStacks : ThreadID → AddrStack PC n
  heap : Heap
  stats : Stats
  asserted : Bool

namespace ReturnAddrStack

def init [NeZero n] : ReturnAddrStack PC n := ⟨fun _ => .init, .empty, {}, true⟩

/-- `new RASHistory` when `ras_history` is null, the record itself otherwise. -/
def makeRASHistory [NeZero n] (ras : ReturnAddrStack PC n) (ras_history : Option (RASHistory PC n)) :
    ReturnAddrStack PC n × RASHistory PC n :=
  match ras_history with
  | some history => (ras, history)
  | none => ({ ras with heap := ras.heap.new }, ⟨ras.heap.next, false, false, none, 0⟩)

def setStack (ras : ReturnAddrStack PC n) (tid : ThreadID) (s : AddrStack PC n) :
    ReturnAddrStack PC n :=
  { ras with addrStacks := Function.update ras.addrStacks tid s }

def push [NeZero n] (ras : ReturnAddrStack PC n) (tid : ThreadID) (pc : PC)
    (ras_history : Option (RASHistory PC n)) :
    ReturnAddrStack PC n × Option (RASHistory PC n) :=
  let (ras, history) := ras.makeRASHistory ras_history
  let ras := ras.setStack tid ((ras.addrStacks tid).push pc)
  ({ ras with stats := { ras.stats with pushes := ras.stats.pushes + 1 } },
    some { history with pushed := true })

/-- Also returns the popped address, `ras_entry` of the record. -/
def pop [NeZero n] (ras : ReturnAddrStack PC n) (tid : ThreadID)
    (ras_history : Option (RASHistory PC n)) :
    Option PC × ReturnAddrStack PC n × Option (RASHistory PC n) :=
  let (ras, history) := ras.makeRASHistory ras_history
  let stack := ras.addrStacks tid
  let history := { history with poped := true, tos := stack.tos, ras_entry := stack.top }
  let ras := ras.setStack tid stack.pop
  (history.ras_entry, { ras with stats := { ras.stats with pops := ras.stats.pops + 1 } },
    some history)

def undo (ras : ReturnAddrStack PC n) (tid : ThreadID) (history : RASHistory PC n) :
    ReturnAddrStack PC n :=
  let ras := { ras with stats := { ras.stats with squashes := ras.stats.squashes + 1 } }
  let ras :=
    if history.pushed then
      { ras.setStack tid (ras.addrStacks tid).pop with
        stats := { ras.stats with pops := ras.stats.pops + 1 } }
    else ras
  if history.poped then
    { ras.setStack tid ((ras.addrStacks tid).restore history.tos history.ras_entry) with
      stats := { ras.stats with pushes := ras.stats.pushes + 1 } }
  else ras

def squash (ras : ReturnAddrStack PC n) (tid : ThreadID) (ras_history : Option (RASHistory PC n)) :
    ReturnAddrStack PC n × Option (RASHistory PC n) :=
  match ras_history with
  | none => (ras, none)
  | some history =>
      let ras := ras.undo tid history
      ({ ras with heap := ras.heap.delete history.addr }, none)

def commit (ras : ReturnAddrStack PC n) (misp : Bool) (brType : BranchType)
    (ras_history : Option (RASHistory PC n)) :
    ReturnAddrStack PC n × Option (RASHistory PC n) :=
  if !brType.usesRas then
    ({ ras with asserted := ras.asserted && ras_history.isNone }, ras_history)
  else
    match ras_history with
    | none => (ras, none)
    | some history =>
        let stats :=
          if history.poped then
            if misp then
              { ras.stats with used := ras.stats.used + 1, incorrect := ras.stats.incorrect + 1 }
            else { ras.stats with used := ras.stats.used + 1, correct := ras.stats.correct + 1 }
          else ras.stats
        ({ ras with stats, heap := ras.heap.delete history.addr }, none)

def undoStack (history : RASHistory PC n) (s : AddrStack PC n) : AddrStack PC n :=
  let s := if history.pushed then s.pop else s
  if history.poped then s.restore history.tos history.ras_entry else s

variable (ras : ReturnAddrStack PC n) (tid : ThreadID)

theorem push_none [NeZero n] (pc : PC) :
    ∃ stats, ras.push tid pc none =
      ({ ras with
          addrStacks := Function.update ras.addrStacks tid ((ras.addrStacks tid).push pc)
          heap := ras.heap.new
          stats },
        some ⟨ras.heap.next, true, false, none, 0⟩) :=
  ⟨_, rfl⟩

theorem pop_none [NeZero n] :
    ∃ stats, ras.pop tid none =
      ((ras.addrStacks tid).top,
        { ras with
          addrStacks := Function.update ras.addrStacks tid (ras.addrStacks tid).pop
          heap := ras.heap.new
          stats },
        some ⟨ras.heap.next, false, true, (ras.addrStacks tid).top, (ras.addrStacks tid).tos⟩) :=
  ⟨_, rfl⟩

theorem undo_eq (history : RASHistory PC n) :
    ∃ stats, ras.undo tid history =
      { ras with
        addrStacks := Function.update ras.addrStacks tid (undoStack history (ras.addrStacks tid))
        stats } := by
  unfold undo undoStack
  cases history.pushed <;> cases history.poped <;> simp [setStack]

theorem squash_some (history : RASHistory PC n) :
    ∃ stats, ras.squash tid (some history) =
      ({ ras with
          addrStacks := Function.update ras.addrStacks tid (undoStack history (ras.addrStacks tid))
          heap := ras.heap.delete history.addr
          stats },
        none) := by
  obtain ⟨stats, h⟩ := ras.undo_eq tid history
  exact ⟨stats, by simp [squash, h]⟩

theorem commit_none (misp : Bool) (brType : BranchType) :
    ras.commit misp brType none = (ras, none) := by
  unfold commit
  split <;> simp

theorem commit_some (misp : Bool) (brType : BranchType) (history : RASHistory PC n)
    (huse : brType.usesRas = true) :
    ∃ stats, ras.commit misp brType (some history) =
      ({ ras with heap := ras.heap.delete history.addr, stats }, none) := by
  simp [commit, huse]

end ReturnAddrStack

end Gem5Core.Pred.Ras
