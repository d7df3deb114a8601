import Gem5Core.Pred.BPredUnit
import Gem5Core.Pred.RasRing
import Mathlib.Data.List.Sections

/-! The architectural call stack of the branches that survive, and how a return address stack tracks
it through the records of the queue: each record says what the branch has written, so the newest
ones can be undone and the oldest forgotten. -/
namespace Gem5Core.Pred.CallStack
open Branch BPredUnit Ras RasRing Lib.RingStack List

variable {PC η : Type} {n : Nat}

section

def returnAddr (hist : PredictorHistory PC η n) : Addr :=
  hist.pc + BitVec.ofNat 64 hist.inst.size

def follow (hist : PredictorHistory PC η n) (taken : Bool) (stack : List Addr) : List Addr :=
  if taken then
    let stack := if hist.inst.isReturn then stack.tail else stack
    if hist.inst.isCall then returnAddr hist :: stack else stack
  else stack

/-- The call stack after a path of branches, youngest first, each with the
direction it takes there. -/
def callStack (path : List (PredictorHistory PC η n × Bool)) : List Addr :=
  path.foldr (fun branch stack => follow branch.1 branch.2 stack) []

variable (outcome : InstSeqNum → Bool)

def architectural (survivors : List (PredictorHistory PC η n)) : List Addr :=
  callStack (survivors.map fun hist => (hist, outcome hist.seqNum))

def paths (survivors : List (PredictorHistory PC η n)) :
    List (List (PredictorHistory PC η n × Bool)) :=
  (survivors.map fun hist => [(hist, hist.actuallyTaken), (hist, outcome hist.seqNum)]).sections

def bounded (survivors : List (PredictorHistory PC η n)) : Bool :=
  (paths outcome survivors).all fun path => decide ((callStack path).length ≤ n)

private theorem bounded_path {queue committed : List (PredictorHistory PC η n)}
    (hbounded : bounded outcome (queue ++ committed) = true)
    (way : PredictorHistory PC η n → Bool)
    (hway : ∀ hist ∈ queue, way hist = hist.actuallyTaken ∨ way hist = outcome hist.seqNum) :
    (callStack (queue.map (fun hist => (hist, way hist)) ++
      committed.map fun hist => (hist, outcome hist.seqNum))).length ≤ n := by
  simp only [bounded, all_eq_true, decide_eq_true_eq] at hbounded
  apply hbounded
  rw [paths, mem_sections, map_append]
  apply rel_append
  · rw [forall₂_map_left_iff, forall₂_map_right_iff, forall₂_same]
    intro hist hmem
    rcases hway hist hmem with h | h <;> simp [h]
  · rw [forall₂_map_left_iff, forall₂_map_right_iff, forall₂_same]
    intro hist hmem
    simp

end

section
variable [PCState PC] (tid : ThreadID) (outcome : InstSeqNum → Bool)

def uses (hist : PredictorHistory PC η n) : Bool := hist.inst.isCall || hist.inst.isReturn

def entryOf (hist : PredictorHistory PC η n) : Option (Entry (Fin n) (Option Addr)) :=
  hist.rasHistory.map fun history =>
    if history.pushed then .pushed (some (returnAddr hist))
    else .popped history.tos (history.ras_entry.map PCState.instAddr)

/-- A queued record has written the stack the way its instruction does, in the recorded or the
actual direction. -/
structure Recorded (hist : PredictorHistory PC η n) : Prop where
  target : hist.target.isSome = true
  single : (hist.inst.isCall && hist.inst.isReturn) = false
  size : hist.inst.isCall = true → hist.inst.size ≠ 0
  made : ∀ history, hist.rasHistory = some history →
    (hist.inst.isCall = true ∧ history.pushed = true ∧ history.poped = false) ∨
      (hist.inst.isReturn = true ∧ history.pushed = false ∧ history.poped = true)
  way : uses hist = true → hist.rasHistory.isSome = hist.actuallyTaken ∨
    hist.rasHistory.isSome = outcome hist.seqNum

def seen (hist : PredictorHistory PC η n) : Bool :=
  if uses hist then hist.rasHistory.isSome else outcome hist.seqNum

def seenStack (committed queue : List (PredictorHistory PC η n)) : List Addr :=
  queue.foldr (fun hist stack => follow hist (seen outcome hist) stack)
    (architectural outcome committed)

structure Tracked (committed queue : List (PredictorHistory PC η n)) (s : AddrStack PC n)
    [NeZero n] : Prop where
  records : ∀ hist ∈ queue, Recorded outcome hist
  levels : ∃ base : Frames (Option Addr), base.live = (architectural outcome committed).map some ∧
    StackLevels (instAddrs s) base (queue.filterMap entryOf)

variable {outcome}

omit [PCState PC] in
theorem follow_unused (hist : PredictorHistory PC η n) (taken : Bool) (stack : List Addr)
    (h : uses hist = false) : follow hist taken stack = stack := by
  simp only [uses, Bool.or_eq_false_iff] at h
  simp [follow, h]

theorem entryOf_none (hist : PredictorHistory PC η n) (h : hist.rasHistory = none) :
    entryOf hist = none := by simp [entryOf, h]

theorem replay_record (hist : PredictorHistory PC η n) (hok : Recorded outcome hist)
    (base : Frames (Option Addr)) (log : List (Entry (Fin n) (Option Addr))) (stack : List Addr)
    (hlive : (replay base log).live = stack.map some) :
    (replay base ((entryOf hist).toList ++ log)).live =
      (follow hist (seen outcome hist) stack).map some := by
  have hsingle := hok.single
  cases hras : hist.rasHistory with
  | none =>
    rw [entryOf_none hist hras]
    cases huses : uses hist with
    | false => rwa [follow_unused hist _ _ huses]
    | true => simpa [seen, huses, hras, follow] using hlive
  | some history =>
    rcases hok.made history hras with ⟨hcall, hpushed, hpoped⟩ | ⟨hreturn, hpushed, hpoped⟩
    · have hreturn : hist.inst.isReturn = false := by simpa [hcall] using hsingle
      simp [entryOf, hras, hpushed, seen, uses, hcall, hreturn, follow, replay, hlive]
    · have hcall : hist.inst.isCall = false := by simpa [hreturn] using hsingle
      simp [entryOf, hras, hpushed, seen, uses, hcall, hreturn, follow, replay, hlive]

theorem filterMap_entryOf_cons (hist : PredictorHistory PC η n)
    (queue : List (PredictorHistory PC η n)) :
    (hist :: queue).filterMap entryOf = (entryOf hist).toList ++ queue.filterMap entryOf := by
  cases h : entryOf hist <;> simp [h]

theorem replay_queue (committed queue : List (PredictorHistory PC η n))
    (hok : ∀ hist ∈ queue, Recorded outcome hist) (base : Frames (Option Addr))
    (hbase : base.live = (architectural outcome committed).map some) :
    (replay base (queue.filterMap entryOf)).live =
      (seenStack outcome committed queue).map some := by
  induction queue with
  | nil => exact hbase
  | cons hist queue ih =>
    rw [filterMap_entryOf_cons]
    obtain ⟨hhist, hqueue⟩ := forall_mem_cons.mp hok
    exact replay_record hist hhist base _ _ (ih hqueue)

omit [PCState PC] in
private theorem seenStack_le (committed queue : List (PredictorHistory PC η n))
    (hok : ∀ hist ∈ queue, Recorded outcome hist)
    (hbounded : bounded outcome (queue ++ committed) = true) :
    (seenStack outcome committed queue).length ≤ n := by
  have hpath := bounded_path outcome hbounded (seen outcome) (by
    intro hist hmem
    cases huses : uses hist with
    | false => simp [seen, huses]
    | true => simpa [seen, huses] using (hok hist hmem).way huses)
  rwa [callStack, foldr_append, foldr_map] at hpath

omit [PCState PC] in
theorem seenStack_carried (committed queue : List (PredictorHistory PC η n))
    (hok : ∀ hist ∈ queue, Recorded outcome hist)
    (hcarried : ∀ hist ∈ queue, hist.actuallyTaken = outcome hist.seqNum) :
    seenStack outcome committed queue = architectural outcome (queue ++ committed) := by
  rw [architectural, map_append, callStack, foldr_append, foldr_map]
  apply foldr_ext
  intro hist hmem stack
  cases huses : uses hist with
  | false => simp [follow_unused hist _ _ huses]
  | true =>
    rcases (hok hist hmem).way huses with h | h
    · simp [seen, huses, h, hcarried hist hmem]
    · simp [seen, huses, h]

theorem Tracked.live_eq [NeZero n] {committed queue : List (PredictorHistory PC η n)}
    {s : AddrStack PC n} (h : Tracked outcome committed queue s)
    (hcarried : ∀ hist ∈ queue, hist.actuallyTaken = outcome hist.seqNum) :
    live (instAddrs s) (architectural outcome (queue ++ committed)).length =
      (architectural outcome (queue ++ committed)).map some := by
  obtain ⟨base, hbase, hlevels⟩ := h.levels
  have hlive := live_of_tracks hlevels.tracks
  rwa [replay_queue committed queue h.records base hbase,
    seenStack_carried committed queue h.records hcarried, length_map] at hlive

end

section
variable [NeZero n] [PCState PC] {outcome : InstSeqNum → Bool}
variable {committed queue : List (PredictorHistory PC η n)} {s : AddrStack PC n}
variable {hist : PredictorHistory PC η n}

theorem init_tracked : Tracked outcome [] [] (AddrStack.init : AddrStack PC n) (η := η) where
  records := by simp
  levels := ⟨⟨0, []⟩, rfl, levels_nil init_tracks⟩

section

variable (h : Tracked outcome committed queue s)
include h

theorem Tracked.push (hok : Recorded outcome hist) (history : RASHistory PC n)
    (hras : hist.rasHistory = some history) (hpushed : history.pushed = true) (pc : PC)
    (hpc : PCState.instAddr pc = returnAddr hist)
    (hbounded : bounded outcome (hist :: queue ++ committed) = true) :
    Tracked outcome committed (hist :: queue) (s.push pc) := by
  obtain ⟨base, hbase, hlevels⟩ := h.levels
  have hrecords := forall_mem_cons.mpr ⟨hok, h.records⟩
  refine ⟨hrecords, base, hbase, ?_⟩
  have hentry : entryOf hist = some (.pushed (some (returnAddr hist))) := by
    simp [entryOf, hras, hpushed]
  have hdepth := seenStack_le committed (hist :: queue) hrecords hbounded
  have hlive := congrArg List.length
    (replay_queue committed (hist :: queue) hrecords base hbase)
  simp only [filterMap_cons, hentry, replay, length_cons, length_map] at hlive
  simp only [filterMap_cons, hentry, instAddrs_push, hpc]
  exact levels_push hlevels _ (by omega)

theorem Tracked.pop (hok : Recorded outcome hist) (history : RASHistory PC n)
    (hras : hist.rasHistory = some history) (hpushed : history.pushed = false)
    (htos : history.tos = s.tos) (hentry : history.ras_entry = s.top) :
    Tracked outcome committed (hist :: queue) s.pop := by
  obtain ⟨base, hbase, hlevels⟩ := h.levels
  refine ⟨forall_mem_cons.mpr ⟨hok, h.records⟩, base, hbase, ?_⟩
  have hentryOf : entryOf hist = some (.popped (instAddrs s).tos (instAddrs s).top) := by
    simp [entryOf, hras, hpushed, htos, hentry, instAddrs, AddrStack.top]
  simp only [filterMap_cons, hentryOf, instAddrs_pop]
  exact levels_pop hlevels

theorem Tracked.skip (hok : Recorded outcome hist) (hras : hist.rasHistory = none) :
    Tracked outcome committed (hist :: queue) s := by
  obtain ⟨base, hbase, hlevels⟩ := h.levels
  refine ⟨forall_mem_cons.mpr ⟨hok, h.records⟩, base, hbase, ?_⟩
  rwa [filterMap_cons, entryOf_none hist hras]

end

theorem Tracked.undo (h : Tracked outcome committed (hist :: queue) s) :
    Tracked outcome committed queue
      (hist.rasHistory.elim s fun history => ReturnAddrStack.undoStack history s) := by
  obtain ⟨base, hbase, hlevels⟩ := h.levels
  obtain ⟨hok, hrest⟩ := forall_mem_cons.mp h.records
  refine ⟨hrest, base, hbase, ?_⟩
  cases hras : hist.rasHistory with
  | none =>
    rw [filterMap_cons, entryOf_none hist hras] at hlevels
    exact hlevels
  | some history =>
    rcases hok.made history hras with ⟨hcall, hpushed, hpoped⟩ | ⟨hreturn, hpushed, hpoped⟩
    · have hundo : ReturnAddrStack.undoStack history s = s.pop := by
        simp [ReturnAddrStack.undoStack, hpushed, hpoped]
      simp only [filterMap_cons, entryOf, hras, Option.map_some, hpushed, if_true] at hlevels
      simp only [Option.elim_some, hundo, instAddrs_pop]
      exact levels_undoPush hlevels
    · have hundo : ReturnAddrStack.undoStack history s =
          s.restore history.tos history.ras_entry := by
        simp [ReturnAddrStack.undoStack, hpushed, hpoped]
      simp only [filterMap_cons, entryOf, hras, Option.map_some, hpushed,
        Bool.false_eq_true, if_false] at hlevels
      simp only [Option.elim_some, hundo, instAddrs_restore]
      exact levels_undoPop hlevels

theorem Tracked.replace (h : Tracked outcome committed (hist :: queue) s)
    {hist' : PredictorHistory PC η n} (hok : Recorded outcome hist')
    (hentry : entryOf hist' = entryOf hist) : Tracked outcome committed (hist' :: queue) s := by
  obtain ⟨base, hbase, hlevels⟩ := h.levels
  refine ⟨forall_mem_cons.mpr ⟨hok, (forall_mem_cons.mp h.records).2⟩, base, hbase, ?_⟩
  rwa [filterMap_entryOf_cons, hentry, ← filterMap_entryOf_cons]

theorem Tracked.settle (h : Tracked outcome committed (queue ++ [hist]) s)
    (hcarried : hist.actuallyTaken = outcome hist.seqNum) :
    Tracked outcome (hist :: committed) queue s := by
  obtain ⟨base, hbase, hlevels⟩ := h.levels
  have hok := h.records hist (by simp)
  have hlive := replay_queue committed [hist] (forall_mem_singleton.mpr hok) base hbase
  rw [seenStack_carried committed [hist] (forall_mem_singleton.mpr hok)
    (forall_mem_singleton.mpr hcarried)] at hlive
  refine ⟨fun hist' hmem => h.records hist' (mem_append_left _ hmem), _, hlive, ?_⟩
  rw [filterMap_append] at hlevels
  cases hentry : entryOf hist with
  | none =>
    simp only [filterMap_cons, filterMap_nil, hentry, append_nil] at hlevels ⊢
    exact hlevels
  | some e =>
    simp only [filterMap_cons, filterMap_nil, hentry] at hlevels ⊢
    exact hlevels.settle

end

end Gem5Core.Pred.CallStack
