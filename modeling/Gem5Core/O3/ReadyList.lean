import Mathlib.Algebra.GroupWithZero.Nat
import Mathlib.Data.List.Sort
import Gem5Core.Lib.IterList
import Gem5Core.Pred.Branch

/-! The ready instructions of the instruction queue (`cpu/o3/inst_queue.cc`). Each operation
class has a queue, and a list orders the classes by the age of their oldest instruction. -/
namespace Gem5Core.O3.ReadyList
open Pred.Branch Lib Lib.IterList Function Option

structure DynInst (C : Type) where
  seqNum : InstSeqNum
  opClass : C
  isMemRef : Bool := false
  readyToIssue : Bool := true

structure ListOrderEntry (C : Type) where
  queueType : C
  oldestInst : InstSeqNum

inductive Fu
  | unit (op_latency : Nat)
  | noFreeFU
  | noCapableFU

/-- An instruction that issues; one with a latency of 1 goes to `instsToExecute`, the others
complete later. -/
structure Issue (C : Type) where
  inst : DynInst C
  op_latency : Nat
  noCapableFU : Bool

/-- A priority queue is a list with the oldest instruction first. Whether an instruction is
squashed may change while it is in a queue. -/
structure InstructionQueue (C : Type) where
  totalWidth : Nat
  No_OpClass : C
  readyInsts : C → List (DynInst C) := fun _ => []
  listOrder : IterList (ListOrderEntry C) := {}
  queueOnList : C → Bool := fun _ => false
  readyIt : C → Iter := fun _ => none
  isSquashed : InstSeqNum → Bool := fun _ => false

variable {C : Type} [DecidableEq C]

def push (inst : DynInst C) (l : List (DynInst C)) : List (DynInst C) :=
  l.orderedInsert (·.seqNum ≤ ·.seqNum) inst

namespace InstructionQueue

def setReady (q : InstructionQueue C) (op_class : C) (l : List (DynInst C)) : InstructionQueue C :=
  { q with readyInsts := update q.readyInsts op_class l }

def addToOrderList (q : InstructionQueue C) (op_class : C) : Option (InstructionQueue C) :=
  match q.readyInsts op_class with
  | [] => none
  | top :: _ =>
      let list_it := q.listOrder.seek q.listOrder.begin fun e => top.seqNum < e.oldestInst
      let new := q.listOrder.insert list_it ⟨op_class, top.seqNum⟩
      some { q with
        listOrder := new.1
        readyIt := update q.readyIt op_class new.2
        queueOnList := update q.queueOnList op_class true }

/-- `none` where an iterator is used that is not valid. -/
def moveToYoungerInst (q : InstructionQueue C) (list_order_it : Iter) :
    Option (InstructionQueue C) := do
  let e ← q.listOrder.get? list_order_it
  let next_it ← q.listOrder.next list_order_it
  match q.readyInsts e.queueType with
  | [] => none
  | top :: _ =>
      let next_it := q.listOrder.seek next_it fun e => !(e.oldestInst < top.seqNum)
      let new := q.listOrder.insert next_it ⟨e.queueType, top.seqNum⟩
      some { q with
        listOrder := new.1
        readyIt := update q.readyIt e.queueType new.2 }

def addReady (q : InstructionQueue C) (inst : DynInst C) : Option (InstructionQueue C) :=
  let op_class := inst.opClass
  let q := q.setReady op_class (push inst (q.readyInsts op_class))
  if q.queueOnList op_class then do
    let e ← q.listOrder.get? (q.readyIt op_class)
    let top ← (q.readyInsts op_class).head?
    if top.seqNum < e.oldestInst then
      let listOrder ← q.listOrder.erase (q.readyIt op_class)
      addToOrderList { q with listOrder } op_class
    else some q
  else addToOrderList q op_class

def addIfReady (q : InstructionQueue C) (inst : DynInst C) : Option (InstructionQueue C) :=
  if inst.readyToIssue then
    if inst.isMemRef then some q else q.addReady inst
  else some q

def addReadyMemInst (q : InstructionQueue C) (ready_inst : DynInst C) :
    Option (InstructionQueue C) :=
  q.addReady ready_inst

/-- The oldest instruction of a class issues or is found to be squashed: `pop`, the new place of the
class in the list, and `listOrder.erase(order_it++)`. -/
def popReady (q : InstructionQueue C) (order_it : Iter) (op_class : C) :
    Option (InstructionQueue C × Iter) := do
  let q := q.setReady op_class (q.readyInsts op_class).tail
  let q ←
    if (q.readyInsts op_class).isEmpty then
      some { q with
        readyIt := update q.readyIt op_class none
        queueOnList := update q.queueOnList op_class false }
    else q.moveToYoungerInst order_it
  let next ← q.listOrder.next order_it
  let listOrder ← q.listOrder.erase order_it
  some ({ q with listOrder }, next)

/-- The loop of `scheduleReadyInsts`. `fus` gives the answers of `getUnit`, and `calls` counts
them. -/
def schedule (fus : Nat → Fu) : (fuel : Nat) → InstructionQueue C → (order_it : Iter) →
    (issued : List (Issue C)) → (calls : Nat) → Option (InstructionQueue C × List (Issue C))
  | 0, _, _, _, _ => none
  | fuel + 1, q, order_it, issued, calls =>
      if issued.length < q.totalWidth ∧ order_it ≠ none then do
        let e ← q.listOrder.get? order_it
        let inst ← (q.readyInsts e.queueType).head?
        if inst.seqNum ≠ e.oldestInst then none
        else if q.isSquashed inst.seqNum then
          let (q, next) ← q.popReady order_it e.queueType
          schedule fus fuel q next issued calls
        else
          let issue (op_latency : Nat) (noCapableFU : Bool) (calls : Nat) := do
            let (q, next) ← q.popReady order_it e.queueType
            schedule fus fuel q next (issued ++ [⟨inst, op_latency, noCapableFU⟩]) calls
          if e.queueType = q.No_OpClass then issue 1 false calls
          else
            match fus calls with
            | .unit op_latency => issue op_latency false (calls + 1)
            | .noCapableFU => issue 1 true (calls + 1)
            | .noFreeFU => do
                let next ← q.listOrder.next order_it
                schedule fus fuel q next issued (calls + 1)
      else some (q, issued)

def waiting (readyInsts : C → List (DynInst C)) (nodes : List (Nat × ListOrderEntry C)) : Nat :=
  (nodes.map fun n => (readyInsts n.2.queueType).length).sum

/-- `memInsts` are the memory instructions that can execute now. `none` where an assertion fails, an
iterator is not valid or the loop does not end. -/
def scheduleReadyInsts (q : InstructionQueue C) (memInsts : List (DynInst C)) (fus : Nat → Fu) :
    Option (InstructionQueue C × List (Issue C)) := do
  let q ← memInsts.foldlM addReadyMemInst q
  -- every round takes an instruction from a queue or leaves a class behind
  schedule fus (waiting q.readyInsts q.listOrder.nodes + 1) q q.listOrder.begin [] 0

end InstructionQueue

open List

section

def classes (nodes : List (Nat × ListOrderEntry C)) : List C := nodes.map (·.2.queueType)

structure IsQueue (c : C) (l : List (DynInst C)) : Prop where
  sorted : l.Pairwise (·.seqNum ≤ ·.seqNum)
  opClass : ∀ inst ∈ l, inst.opClass = c

/-- The list holds each class that has ready instructions once, under the age of its oldest one.
While a class changes its place, `off` is that class and is not on the list. -/
structure OrderedBy (off : Option C) (nodes : List (Nat × ListOrderEntry C))
    (readyInsts : C → List (DynInst C)) (queueOnList : C → Bool) (readyIt : C → Iter) : Prop where
  sorted : nodes.Pairwise (·.2.oldestInst ≤ ·.2.oldestInst)
  once : (classes nodes).Nodup
  oldest : ∀ n ∈ nodes, (readyInsts n.2.queueType).head?.map (·.seqNum) = some n.2.oldestInst
  iter : ∀ n ∈ nodes, readyIt n.2.queueType = some n.1
  on_iff : ∀ c, off ≠ some c → (queueOnList c = true ↔ c ∈ classes nodes)
  mem_iff : ∀ c, off ≠ some c → (c ∈ classes nodes ↔ readyInsts c ≠ [])
  absent : ∀ c, off = some c → c ∉ classes nodes
  queues : ∀ c, IsQueue c (readyInsts c)

variable {nodes pre post : List (Nat × ListOrderEntry C)} {n : Nat × ListOrderEntry C} {c : C}
  {ready : C → List (DynInst C)} {l : List (DynInst C)} {listed : C → Bool} {it : C → Iter}

namespace OrderedBy

omit [DecidableEq C] in
theorem mem_classes (hn : n ∈ nodes) : n.2.queueType ∈ classes nodes :=
  mem_map_of_mem hn

theorem forall_queues (h : ∀ c, IsQueue c (ready c)) (hc : IsQueue c l) (c' : C) :
    IsQueue c' (update ready c l c') := by
  by_cases heq : c' = c
  · subst heq
    rwa [update_self]
  · rw [update_of_ne heq]
    exact h c'

theorem leave (h : OrderedBy none (pre ++ n :: post) ready listed it)
    (hqueue : IsQueue n.2.queueType l) :
    OrderedBy (some n.2.queueType) (pre ++ post) (update ready n.2.queueType l) listed it := by
  have hsub : (pre ++ post).Sublist (pre ++ n :: post) :=
    (List.Sublist.refl pre).append (sublist_cons_self n post)
  have hperm : (classes (pre ++ n :: post)).Perm (n.2.queueType :: classes (pre ++ post)) :=
    perm_middle.map (fun n : Nat × ListOrderEntry C => n.2.queueType)
  have habsent : n.2.queueType ∉ classes (pre ++ post) :=
    (nodup_cons.mp (hperm.nodup_iff.mp h.once)).1
  have hne : ∀ m ∈ pre ++ post, m.2.queueType ≠ n.2.queueType :=
    fun m hm heq => habsent (heq ▸ mem_classes hm)
  have hmem : ∀ c, c ≠ n.2.queueType → (c ∈ classes (pre ++ post) ↔ c ∈ classes (pre ++ n :: post)) := by
    intro c hc
    rw [hperm.mem_iff]
    simp [hc]
  constructor
  case sorted => exact h.sorted.sublist hsub
  case once => exact (nodup_cons.mp (hperm.nodup_iff.mp h.once)).2
  case oldest =>
    intro m hm
    rw [update_of_ne (hne m hm)]
    exact h.oldest m (hsub.subset hm)
  case iter => exact fun m hm => h.iter m (hsub.subset hm)
  case on_iff =>
    intro c hc
    rw [hmem c fun heq => hc (heq ▸ rfl)]
    exact h.on_iff c (by simp)
  case mem_iff =>
    intro c hc
    have hc' : c ≠ n.2.queueType := fun heq => hc (heq ▸ rfl)
    rw [hmem c hc', update_of_ne hc']
    exact h.mem_iff c (by simp)
  case absent =>
    intro c hc
    cases hc
    exact habsent
  case queues => exact forall_queues h.queues hqueue

theorem enter {i : Nat} {top : DynInst C} (h : OrderedBy (some c) (pre ++ post) ready listed it)
    (htop : (ready c).head? = some top)
    (hsorted : (pre ++ (i, ⟨c, top.seqNum⟩) :: post).Pairwise (·.2.oldestInst ≤ ·.2.oldestInst)) :
    OrderedBy none (pre ++ (i, ⟨c, top.seqNum⟩) :: post) ready (update listed c true)
      (update it c (some i)) := by
  have hperm : (pre ++ (i, ⟨c, top.seqNum⟩) :: post).Perm ((i, ⟨c, top.seqNum⟩) :: (pre ++ post)) :=
    perm_middle
  have hclasses : (classes (pre ++ (i, ⟨c, top.seqNum⟩) :: post)).Perm (c :: classes (pre ++ post)) :=
    hperm.map (fun n : Nat × ListOrderEntry C => n.2.queueType)
  have hne : ∀ m ∈ pre ++ post, m.2.queueType ≠ c :=
    fun m hm heq => h.absent c rfl (heq ▸ mem_classes hm)
  constructor
  case sorted => exact hsorted
  case once => exact hclasses.nodup_iff.mpr (nodup_cons.mpr ⟨h.absent c rfl, h.once⟩)
  case oldest =>
    intro m hm
    rcases mem_cons.mp (hperm.mem_iff.mp hm) with rfl | hm
    · simp [htop]
    · exact h.oldest m hm
  case iter =>
    intro m hm
    rcases mem_cons.mp (hperm.mem_iff.mp hm) with rfl | hm
    · exact update_self ..
    · rw [update_of_ne (hne m hm)]
      exact h.iter m hm
  case on_iff =>
    intro c' _
    rw [hclasses.mem_iff]
    by_cases hc : c' = c
    · simp [hc]
    · rw [update_of_ne hc, h.on_iff c' fun heq => hc (some.inj heq).symm]
      simp [hc]
  case mem_iff =>
    intro c' _
    rw [hclasses.mem_iff, mem_cons]
    by_cases hc : c' = c
    · have hready : ready c ≠ [] := by
        intro hnil
        rw [hnil] at htop
        cases htop
      simp [hc, hready]
    · rw [h.mem_iff c' fun heq => hc (some.inj heq).symm]
      simp [hc]
  case absent =>
    intro c' hc'
    cases hc'
  case queues => exact h.queues

private theorem stay (h : OrderedBy (some c) nodes ready listed it) (hnil : ready c = []) :
    OrderedBy none nodes ready (update listed c false) (update it c none) := by
  have hne : ∀ m ∈ nodes, m.2.queueType ≠ c :=
    fun m hm heq => h.absent c rfl (heq ▸ mem_classes hm)
  refine { h with iter := ?_, on_iff := ?_, mem_iff := ?_, absent := ?_ }
  · intro m hm
    rw [update_of_ne (hne m hm)]
    exact h.iter m hm
  · intro c' _
    by_cases hc : c' = c
    · simp [hc, h.absent c rfl]
    · rw [update_of_ne hc]
      exact h.on_iff c' fun heq => hc (some.inj heq).symm
  · intro c' _
    by_cases hc : c' = c
    · simp [hc, hnil, h.absent c rfl]
    · exact h.mem_iff c' fun heq => hc (some.inj heq).symm
  · intro c' hc'
    cases hc'

private theorem arrive (h : OrderedBy none nodes ready listed it) (hmem : c ∉ classes nodes)
    (hqueue : IsQueue c l) : OrderedBy (some c) nodes (update ready c l) listed it := by
  have hne : ∀ m ∈ nodes, m.2.queueType ≠ c := fun m hm heq => hmem (heq ▸ mem_classes hm)
  refine { h with
    oldest := ?_
    on_iff := fun c' _ => h.on_iff c' (by simp)
    mem_iff := ?_
    absent := ?_
    queues := forall_queues h.queues hqueue }
  · intro m hm
    rw [update_of_ne (hne m hm)]
    exact h.oldest m hm
  · intro c' hc'
    rw [update_of_ne fun heq : c' = c => hc' (heq ▸ rfl)]
    exact h.mem_iff c' (by simp)
  · intro c' hc'
    cases hc'
    exact hmem

private theorem grow (h : OrderedBy none nodes ready listed it) (hmem : c ∈ classes nodes)
    (hsame : l.head?.map (·.seqNum) = (ready c).head?.map (·.seqNum)) (hqueue : IsQueue c l) :
    OrderedBy none nodes (update ready c l) listed it := by
  have hnil : l ≠ [] := by
    have hne := (h.mem_iff c (by simp)).mp hmem
    intro hnil
    rw [hnil] at hsame
    cases hready : ready c with
    | nil => exact hne hready
    | cons inst rest =>
      rw [hready] at hsame
      cases hsame
  refine { h with
    oldest := ?_
    mem_iff := ?_
    queues := forall_queues h.queues hqueue }
  · intro m hm
    rw [← h.oldest m hm]
    by_cases hc : m.2.queueType = c
    · rw [hc, update_self, hsame]
    · rw [update_of_ne hc]
  · intro c' hc'
    by_cases hc : c' = c
    · simp [hc, hmem, hnil]
    · rw [update_of_ne hc]
      exact h.mem_iff c' hc'

end OrderedBy

end

section

variable {q : InstructionQueue C} {c : C} {inst : DynInst C}

def InstructionQueue.OrderedOff (off : Option C) (q : InstructionQueue C) : Prop :=
  OrderedBy off q.listOrder.nodes q.readyInsts q.queueOnList q.readyIt

def InstructionQueue.Ordered (q : InstructionQueue C) : Prop := q.OrderedOff none

/-- What only a squash changes. -/
def InstructionQueue.frame (q : InstructionQueue C) := (q.totalWidth, q.No_OpClass, q.isSquashed)

omit [DecidableEq C] in
theorem totalWidth_of_frame {q q' : InstructionQueue C} (h : q'.frame = q.frame) :
    q'.totalWidth = q.totalWidth := congrArg Prod.fst h

omit [DecidableEq C] in
theorem isSquashed_of_frame {q q' : InstructionQueue C} (h : q'.frame = q.frame) :
    q'.isSquashed = q.isSquashed := congrArg (·.2.2) h

omit [DecidableEq C] in
theorem IsQueue.push {l : List (DynInst C)} (h : IsQueue inst.opClass l) :
    IsQueue inst.opClass (push inst l) := by
  constructor
  · rw [ReadyList.push, orderedInsert_eq_take_drop]
    refine pairwise_insert (fun x y z => le_trans) h.sorted (fun x _ hx => ?_) fun x _ hx => ?_
    · exact (not_le.mp (of_decide_eq_true hx)).le
    · simpa using hx
  · intro x hx
    rcases (mem_orderedInsert _).mp hx with rfl | hx
    · rfl
    · exact h.opClass x hx

omit [DecidableEq C] in
private theorem head?_push (inst : DynInst C) (l : List (DynInst C)) :
    ∃ top, (push inst l).head? = some top ∧ ∀ old, l.head? = some old → top.seqNum ≤ old.seqNum := by
  cases l with
  | nil => exact ⟨inst, rfl, fun old hold => by cases hold⟩
  | cons old l =>
    by_cases hle : inst.seqNum ≤ old.seqNum
    · refine ⟨inst, by simp [push, hle], fun old' hold' => ?_⟩
      cases hold'
      exact hle
    · refine ⟨old, by simp [push, hle], fun old' hold' => ?_⟩
      cases hold'
      exact le_refl _

namespace InstructionQueue

theorem addToOrderList_spec (h : q.OrderedOff (some c)) (hne : q.readyInsts c ≠ []) :
    ∃ q', q.addToOrderList c = some q' ∧ q'.Ordered ∧ q'.readyInsts = q.readyInsts ∧ q'.frame = q.frame := by
  obtain ⟨top, rest, hready⟩ := exists_cons_of_ne_nil hne
  rw [addToOrderList, hready]
  refine ⟨_, rfl, ?_, rfl, rfl⟩
  have hat := (at_begin q.listOrder).seek fun e => top.seqNum < e.oldestInst
  obtain ⟨hnodes, hiter⟩ := hat.insert ⟨c, top.seqNum⟩
  rw [Ordered, OrderedOff, hnodes, hiter]
  refine OrderedBy.enter ?_ (by rw [hready]; rfl) ?_
  · rw [← hat.nodes]
    exact h
  · refine pairwise_insert (fun x y z => le_trans) h.sorted (fun n _ hn => ?_) fun n _ hn => ?_
    · simpa using hn
    · exact le_of_lt (by simpa using hn)

@[simp] theorem setReady_self (q : InstructionQueue C) (c : C) (l : List (DynInst C)) :
    (q.setReady c l).readyInsts c = l := update_self ..

theorem setReady_of_ne (q : InstructionQueue C) {c c' : C} (l : List (DynInst C)) (hc : c' ≠ c) :
    (q.setReady c l).readyInsts c' = q.readyInsts c' := update_of_ne hc _ _

omit [DecidableEq C] in
theorem Ordered.exists_at (h : q.Ordered) (hmem : c ∈ classes q.listOrder.nodes) :
    ∃ n pre post, n.2.queueType = c ∧ At q.listOrder (q.readyIt c) pre (n :: post) := by
  obtain ⟨n, hn, rfl⟩ := mem_map.mp hmem
  obtain ⟨pre, post, hat⟩ := IterList.exists_at hn
  rw [← h.iter n hn] at hat
  exact ⟨n, pre, post, rfl, hat⟩

theorem addReady_spec (h : q.Ordered) (inst : DynInst C) :
    ∃ q', q.addReady inst = some q' ∧ q'.Ordered ∧ q'.frame = q.frame := by
  have hqueue := (h.queues inst.opClass).push
  obtain ⟨top, htop, hle⟩ := head?_push inst (q.readyInsts inst.opClass)
  rw [addReady]
  set l := push inst (q.readyInsts inst.opClass)
  have hne : l ≠ [] := by
    intro hnil
    rw [hnil] at htop
    cases htop
  split
  next hon =>
    have hmem := (h.on_iff inst.opClass (by simp)).mp hon
    obtain ⟨n, pre, post, hn, hat⟩ := h.exists_at hmem
    have hget : (q.setReady inst.opClass l).listOrder.get? ((q.setReady inst.opClass l).readyIt
        inst.opClass) = some n.2 := hat.get?
    have hold := h.oldest n (by rw [hat.nodes]; simp)
    rw [hget, setReady_self, htop]
    simp only [bind_eq_bind, bind_some]
    split
    next hlt =>
      -- the instruction is older than the others of its class, which moves forward
      obtain ⟨listOrder, herase, hnodes⟩ := hat.erase
      have herase' : (q.setReady inst.opClass l).listOrder.erase ((q.setReady inst.opClass l).readyIt
        inst.opClass) = some listOrder := herase
      rw [herase']
      have hleave : OrderedOff (some inst.opClass) { q.setReady inst.opClass l with listOrder } := by
        rw [← hn] at hqueue ⊢
        rw [OrderedOff, hnodes]
        rw [Ordered, OrderedOff, hat.nodes] at h
        exact h.leave hqueue
      obtain ⟨q', hadd, hordered, -, hsame⟩ := addToOrderList_spec hleave (by
        rwa [setReady_self])
      exact ⟨q', hadd, hordered, hsame⟩
    next hlt =>
      refine ⟨_, rfl, OrderedBy.grow h hmem ?_ hqueue, rfl⟩
      rw [htop, ← hn, hold]
      rw [hn] at hold
      obtain ⟨old, hhead, hseq⟩ := map_eq_some_iff.mp hold
      have hle' := hle old hhead
      rw [hseq] at hle'
      exact congrArg some (le_antisymm hle' (not_lt.mp hlt))
  next hon =>
    have hnot : inst.opClass ∉ classes q.listOrder.nodes :=
      fun hmem => hon ((h.on_iff _ (by simp)).mpr hmem)
    have harrive : (q.setReady inst.opClass l).OrderedOff (some inst.opClass) :=
      OrderedBy.arrive h hnot hqueue
    obtain ⟨q', hadd, hordered, -, hsame⟩ := addToOrderList_spec harrive (by rwa [setReady_self])
    exact ⟨q', hadd, hordered, hsame⟩

end InstructionQueue

end

section

namespace InstructionQueue

variable {q : InstructionQueue C} {it : Iter} {pre post : List (Nat × ListOrderEntry C)}
  {n : Nat × ListOrderEntry C} {inst : DynInst C} {rest : List (DynInst C)}

omit [DecidableEq C] in
private theorem waiting_congr {ready ready' : C → List (DynInst C)}
    (h : ∀ m ∈ post, ready' m.2.queueType = ready m.2.queueType) :
    waiting ready' post = waiting ready post := by
  rw [waiting, waiting, map_congr_left fun m hm => by rw [h m hm]]

omit [DecidableEq C] in
theorem waiting_append (ready : C → List (DynInst C)) (l l' : List (Nat × ListOrderEntry C)) :
    waiting ready (l ++ l') = waiting ready l + waiting ready l' := by
  rw [waiting, map_append, sum_append, waiting, waiting]

omit [DecidableEq C] in
theorem waiting_cons (ready : C → List (DynInst C)) (n : Nat × ListOrderEntry C)
    (l : List (Nat × ListOrderEntry C)) :
    waiting ready (n :: l) = (ready n.2.queueType).length + waiting ready l := by
  rw [waiting, map_cons, sum_cons, waiting]

theorem moveToYoungerInst_spec {top : DynInst C} {younger : List (DynInst C)}
    (hat : At q.listOrder it pre (n :: post)) (hready : q.readyInsts n.2.queueType = top :: younger) :
    ∃ q' i, q.moveToYoungerInst it = some q' ∧
      q'.listOrder.nodes = pre ++ n :: (post.takeWhile (·.2.oldestInst < top.seqNum) ++
        (i, ⟨n.2.queueType, top.seqNum⟩) :: post.dropWhile (·.2.oldestInst < top.seqNum)) ∧
      q'.readyIt = update q.readyIt n.2.queueType (some i) ∧
      q'.readyInsts = q.readyInsts ∧ q'.queueOnList = q.queueOnList ∧ q'.frame = q.frame := by
  obtain ⟨next_it, hnext, hat'⟩ := hat.next
  have hseek := hat'.seek fun e => !(decide (e.oldestInst < top.seqNum))
  obtain ⟨hnodes, hiter⟩ := hseek.insert ⟨n.2.queueType, top.seqNum⟩
  rw [moveToYoungerInst, hat.get?]
  simp only [bind_eq_bind, bind_some, hnext, hready]
  refine ⟨_, q.listOrder.fresh, rfl, ?_, ?_, rfl, rfl, rfl⟩
  · rw [hnodes]
    simp
  · rw [hiter]

structure Popped (q : InstructionQueue C) (pre post : List (Nat × ListOrderEntry C))
    (n : Nat × ListOrderEntry C) (rest : List (DynInst C)) (q' : InstructionQueue C) (it' : Iter)
    (post' : List (Nat × ListOrderEntry C)) : Prop where
  ordered : q'.Ordered
  iter : At q'.listOrder it' pre post'
  readyInsts : q'.readyInsts = (q.setReady n.2.queueType rest).readyInsts
  same : q'.frame = q.frame
  waiting : waiting q'.readyInsts post' < waiting q.readyInsts (n :: post)

section

variable (h : q.Ordered) (hat : At q.listOrder it pre (n :: post))
include h hat

omit [DecidableEq C] in
theorem Ordered.ne_of_mem : ∀ m ∈ post, m.2.queueType ≠ n.2.queueType := by
  intro m hm heq
  have honce := h.once
  rw [hat.nodes, classes, map_append, map_cons] at honce
  have hnot := (nodup_cons.mp (nodup_append.mp honce).2.1).1
  exact hnot (heq ▸ mem_map_of_mem hm)

omit [DecidableEq C] in
theorem Ordered.sorted_move (entry : Nat × ListOrderEntry C)
    (hle : n.2.oldestInst ≤ entry.2.oldestInst) :
    (pre ++ (post.takeWhile (·.2.oldestInst < entry.2.oldestInst) ++
      entry :: post.dropWhile (·.2.oldestInst < entry.2.oldestInst))).Pairwise
        (·.2.oldestInst ≤ ·.2.oldestInst) := by
  have hsorted := h.sorted
  rw [hat.nodes, pairwise_append, pairwise_cons] at hsorted
  obtain ⟨hpre, ⟨-, hpost⟩, hcross⟩ := hsorted
  rw [pairwise_append]
  refine ⟨hpre, pairwise_insert (fun x y z => le_trans) hpost (fun m _ hm => ?_) (fun m _ hm => ?_), ?_⟩
  · exact (of_decide_eq_true hm).le
  · exact not_lt.mp (of_decide_eq_false hm)
  · intro m hm m' hm'
    rcases mem_append.mp hm' with hm' | hm'
    · exact hcross m hm m' (mem_cons_of_mem _ ((takeWhile_sublist _).subset hm'))
    · rcases mem_cons.mp hm' with rfl | hm'
      · exact (hcross m hm n mem_cons_self).trans hle
      · exact hcross m hm m' (mem_cons_of_mem _ ((dropWhile_sublist _).subset hm'))

theorem Ordered.leave (hready : q.readyInsts n.2.queueType = inst :: rest) :
    OrderedBy (some n.2.queueType) (pre ++ post) (q.setReady n.2.queueType rest).readyInsts
      q.queueOnList q.readyIt := by
  have hqueue := h.queues n.2.queueType
  rw [hready] at hqueue
  rw [Ordered, OrderedOff, hat.nodes] at h
  exact OrderedBy.leave h ⟨(pairwise_cons.mp hqueue.sorted).2,
    fun i hi => hqueue.opClass i (mem_cons_of_mem _ hi)⟩

theorem Ordered.waiting_setReady (l : List (DynInst C)) :
    waiting (q.setReady n.2.queueType l).readyInsts post = waiting q.readyInsts post :=
  waiting_congr fun m hm => q.setReady_of_ne l (h.ne_of_mem hat m hm)

private theorem popReady_last (hready : q.readyInsts n.2.queueType = [inst]) :
    ∃ q' it' post', q.popReady it n.2.queueType = some (q', it') ∧ Popped q pre post n [] q' it' post' := by
  obtain ⟨it', hnext, hat'⟩ := hat.next
  obtain ⟨listOrder, herase, hnodes⟩ := hat.erase
  have hnext' : (q.setReady n.2.queueType []).listOrder.next it = some it' := hnext
  have herase' : (q.setReady n.2.queueType []).listOrder.erase it = some listOrder := herase
  rw [popReady, hready, tail_cons]
  simp only [setReady_self, isEmpty_nil, if_true, bind_eq_bind, bind_some,
    hnext', herase']
  refine ⟨_, it', post, rfl, ?_, ⟨hnodes, hat'.iter⟩, rfl, rfl, ?_⟩
  · rw [Ordered, OrderedOff]
    rw [hnodes]
    exact (h.leave hat hready).stay (setReady_self ..)
  · rw [h.waiting_setReady hat, waiting_cons, hready, length_singleton]
    omega

theorem popReady_move {top : DynInst C} {younger : List (DynInst C)}
    (hready : q.readyInsts n.2.queueType = inst :: top :: younger) :
    ∃ q' it' post', q.popReady it n.2.queueType = some (q', it') ∧
      Popped q pre post n (top :: younger) q' it' post' := by
  obtain ⟨q₁, i, hmove, hnodes₁, hit₁, hready₁, hon₁, hsame₁⟩ :=
    moveToYoungerInst_spec (q := q.setReady n.2.queueType (top :: younger)) hat (setReady_self ..)
  have hat₁ : At q₁.listOrder it pre (n :: (post.takeWhile (·.2.oldestInst < top.seqNum) ++
      (i, ⟨n.2.queueType, top.seqNum⟩) :: post.dropWhile (·.2.oldestInst < top.seqNum))) :=
    ⟨hnodes₁, hat.iter⟩
  obtain ⟨it', hnext, hat'⟩ := hat₁.next
  obtain ⟨listOrder, herase, hnodes⟩ := hat₁.erase
  rw [popReady, hready, tail_cons]
  simp only [setReady_self, isEmpty_cons, Bool.false_eq_true, if_false, bind_eq_bind,
    hmove, bind_some, hnext, herase]
  refine ⟨_, it', _, rfl, ?_, ⟨hnodes, hat'.iter⟩, hready₁, hsame₁, ?_⟩
  · have hle : n.2.oldestInst ≤ top.seqNum := by
      have hold := h.oldest n (by rw [hat.nodes]; simp)
      have hqueue := (h.queues n.2.queueType).sorted
      rw [hready] at hold hqueue
      rw [← some.inj hold]
      exact (pairwise_cons.mp hqueue).1 top mem_cons_self
    have hsorted := h.sorted_move hat (i, ⟨n.2.queueType, top.seqNum⟩) hle
    have hleave := h.leave hat hready
    have hon : q₁.queueOnList n.2.queueType = true := by
      rw [hon₁]
      refine (h.on_iff _ (by simp)).mpr ?_
      rw [hat.nodes, classes, map_append]
      simp
    rw [Ordered, OrderedOff]
    rw [← append_assoc] at hsorted
    rw [hnodes, hready₁, hit₁, ← append_assoc, ← update_eq_self n.2.queueType q₁.queueOnList,
      hon, hon₁]
    refine OrderedBy.enter ?_ (by rw [setReady_self]; rfl) hsorted
    rw [append_assoc, takeWhile_append_dropWhile]
    exact hleave
  · have hpost := h.waiting_setReady hat (top :: younger)
    have hsplit : waiting (q.setReady n.2.queueType (top :: younger)).readyInsts post =
        waiting (q.setReady n.2.queueType (top :: younger)).readyInsts
            (post.takeWhile (·.2.oldestInst < top.seqNum)) +
          waiting (q.setReady n.2.queueType (top :: younger)).readyInsts
            (post.dropWhile (·.2.oldestInst < top.seqNum)) := by
      rw [← waiting_append, takeWhile_append_dropWhile]
    rw [hready₁, waiting_append, waiting_cons, setReady_self, waiting_cons, hready]
    simp only [length_cons]
    omega

theorem popReady_spec (hready : q.readyInsts n.2.queueType = inst :: rest) :
    ∃ q' it' post', q.popReady it n.2.queueType = some (q', it') ∧ Popped q pre post n rest q' it' post' := by
  cases rest with
  | nil => exact popReady_last h hat hready
  | cons top younger => exact popReady_move h hat hready

end

def issuedOf (c : C) (issued : List (Issue C)) : List (DynInst C) :=
  (issued.map (·.inst)).filter (·.opClass = c)

/-- What rounds of the loop do: each class issues from the head of its queue, and what issues
is not squashed. -/
structure Progress (q : InstructionQueue C) (issued : List (Issue C)) (q' : InstructionQueue C)
    (issued' : List (Issue C)) : Prop where
  same : q'.frame = q.frame
  width : issued.length ≤ q.totalWidth → issued'.length ≤ q.totalWidth
  squashed : ∀ i ∈ issued', i ∈ issued ∨ q.isSquashed i.inst.seqNum = false
  queue : ∀ c, (issuedOf c issued' ++ q'.readyInsts c).Sublist (issuedOf c issued ++ q.readyInsts c)

theorem Progress.refl (q : InstructionQueue C) (issued : List (Issue C)) :
    Progress q issued q issued :=
  ⟨rfl, id, fun _ hi => .inl hi, fun _ => .refl _⟩

theorem Progress.trans {q q' q'' : InstructionQueue C} {issued issued' issued'' : List (Issue C)}
    (h : Progress q issued q' issued') (h' : Progress q' issued' q'' issued'') :
    Progress q issued q'' issued'' where
  same := h'.same.trans h.same
  width := by
    intro hwidth
    have hwidth' := h'.width
    rw [totalWidth_of_frame h.same] at hwidth'
    exact hwidth' (h.width hwidth)
  squashed := by
    intro i hi
    rcases h'.squashed i hi with hi | hi
    · exact h.squashed i hi
    · rw [isSquashed_of_frame h.same] at hi
      exact .inr hi
  queue c := (h'.queue c).trans (h.queue c)

variable {q' : InstructionQueue C} {it' : Iter} {post' : List (Nat × ListOrderEntry C)}

theorem Popped.progress (h : Popped q pre post n rest q' it' post')
    (hready : q.readyInsts n.2.queueType = inst :: rest) (issued : List (Issue C)) :
    Progress q issued q' issued := by
  refine ⟨h.same, id, fun i hi => .inl hi, fun c => (List.Sublist.refl _).append ?_⟩
  rw [h.readyInsts]
  by_cases hc : c = n.2.queueType
  · rw [hc, setReady_self, hready]
    exact sublist_cons_self _ _
  · rw [q.setReady_of_ne rest hc]

theorem Popped.progress_issue (h : Popped q pre post n rest q' it' post') (hordered : q.Ordered)
    (hready : q.readyInsts n.2.queueType = inst :: rest) {issued : List (Issue C)}
    (hlt : issued.length < q.totalWidth) (hsquashed : q.isSquashed inst.seqNum = false)
    (op_latency : Nat) (noCapableFU : Bool) :
    Progress q issued q' (issued ++ [⟨inst, op_latency, noCapableFU⟩]) := by
  have hclass : inst.opClass = n.2.queueType :=
    (hordered.queues n.2.queueType).opClass inst (by rw [hready]; exact mem_cons_self)
  refine ⟨h.same, fun _ => ?_, fun i hi => ?_, fun c => ?_⟩
  · rw [length_append]
    exact hlt
  · rcases mem_append.mp hi with hi | hi
    · exact .inl hi
    · rw [mem_singleton.mp hi]
      exact .inr hsquashed
  · rw [h.readyInsts, issuedOf, map_append, filter_append, append_assoc]
    refine (List.Sublist.refl _).append ?_
    by_cases hc : c = n.2.queueType
    · rw [hc, hready]
      simp [hclass]
    · rw [q.setReady_of_ne rest hc]
      simp [hclass, Ne.symm hc]

theorem schedule_spec (fus : Nat → Fu) (fuel : Nat) {issued : List (Issue C)} (calls : Nat)
    (h : q.Ordered) (hat : At q.listOrder it pre post) (hfuel : waiting q.readyInsts post < fuel) :
    ∃ q' issued', schedule fus fuel q it issued calls = some (q', issued') ∧ q'.Ordered ∧
      Progress q issued q' issued' := by
  induction fuel generalizing q it pre post issued calls with
  | zero => omega
  | succ fuel ih =>
    rw [schedule]
    split
    next hgo =>
      cases post with
      | nil => exact absurd hat.iter hgo.2
      | cons n post =>
        have hold := h.oldest n (by rw [hat.nodes]; simp)
        obtain ⟨inst, hhead, hseq⟩ := map_eq_some_iff.mp hold
        obtain ⟨rest, hready⟩ : ∃ rest, q.readyInsts n.2.queueType = inst :: rest :=
          List.head?_eq_some_iff.mp hhead
        obtain ⟨q₁, it₁, post₁, hpop, hpopped⟩ := popReady_spec h hat hready
        have hfuel₁ : waiting q₁.readyInsts post₁ < fuel := by
          have hless := hpopped.waiting
          omega
        rw [hat.get?]
        simp only [bind_eq_bind, bind_some, hhead, hseq, ne_eq, not_true_eq_false,
          if_false, hpop]
        -- a class without a unit is left behind
        have hskip : ∀ calls, ∃ q' issued', ((q.listOrder.next it).bind fun next =>
            schedule fus fuel q next issued calls) = some (q', issued') ∧ q'.Ordered ∧
              Progress q issued q' issued' := by
          intro calls
          obtain ⟨it', hnext, hat'⟩ := hat.next
          rw [hnext]
          refine ih calls h hat' ?_
          rw [waiting_cons, hready, length_cons] at hfuel
          omega
        have hissue : q.isSquashed inst.seqNum = false → ∀ op_latency noCapableFU calls,
            ∃ q' issued', schedule fus fuel q₁ it₁ (issued ++ [⟨inst, op_latency, noCapableFU⟩])
              calls = some (q', issued') ∧ q'.Ordered ∧ Progress q issued q' issued' := by
          intro hsquashed op_latency noCapableFU calls
          obtain ⟨q', issued', hschedule, hordered, hprogress⟩ := ih calls hpopped.ordered
            hpopped.iter hfuel₁
          exact ⟨q', issued', hschedule, hordered, (hpopped.progress_issue h hready hgo.1 hsquashed
            op_latency noCapableFU).trans hprogress⟩
        split
        · obtain ⟨q', issued', hschedule, hordered, hprogress⟩ := ih calls hpopped.ordered
            hpopped.iter hfuel₁
          exact ⟨q', issued', hschedule, hordered, (hpopped.progress hready issued).trans hprogress⟩
        next hsquashed =>
          have hsquashed' : q.isSquashed inst.seqNum = false := by simpa [hseq] using hsquashed
          split
          · exact hissue hsquashed' 1 false calls
          · cases fus calls with
            | unit op_latency => exact hissue hsquashed' op_latency false (calls + 1)
            | noFreeFU => exact hskip (calls + 1)
            | noCapableFU => exact hissue hsquashed' 1 true (calls + 1)
    · exact ⟨q, issued, rfl, h, .refl q issued⟩

end InstructionQueue

end

section

namespace InstructionQueue

variable {q : InstructionQueue C}

theorem addReadyMemInsts_spec (h : q.Ordered) (memInsts : List (DynInst C)) :
    ∃ q', memInsts.foldlM addReadyMemInst q = some q' ∧ q'.Ordered ∧ q'.frame = q.frame := by
  induction memInsts generalizing q with
  | nil => exact ⟨q, rfl, h, rfl⟩
  | cons inst memInsts ih =>
    obtain ⟨q₁, hadd, h₁, hsame₁⟩ := addReady_spec h inst
    obtain ⟨q', hrest, h', hsame'⟩ := ih h₁
    exact ⟨q', bind_eq_some_iff.mpr ⟨q₁, hadd, hrest⟩, h', hsame'.trans hsame₁⟩

/-- No more than the width, nothing that is squashed, and of each class the oldest instructions in
their order. -/
structure Issues (q : InstructionQueue C) (q' : InstructionQueue C) (issued : List (Issue C)) :
    Prop where
  width : issued.length ≤ q.totalWidth
  squashed : ∀ i ∈ issued, q.isSquashed i.inst.seqNum = false
  age : ∀ c, (issuedOf c issued ++ q'.readyInsts c).Pairwise (·.seqNum ≤ ·.seqNum)

theorem scheduleReadyInsts_spec (h : q.Ordered) (memInsts : List (DynInst C)) (fus : Nat → Fu) :
    ∃ q' issued, q.scheduleReadyInsts memInsts fus = some (q', issued) ∧ q'.Ordered ∧ q'.frame = q.frame ∧
      q.Issues q' issued := by
  obtain ⟨q₁, hadd, h₁, hsame₁⟩ := addReadyMemInsts_spec h memInsts
  obtain ⟨q', issued, hschedule, h', hprogress⟩ :
      ∃ q' issued, schedule fus (waiting q₁.readyInsts q₁.listOrder.nodes + 1) q₁
        q₁.listOrder.begin [] 0 = some (q', issued) ∧ q'.Ordered ∧ Progress q₁ [] q' issued :=
    schedule_spec fus _ 0 h₁ (at_begin q₁.listOrder) (Nat.lt_succ_self _)
  refine ⟨q', issued, ?_, h', hprogress.same.trans hsame₁, ?_, ?_, ?_⟩
  · exact bind_eq_some_iff.mpr ⟨q₁, hadd, hschedule⟩
  · rw [← totalWidth_of_frame hsame₁]
    exact hprogress.width (Nat.zero_le _)
  · intro i hi
    rw [← isSquashed_of_frame hsame₁]
    exact (hprogress.squashed i hi).resolve_left (not_mem_nil)
  · intro c
    exact (h₁.queues c).sorted.sublist (hprogress.queue c)

end InstructionQueue

inductive Event (C : Type)
  | addIfReady (inst : DynInst C)
  | addReadyMemInst (inst : DynInst C)
  | scheduleReadyInsts (memInsts : List (DynInst C)) (fus : Nat → Fu)
  | squash (sn : InstSeqNum)

open InstructionQueue

def step (q : InstructionQueue C) : Event C → Option (InstructionQueue C)
  | .addIfReady inst => q.addIfReady inst
  | .addReadyMemInst inst => q.addReadyMemInst inst
  | .scheduleReadyInsts memInsts fus => (q.scheduleReadyInsts memInsts fus).map Prod.fst
  | .squash sn => some { q with isSquashed := update q.isSquashed sn true }

theorem step_spec {q : InstructionQueue C} (h : q.Ordered) (e : Event C) :
    ∃ q', step q e = some q' ∧ q'.Ordered ∧ q'.totalWidth = q.totalWidth := by
  cases e with
  | addIfReady inst =>
    rw [step, addIfReady]
    split
    · split
      · exact ⟨q, rfl, h, rfl⟩
      · obtain ⟨q', hadd, h', hsame⟩ := addReady_spec h inst
        exact ⟨q', hadd, h', totalWidth_of_frame hsame⟩
    · exact ⟨q, rfl, h, rfl⟩
  | addReadyMemInst inst =>
    obtain ⟨q', hadd, h', hsame⟩ := addReady_spec h inst
    exact ⟨q', hadd, h', totalWidth_of_frame hsame⟩
  | scheduleReadyInsts memInsts fus =>
    obtain ⟨q', issued, hschedule, h', hsame, -⟩ := scheduleReadyInsts_spec h memInsts fus
    exact ⟨q', by rw [step, hschedule]; rfl, h', totalWidth_of_frame hsame⟩
  | squash sn => exact ⟨_, rfl, h, rfl⟩

theorem run_spec {q : InstructionQueue C} (h : q.Ordered) (events : List (Event C)) :
    ∃ q', events.foldlM step q = some q' ∧ q'.Ordered ∧ q'.totalWidth = q.totalWidth := by
  induction events generalizing q with
  | nil => exact ⟨q, rfl, h, rfl⟩
  | cons e events ih =>
    obtain ⟨q₁, hstep, h₁, hwidth₁⟩ := step_spec h e
    obtain ⟨q', hrest, h', hwidth'⟩ := ih h₁
    refine ⟨q', ?_, h', hwidth'.trans hwidth₁⟩
    exact bind_eq_some_iff.mpr ⟨q₁, hstep, hrest⟩

omit [DecidableEq C] in
private theorem ordered_empty (totalWidth : Nat) (No_OpClass : C) :
    Ordered { totalWidth, No_OpClass } := by
  constructor <;> simp [classes]
  exact fun c => ⟨List.Pairwise.nil, by simp⟩

theorem ready_list_in_order (totalWidth : Nat) (No_OpClass : C) (events : List (Event C)) :
    ∃ q, events.foldlM step { totalWidth, No_OpClass } = some q ∧ q.Ordered ∧
      ∀ memInsts fus, ∃ q' issued, q.scheduleReadyInsts memInsts fus = some (q', issued) ∧
        issued.length ≤ totalWidth ∧ q.Issues q' issued := by
  obtain ⟨q, hrun, h, hwidth⟩ := run_spec (ordered_empty totalWidth No_OpClass) events
  refine ⟨q, hrun, h, fun memInsts fus => ?_⟩
  obtain ⟨q', issued, hschedule, -, -, hissues⟩ := scheduleReadyInsts_spec h memInsts fus
  exact ⟨q', issued, hschedule, hissues.width.trans_eq hwidth, hissues⟩

end

end Gem5Core.O3.ReadyList
