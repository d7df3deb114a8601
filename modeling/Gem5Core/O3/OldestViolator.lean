import Gem5Core.Lib.RunningLeast
import Gem5Core.O3.LsqSequential

/-! The violator that is recorded between two reads is the oldest of all loads that any of the
stores has found. -/
namespace Gem5Core.O3.Lsq
open Pred.Branch Lib.Protocol Lib.Indexed Lib.ByteMemory Lib.RunningLeast List

/-- The load is younger than the store, its address is known, it is not strictly ordered, and both
touch a granule in common. -/
structure Violates (p : Params) (store : DynInst) (ld : LQEntry) : Prop where
  younger : store.seqNum < ld.inst.seqNum
  effAddrValid : ld.effAddrValid = true
  unordered : ld.inst.strictlyOrdered = false
  overlap : store.granulesOverlap p.depCheckShift ld.inst = true

namespace LSQUnit

variable {p : Params} {u v : LSQUnit}

/-- Both queues are in program order: the loads are sorted, and the index that a store keeps
divides them by age. -/
structure InOrder (u : LSQUnit) : Prop where
  loads : u.loadQueue.Pairwise (·.inst.seqNum < ·.inst.seqNum)
  split : ∀ i ld j st, u.loadAt i = some ld → u.storeAt j = some st →
    (st.lqIt ≤ i ↔ st.inst.seqNum < ld.inst.seqNum)

def mayViolate (p : Params) (store : DynInst) (ld : LQEntry) : Bool :=
  ld.effAddrValid && !ld.inst.strictlyOrdered && store.granulesOverlap p.depCheckShift ld.inst

theorem checkLoop_store (p : Params) (store : DynInst) (violator : Option InstSeqNum)
    (l : List LQEntry) :
    checkLoop p store false violator l =
      (l, ((l.find? (mayViolate p store)).map (·.inst.seqNum)).filter fun sn =>
        !violator.any (· < sn)) := by
  induction l with
  | nil => rfl
  | cons ld rest ih =>
    rw [checkLoop, ih]
    by_cases hhit : mayViolate p store ld = true
    · have hgo : ¬ ((!ld.effAddrValid || ld.inst.strictlyOrdered ||
          !store.granulesOverlap p.depCheckShift ld.inst) = true) := by
        simp only [mayViolate, Bool.and_eq_true, Bool.not_eq_true'] at hhit
        simp [hhit]
      rw [if_neg hgo, List.find?_cons_of_pos hhit]
      simp only [Bool.false_eq_true, ↓reduceIte, Option.map_some, Option.filter]
      split <;> simp_all
    · have hskip : (!ld.effAddrValid || ld.inst.strictlyOrdered ||
          !store.granulesOverlap p.depCheckShift ld.inst) = true := by
        simp only [mayViolate, Bool.and_eq_true, Bool.not_eq_true'] at hhit
        cases hvalid : ld.effAddrValid <;> cases hordered : ld.inst.strictlyOrdered <;>
          simp_all
      rw [if_pos hskip, List.find?_cons_of_neg hhit]

private theorem mem_drop_loads (u : LSQUnit) (loadIt : Nat) (ld : LQEntry) :
    ld ∈ u.loadQueue.drop (loadIt - u.loadHead) ↔ ∃ i, loadIt ≤ i ∧ u.loadAt i = some ld := by
  rw [mem_iff_getElem?]
  constructor
  · rintro ⟨k, hk⟩
    rw [List.getElem?_drop] at hk
    exact ⟨u.loadHead + (loadIt - u.loadHead + k), by omega, (lookup_add ..).trans hk⟩
  · rintro ⟨i, hle, hi⟩
    obtain ⟨k, rfl, hk⟩ := lookup_eq_some.mp hi
    refine ⟨k - (loadIt - u.loadHead), ?_⟩
    rw [List.getElem?_drop, show loadIt - u.loadHead + (k - (loadIt - u.loadHead)) = k by omega]
    exact hk

theorem InOrder.mem_behind (h : InOrder u) {idx : Nat} {st : SQEntry}
    (hst : u.storeAt idx = some st) (ld : LQEntry) :
    (ld ∈ u.loadQueue.drop (st.lqIt - u.loadHead) ∧ mayViolate p st.inst ld = true) ↔
      ld ∈ u.loadQueue ∧ Violates p st.inst ld := by
  rw [mem_drop_loads]
  simp only [mayViolate, Bool.and_eq_true, Bool.not_eq_true']
  constructor
  · rintro ⟨⟨i, hle, hi⟩, ⟨hvalid, hordered⟩, hover⟩
    exact ⟨mem_of_lookup hi, (h.split i ld idx st hi hst).mp hle, hvalid, hordered, hover⟩
  · rintro ⟨hmem, hyounger, hvalid, hordered, hover⟩
    obtain ⟨i, hi⟩ := exists_lookup_of_mem u.loadHead hmem
    exact ⟨⟨i, (h.split i ld idx st hi hst).mpr hyounger, hi⟩, ⟨hvalid, hordered⟩, hover⟩

private theorem checkViolations_memDepViolator (u : LSQUnit) (loadIt : Nat) (store : DynInst) :
    (u.checkViolations p loadIt store false).memDepViolator =
      keep id u.memDepViolator
        (((u.loadQueue.drop (loadIt - u.loadHead)).find? (mayViolate p store)).map
          (·.inst.seqNum)) := by
  simp only [checkViolations, checkLoop_store, keep, id_eq]

private theorem checkViolations_loadQueue (u : LSQUnit) (loadIt : Nat) (store : DynInst) :
    (u.checkViolations p loadIt store false).loadQueue = u.loadQueue := by
  simp only [checkViolations, checkLoop_store, take_append_drop]

section

/-- A store that one of the calls executes; one without bytes does not look for loads. -/
def Executes (u : LSQUnit) (calls : List (Nat × Outcome)) (store : DynInst) : Prop :=
  ∃ idx st, (idx, .accessed) ∈ calls ∧ u.storeAt idx = some st ∧ st.inst = store ∧
    store.effSize ≠ 0

def passed (p : Params) (u : LSQUnit) (calls : List (Nat × Outcome)) : Set InstSeqNum :=
  {sn | ∃ ld ∈ u.loadQueue, (∃ store, u.Executes calls store ∧ Violates p store ld) ∧
    ld.inst.seqNum = sn}

/-- The queues up to what happens to the stores in theirs. -/
def queues (u : LSQUnit) :=
  (u.loadQueue, u.loadHead, u.storeHead, u.storeQueue.map SQEntry.place)

def SameQueues (u v : LSQUnit) : Prop := v.queues = u.queues

theorem Remarked.queues (h : Remarked u v) : SameQueues u v := by
  rw [SameQueues, LSQUnit.queues, h.places, h.eq]
  rfl

section

variable (h : SameQueues u v)
include h

theorem SameQueues.loadQueue : v.loadQueue = u.loadQueue := congrArg (·.1) h

theorem SameQueues.storeAt {j : Nat} {b : SQEntry} (hb : v.storeAt j = some b) :
    ∃ a, u.storeAt j = some a ∧ a.inst = b.inst ∧ a.lqIt = b.lqIt := by
  have hhead : v.storeHead = u.storeHead := congrArg (·.2.2.1) h
  have hplaces : v.storeQueue.map _ = u.storeQueue.map _ := congrArg (·.2.2.2) h
  rw [LSQUnit.storeAt, hhead] at hb
  obtain ⟨a, ha, hplace⟩ := lookup_of_map_eq hplaces.symm hb
  exact ⟨a, ha, congrArg Prod.fst hplace, congrArg Prod.snd hplace⟩

theorem SameQueues.inOrder (hu : InOrder u) : InOrder v where
  loads := by
    rw [h.loadQueue]
    exact hu.loads
  split := by
    intro i ld j b hld hb
    obtain ⟨a, ha, hinst, hlq⟩ := h.storeAt hb
    have hhead : v.loadHead = u.loadHead := congrArg (·.2.1) h
    rw [LSQUnit.loadAt, hhead, h.loadQueue] at hld
    rw [← hinst, ← hlq]
    exact hu.split i ld j a hld ha

theorem SameQueues.executes {calls : List (Nat × Outcome)} {store : DynInst}
    (hv : v.Executes calls store) : u.Executes calls store := by
  obtain ⟨idx, b, hcall, hb, hinst, hsize⟩ := hv
  obtain ⟨a, ha, hsame, -⟩ := h.storeAt hb
  exact ⟨idx, a, hcall, ha, hsame.trans hinst, hsize⟩

theorem SameQueues.passed_eq (calls : List (Nat × Outcome)) :
    passed p v calls = passed p u calls := by
  have hiff : ∀ store, v.Executes calls store ↔ u.Executes calls store :=
    fun store => ⟨h.executes, SameQueues.executes (Eq.symm h)⟩
  simp only [passed, h.loadQueue, hiff]

end

private theorem passed_cons (u : LSQUnit) (call : Nat × Outcome) (calls : List (Nat × Outcome)) :
    passed p u (call :: calls) = passed p u [call] ∪ passed p u calls := by
  have hcalls : ∀ store, u.Executes (call :: calls) store ↔
      u.Executes [call] store ∨ u.Executes calls store := by
    intro store
    simp only [Executes, mem_cons, not_mem_nil, or_false, or_and_right, exists_or]
  ext sn
  simp only [passed, hcalls, or_and_right, exists_or, and_or_left, Set.mem_ofPred_eq, Set.mem_union]

private theorem passed_eq_empty {call : Nat × Outcome}
    (hnone : ∀ store, ¬ u.Executes [call] store) : passed p u [call] = ∅ := by
  refine Set.eq_empty_of_forall_notMem ?_
  rintro sn ⟨ld, -, ⟨store, hexecutes, -⟩, -⟩
  exact hnone store hexecutes

variable {idx : Nat} {st : SQEntry}

theorem checkViolations_oldest (h : InOrder u) (hst : u.storeAt idx = some st) :
    SameQueues u (u.checkViolations p st.lqIt st.inst false) ∧
      ∃ candidate,
        (u.checkViolations p st.lqIt st.inst false).memDepViolator =
          keep id u.memDepViolator candidate ∧
        Holds candidate {sn | ∃ ld ∈ u.loadQueue, Violates p st.inst ld ∧ ld.inst.seqNum = sn} := by
  refine ⟨congrArg (·, _) (checkViolations_loadQueue u st.lqIt st.inst), _,
    checkViolations_memDepViolator u st.lqIt st.inst, ?_⟩
  have hbehind : (u.loadQueue.drop (st.lqIt - u.loadHead)).Pairwise
      (·.inst.seqNum < ·.inst.seqNum) := h.loads.sublist (drop_sublist _ _)
  have hset : {sn | ∃ ld ∈ u.loadQueue.drop (st.lqIt - u.loadHead),
      mayViolate p st.inst ld = true ∧ ld.inst.seqNum = sn} =
        {sn | ∃ ld ∈ u.loadQueue, Violates p st.inst ld ∧ ld.inst.seqNum = sn} := by
    ext sn
    simp only [Set.mem_ofPred_eq, ← and_assoc, h.mem_behind hst]
  rw [← hset]
  exact holds_find? hbehind (mayViolate p st.inst)

private theorem passed_store (hst : u.storeAt idx = some st) (hsize : st.inst.effSize ≠ 0) :
    passed p u [(idx, .accessed)] =
      {sn | ∃ ld ∈ u.loadQueue, Violates p st.inst ld ∧ ld.inst.seqNum = sn} := by
  have honly : ∀ store, u.Executes [(idx, .accessed)] store ↔ store = st.inst := by
    intro store
    constructor
    · rintro ⟨i, st', hcall, hi, hinst, -⟩
      cases mem_singleton.mp hcall
      rw [hst] at hi
      cases hi
      exact hinst.symm
    · rintro rfl
      exact ⟨idx, st, mem_singleton_self _, hst, rfl, hsize⟩
  simp only [passed, honly, exists_eq_left]

theorem executeStore_oldest (h : InOrder u) (idx : Nat) (outcome : Outcome) :
    SameQueues u (u.executeStore p idx outcome) ∧
      ∃ candidate,
        (u.executeStore p idx outcome).memDepViolator = keep id u.memDepViolator candidate ∧
        Holds candidate (passed p u [(idx, outcome)]) := by
  obtain ⟨v, hv, ⟨heq, hnone⟩ | ⟨st, hst, rfl, hsize, heq⟩⟩ := executeStore_cases (p := p) u idx outcome
  · rw [heq]
    refine ⟨hv.queues, none, by rw [hv.eq]; rfl, passed_eq_empty ?_⟩
    rintro store ⟨i, st, hcall, hi, rfl, hpositive⟩
    cases mem_singleton.mp hcall
    exact hpositive (hnone rfl st hi)
  · have hsame := hv.queues
    obtain ⟨st', hst', hinst, hlq⟩ := SameQueues.storeAt (Eq.symm hsame) hst
    obtain ⟨hchecked, candidate, hkeep, hholds⟩ :=
      checkViolations_oldest (p := p) (hsame.inOrder h) hst'
    rw [hinst, hlq] at hchecked hkeep
    have hviolator : v.memDepViolator = u.memDepViolator := by rw [hv.eq]
    rw [heq]
    refine ⟨Eq.trans hchecked hsame, candidate, hviolator ▸ hkeep, ?_⟩
    rw [passed_store hst hsize, ← hinst, ← hsame.loadQueue]
    exact hholds

theorem run_oldest (calls : List (Nat × Outcome)) (h : InOrder u) {known : Set InstSeqNum}
    (hholds : Holds u.memDepViolator known) :
    Holds (calls.foldl (fun u call => u.executeStore p call.1 call.2) u).memDepViolator
      (known ∪ passed p u calls) := by
  induction calls generalizing u known with
  | nil =>
    have hnone : passed p u [] = ∅ := by
      refine Set.eq_empty_of_forall_notMem ?_
      rintro sn ⟨ld, -, ⟨store, ⟨idx, st, hcall, -⟩, -⟩, -⟩
      cases hcall
    rw [hnone, Set.union_empty]
    exact hholds
  | cons call calls ih =>
    obtain ⟨hsame, candidate, hkeep, hfound⟩ :=
      executeStore_oldest (p := p) h call.1 call.2
    have hnext := hholds.keep hfound
    rw [← hkeep] at hnext
    have hrest := ih (hsame.inOrder h) hnext
    rw [hsame.passed_eq] at hrest
    rw [passed_cons, ← Set.union_assoc]
    exact hrest

end

end LSQUnit

/-- Instructions of any kind are numbered in program order, and what may write back is not
squashed. -/
def Machine.Numbered (p : Params) (m : Machine) (e : Event) : Prop :=
  LSQUnit.StoresAllowed p m.unit e ∧
    match e with
    | .insertLoad inst | .insertStore inst => m.last < inst.seqNum
    | .squash squashed_num =>
        ∀ st ∈ m.unit.storeQueue, st.canWB = true → st.inst.seqNum ≤ squashed_num
    | _ => True

instance (p : Params) (m : Machine) (e : Event) : Decidable (m.Numbered p e) := by
  rcases e with _ | _ <;> dsimp only [Machine.Numbered] <;> infer_instance

theorem Machine.inOrder_run (p : Params) (events : List Event)
    (hl : Legal (Machine.step p) (Machine.Numbered p) {} events) :
    LSQUnit.InOrder (run (Machine.step p) {} events).unit := by
  obtain ⟨hordered, hdivided⟩ :=
    run_inv (fun m : Machine => LSQUnit.Ordered m.last m.unit ∧ LSQUnit.Divided m.unit)
      (fun m e h he => by
        obtain ⟨hstores, hnumbered⟩ := he
        have hnew : ∀ inst, e = .insertLoad inst ∨ e = .insertStore inst → m.last < inst.seqNum := by
          rintro inst (rfl | rfl) <;> exact hnumbered
        refine ⟨h.1.step hstores hnew, h.2.step h.1 hstores hnew ?_⟩
        rintro squashed_num rfl
        exact hnumbered) events ⟨LSQUnit.ordered_start, LSQUnit.divided_start⟩ hl
  exact ⟨hordered.loads.pairwise, hdivided.split⟩

/-- Stores execute one after another, with no violator recorded before. The violator recorded
after them is the oldest load that any of them finds to have passed it; a load that shares a
byte with one of them is found whatever the shift. -/
theorem violator_oldest (p : Params) {u : LSQUnit} (horder : u.InOrder)
    (hread : u.memDepViolator = none) (calls : List (Nat × Outcome)) :
    let violator := (calls.foldl (fun u call => u.executeStore p call.1 call.2) u).memDepViolator
    (∀ sn, violator = some sn ↔ IsLeast {sn | ∃ ld ∈ u.loadQueue,
      (∃ store, u.Executes calls store ∧ Violates p store ld) ∧ ld.inst.seqNum = sn} sn) ∧
    ∀ store, u.Executes calls store → store.NoWrap → ∀ ld ∈ u.loadQueue,
      store.seqNum < ld.inst.seqNum → ld.effAddrValid = true → ld.inst.strictlyOrdered = false →
      ld.inst.NoWrap → store.request.range.Overlaps ld.inst.request.range →
      ∃ sn, violator = some sn ∧ sn ≤ ld.inst.seqNum := by
  intro violator
  have hstart : Holds u.memDepViolator ∅ := by
    rw [hread]
    rfl
  have hholds : Holds violator (LSQUnit.passed p u calls) := by
    have h := LSQUnit.run_oldest (p := p) calls horder hstart
    rwa [Set.empty_union] at h
  refine ⟨fun sn => hholds.some_iff sn, ?_⟩
  intro store hexecutes hstore ld hld hyounger hvalid hordered hload hover
  have hmem : ld.inst.seqNum ∈ LSQUnit.passed p u calls :=
    ⟨ld, hld, ⟨store, hexecutes, hyounger, hvalid, hordered,
      granulesOverlap_of_overlaps p.depCheckShift hstore hload hover⟩, rfl⟩
  cases hv : violator with
  | none =>
    rw [hv] at hholds
    rw [show LSQUnit.passed p u calls = ∅ from hholds] at hmem
    cases hmem
  | some sn =>
    have hleast := (hholds.some_iff sn).mp hv
    exact ⟨sn, rfl, hleast.2 hmem⟩

/-- Two stores execute after three loads have passed them. The younger store finds load 4, the
older one loads 3 and 5. -/
theorem violator_oldest_two_stores :
    let p : Params := { depCheckShift := 4, lqEntries := 4, sqEntries := 4 }
    let access (seqNum : InstSeqNum) (vaddr : Addr) : DynInst :=
      { seqNum, request := { vaddr, size := 8 } }
    let u := (run (Machine.step p) {} [.insertStore (access 1 64), .insertStore (access 2 128),
      .insertLoad (access 3 68), .insertLoad (access 4 132), .insertLoad (access 5 64),
      .executeLoad 1 .accessed false true, .executeLoad 2 .accessed false true,
      .executeLoad 3 .accessed false true]).unit
    let calls := [(2, .accessed), (1, .accessed)]
    (calls.foldl (fun u call => u.executeStore p call.1 call.2) u).memDepViolator = some 3 ∧
      IsLeast {sn | ∃ ld ∈ u.loadQueue,
        (∃ store, u.Executes calls store ∧ Violates p store ld) ∧ ld.inst.seqNum = sn} 3 := by
  intro p access u calls
  have horder : u.InOrder := Machine.inOrder_run p _ (by decide +kernel)
  have hfound : (calls.foldl (fun u call => u.executeStore p call.1 call.2) u).memDepViolator =
      some 3 := by decide +kernel
  exact ⟨hfound, ((violator_oldest p horder (by decide +kernel) calls).1 3).mp hfound⟩

end Gem5Core.O3.Lsq
