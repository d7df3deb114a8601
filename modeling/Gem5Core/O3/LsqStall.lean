import Gem5Core.O3.LsqRecord

/-! The stall record of the queues and the loads that wait to be replayed, over every order in
which the calls may come. -/
namespace Gem5Core.O3.Lsq
open Pred.Branch Lib.Protocol Lib.Indexed

/-- Why `rescheduleMemInst` is called: the load is strictly ordered and commit has not reached
it, or a store covers it in part. -/
inductive Cause
  | strictlyOrdered | covered
  deriving DecidableEq

/-- The unit of a thread with `instsToReplay` of its memory dependence unit, and the loads for which
`setAtCommit` was called. -/
structure Stage where
  unit : LSQUnit := {}
  last : InstSeqNum := 0
  instsToReplay : List (InstSeqNum × Cause) := []
  atCommit : List InstSeqNum := []

/-- A call of the unit, or the signal that commit has reached a strictly ordered load. -/
inductive Signal
  | call (e : Event)
  | strictlyOrderedLoad (sn : InstSeqNum)

namespace Stage

variable (p : Params) (m : Stage)

def rescheduled (load_idx : Nat) (outcome : Outcome) (isAtCommit : Bool) :
    Option (InstSeqNum × Cause) :=
  match m.unit.loadAt load_idx with
  | none => none
  | some ld =>
    if ld.isExecuted || ld.reExec || outcome != .accessed then none
    else
      match m.unit.readResult load_idx ld isAtCommit with
      | .strictlyOrdered => some (ld.inst.seqNum, .strictlyOrdered)
      | .rescheduled _ => some (ld.inst.seqNum, .covered)
      | _ => none

/-- `replayMemInst` replays all waiting loads, whichever load it is called for. -/
def replay (after : LSQUnit) : Event → List (InstSeqNum × Cause)
  | .executeLoad load_idx outcome isAtCommit _ =>
      m.instsToReplay ++ (m.rescheduled load_idx outcome isAtCommit).toList
  | .squash squashed_num => m.instsToReplay.filter (·.1 ≤ squashed_num)
  | _ => if after.replays.length = m.unit.replays.length then m.instsToReplay else []

def step : Signal → Stage
  | .call e =>
      let after := Lsq.step p m.unit e
      { m with
        unit := after
        last :=
          match e with
          | .insertLoad inst | .insertStore inst => inst.seqNum
          | _ => m.last
        instsToReplay := m.replay after e }
  | .strictlyOrderedLoad sn => { m with instsToReplay := [], atCommit := sn :: m.atCommit }

/-- Instructions are numbered in program order, a load that waits does not execute, a load is
written back when its data are there, and an instruction commits when it has executed. -/
def Expected : Event → Prop
  | .insertLoad load_inst => m.last < load_inst.seqNum ∧ m.unit.loadQueue.length < p.lqEntries
  | .insertStore store_inst => m.last < store_inst.seqNum
  | .executeLoad load_idx _ isAtCommit _ =>
      ∃ ld ∈ m.unit.loadAt load_idx, ld.inst.seqNum ∉ m.instsToReplay.map Prod.fst ∧
        (isAtCommit = true ↔ ld.inst.seqNum ∈ m.atCommit)
  | .writeback load_idx =>
      ∃ ld ∈ m.unit.loadAt load_idx, ld.effAddrValid = true ∧
        ∀ k < ld.inst.request.size, (ld.memData k).isSome
  | .commit youngest_inst =>
      (∀ w ∈ m.unit.violators, youngest_inst < w) ∧
        ∀ ld ∈ m.unit.loadQueue, ld.inst.seqNum ≤ youngest_inst →
          ld.isExecuted = true ∧ ld.reExec = false
  | _ => True

/-- Commit waits until every older store is written back before it lets a strictly ordered load
execute, which is the head of the queue then. -/
def Allowed : Signal → Prop
  | .call e => LSQUnit.StoresAllowed p m.unit e ∧ m.Expected p e
  | .strictlyOrderedLoad sn =>
      ∃ ld ∈ m.unit.loadAt m.unit.loadHead, ld.inst.seqNum = sn ∧ ld.inst.strictlyOrdered = true ∧
        ld.isExecuted = false ∧ (sn, Cause.strictlyOrdered) ∈ m.instsToReplay ∧
        m.unit.storesToWB = 0 ∧ ∀ st ∈ m.unit.storeQueue, st.inst.seqNum < sn → st.canWB = true

/-- Stores are not prefetches, and when the load of the record executes again, a store covers
it in part again. -/
def Steady : Signal → Prop
  | .call (.insertStore store_inst) => store_inst.isDataPrefetch = false
  | .call (.executeLoad load_idx outcome isAtCommit _) =>
      m.unit.stalled = true → load_idx = m.unit.stallingLoadIdx → outcome ≠ .delayed →
        (m.rescheduled load_idx outcome isAtCommit).map Prod.snd = some .covered
  | _ => True

instance : DecidablePred (m.Expected p) := fun e => by
  rcases e with _ | _ <;> dsimp only [Expected] <;> infer_instance

instance : DecidablePred (m.Allowed p) := fun e => by
  cases e <;> dsimp only [Allowed] <;> infer_instance

instance : DecidablePred m.Steady := fun s => by
  rcases s with (_ | _) | _ <;> dsimp only [Steady] <;> infer_instance

variable {p m}

open LSQUnit

def Placed (m : Stage) : Prop := LSQUnit.Placed m.last m.unit

/-- Whoever waits for a store is idle and not older than the load of the record. -/
structure Inv (m : Stage) : Prop where
  placed : m.Placed
  record : m.unit.stalled = true → ∃ ld, m.unit.Recorded ld
  waiting : ∀ sn, (sn, Cause.covered) ∈ m.instsToReplay →
    ∃ ld ∈ m.unit.loadQueue, ld.inst.seqNum = sn ∧ ld.Idle
  stalled : ∀ sn, (sn, Cause.covered) ∈ m.instsToReplay → m.unit.stalled = true ∧
    ∀ ld, m.unit.loadAt m.unit.stallingLoadIdx = some ld → ld.inst.seqNum ≤ sn

theorem inv_start : Inv {} where
  placed := placed_start
  record := by simp
  waiting := by simp
  stalled := by simp

variable {m' : Stage}

theorem Inv.cleared (hplaced : m'.Placed) (hstalled : m'.unit.stalled = false)
    (hreplay : ∀ sn, (sn, Cause.covered) ∉ m'.instsToReplay) : Inv m' where
  placed := hplaced
  record := fun h => by rw [hstalled] at h; cases h
  waiting := fun sn h => absurd h (hreplay sn)
  stalled := fun sn h => absurd h (hreplay sn)

theorem Inv.frame (h : Inv m) (hplaced : m'.Placed) (hstands : Stands m.unit m'.unit)
    (hreplay : ∀ sn, (sn, Cause.covered) ∈ m'.instsToReplay → (sn, Cause.covered) ∈ m.instsToReplay)
    (hloads : ∀ i a, m.unit.loadAt i = some a → a.Idle →
      (m.unit.stalled = true ∧ i = m.unit.stallingLoadIdx ∨
        (a.inst.seqNum, Cause.covered) ∈ m'.instsToReplay) →
      ∃ b, m'.unit.loadAt i = some b ∧ b.inst = a.inst ∧ b.Idle) : Inv m' where
  placed := hplaced
  record := by
    intro hstalled
    rw [hstands.same.stalled] at hstalled
    obtain ⟨a, ha⟩ := h.record hstalled
    obtain ⟨b, hb, hinst, hidle⟩ := hloads _ a ha.load ha.idle (.inl ⟨hstalled, rfl⟩)
    exact ⟨b, by rw [hstands.same.stallingLoadIdx, hb], hidle,
      by rw [hstands.same.stallingStoreIsn, hinst]; exact ha.older,
      by rw [hstands.same.stallingStoreIsn]; exact hstands.queued hstalled ha.store⟩
  waiting := by
    intro sn hsn
    obtain ⟨a, hmem, rfl, hidle⟩ := h.waiting sn (hreplay sn hsn)
    obtain ⟨i, hi⟩ := exists_lookup_of_mem m.unit.loadHead hmem
    obtain ⟨b, hb, hinst, hidle'⟩ := hloads i a hi hidle (.inr hsn)
    exact ⟨b, mem_of_lookup hb, by rw [hinst], hidle'⟩
  stalled := by
    intro sn hsn
    obtain ⟨hstalled, hle⟩ := h.stalled sn (hreplay sn hsn)
    refine ⟨hstands.same.stalled.trans hstalled, fun b hb => ?_⟩
    obtain ⟨a, ha⟩ := h.record hstalled
    obtain ⟨c, hc, hinst, -⟩ := hloads _ a ha.load ha.idle (.inl ⟨hstalled, rfl⟩)
    rw [hstands.same.stallingLoadIdx, hc] at hb
    cases hb
    rw [hinst]
    exact hle a ha.load

theorem Inv.storeCall (h : Inv m) {e : Event} (hplaced : (m.step p (.call e)).Placed)
    (hrecord : Stands m.unit (Lsq.step p m.unit e) ∨ Unstalled m.unit (Lsq.step p m.unit e))
    (hentries : SameEntries m.unit (Lsq.step p m.unit e))
    (hreplay : (m.step p (.call e)).instsToReplay =
      if (Lsq.step p m.unit e).replays.length = m.unit.replays.length then m.instsToReplay else []) :
    Inv (m.step p (.call e)) := by
  rcases hrecord with hstands | hunstalled
  · refine h.frame hplaced hstands ?_ ?_
    · rw [hreplay, if_pos (congrArg List.length hstands.same.replays)]
      exact fun _ hsn => hsn
    · intro i a ha hidle _
      obtain ⟨b, hb, hkey⟩ := hentries.loadAt ha
      exact ⟨b, hb, congrArg Prod.fst hkey, hidle.of_key hkey⟩
  · refine Inv.cleared hplaced hunstalled.stalled fun sn => ?_
    have hlength : (Lsq.step p m.unit e).replays.length ≠ m.unit.replays.length := by
      rw [hunstalled.replays]
      simp
    rw [hreplay, if_neg hlength]
    exact List.not_mem_nil

section
variable {idx k : Nat} {ld : LQEntry} {st : SQEntry} {outcome : Outcome} {isAtCommit accepted : Bool}

theorem rescheduled_eq (hld : m.unit.loadAt idx = some ld) (hex : ld.isExecuted = false)
    (hre : ld.reExec = false) :
    m.rescheduled idx .accessed isAtCommit =
      match m.unit.readResult idx ld isAtCommit with
      | .strictlyOrdered => some (ld.inst.seqNum, .strictlyOrdered)
      | .rescheduled _ => some (ld.inst.seqNum, .covered)
      | _ => none := by
  simp only [rescheduled, hld, hex, hre, Bool.or_self, bne_self_eq_false, Bool.false_eq_true, ↓reduceIte]

theorem Inv.passed (h : Inv m) (hld : m.unit.loadAt idx = some ld)
    (hwaits : ld.inst.seqNum ∉ m.instsToReplay.map Prod.fst)
    (hrecord : m.unit.stalled = true → idx ≠ m.unit.stallingLoadIdx)
    (hplaced : m'.Placed) (hstands : Stands m.unit m'.unit)
    (hreplay : ∀ sn, (sn, Cause.covered) ∈ m'.instsToReplay → (sn, Cause.covered) ∈ m.instsToReplay)
    (hloads : ∀ i a, i ≠ idx → m.unit.loadAt i = some a →
      ∃ b, m'.unit.loadAt i = some b ∧ b.key = a.key) : Inv m' := by
  refine h.frame hplaced hstands hreplay fun i a ha hidle hneeded => ?_
  have hne : i ≠ idx := by
    rintro rfl
    cases ha.symm.trans hld
    rcases hneeded with ⟨hstalled, heq⟩ | hmem
    · exact hrecord hstalled heq
    · exact hwaits (List.mem_map_of_mem (f := Prod.fst) (hreplay _ hmem))
  obtain ⟨b, hb, hkey⟩ := hloads i a hne ha
  exact ⟨b, hb, congrArg Prod.fst hkey, hidle.of_key hkey⟩

theorem Inv.covered (h : Inv m) (hld : m.unit.loadAt idx = some ld) (hplaced : m'.Placed)
    (hst : m.unit.storeAt k = some st) (hlow : m.unit.storeWBIt ≤ k) (hhigh : k < ld.sqIt)
    (hstores : SameStores m.unit m'.unit) (hstalled : m'.unit.stalled = true)
    (hstalls : Stalls m.unit m'.unit idx ld.inst st.inst.seqNum)
    (hreplay : m'.instsToReplay = m.instsToReplay ++ [(ld.inst.seqNum, .covered)])
    (hloads : ∀ i a, m.unit.loadAt i = some a → a.Idle ∨ i = idx →
      ∃ b, m'.unit.loadAt i = some b ∧ b.inst = a.inst ∧ b.Idle) : Inv m' := by
  obtain ⟨e, hentry, hinst, hidle⟩ := hloads idx ld hld (.inr rfl)
  have hwaiting : ∀ sn, (sn, Cause.covered) ∈ m'.instsToReplay →
      (sn, Cause.covered) ∈ m.instsToReplay ∨ sn = ld.inst.seqNum := by
    intro sn hsn
    rw [hreplay] at hsn
    simpa using hsn
  constructor
  case placed => exact hplaced
  case record =>
    intro _
    cases hstalls with
    | named load store older =>
      refine ⟨e, by rw [load, hentry], hidle, ?_, ?_⟩
      · rw [store, hinst]
        exact (h.placed.split idx ld k st hld hst).mp hhigh
      · rw [store]
        exact hstores.queued ⟨k, st, hlow, hst, rfl⟩
    | kept stalled load store younger =>
      obtain ⟨a, ha⟩ := h.record stalled
      obtain ⟨b, hb, hinst', hidle'⟩ := hloads _ a ha.load (.inl ha.idle)
      refine ⟨b, by rw [load, hb], hidle', ?_, ?_⟩
      · rw [store, hinst']
        exact ha.older
      · rw [store]
        exact hstores.queued ha.store
  case waiting =>
    intro sn hsn
    rcases hwaiting sn hsn with hsn | rfl
    · obtain ⟨a, hmem, rfl, hidle'⟩ := h.waiting sn hsn
      obtain ⟨i, hi⟩ := exists_lookup_of_mem m.unit.loadHead hmem
      obtain ⟨b, hb, hinst', hidle'⟩ := hloads i a hi (.inl hidle')
      exact ⟨b, mem_of_lookup hb, by rw [hinst'], hidle'⟩
    · exact ⟨e, mem_of_lookup hentry, by rw [hinst], hidle⟩
  case stalled =>
    intro sn hsn
    refine ⟨hstalled, fun b hb => ?_⟩
    cases hstalls with
    | named load store older =>
      rw [load, hentry] at hb
      cases hb
      rw [hinst]
      rcases hwaiting sn hsn with hsn | rfl
      · -- the load of the record that was there is younger than this one
        obtain ⟨hbefore, hle⟩ := h.stalled sn hsn
        obtain ⟨a, ha⟩ := h.record hbefore
        exact (older hbefore a ha.load).le.trans (hle a ha.load)
      · exact le_rfl
    | kept stalled load store younger =>
      obtain ⟨a, ha⟩ := h.record stalled
      obtain ⟨c, hc, hinst', -⟩ := hloads _ a ha.load (.inl ha.idle)
      rw [load, hc] at hb
      cases hb
      rw [hinst']
      rcases hwaiting sn hsn with hsn | rfl
      · exact (h.stalled sn hsn).2 a ha.load
      · exact younger a ha.load

theorem Inv.executeLoad (h : Inv m)
    (hplaced : (m.step p (.call (.executeLoad idx outcome isAtCommit accepted))).Placed)
    (he : m.Expected p (.executeLoad idx outcome isAtCommit accepted))
    (hs : m.Steady (.call (.executeLoad idx outcome isAtCommit accepted))) :
    Inv (m.step p (.call (.executeLoad idx outcome isAtCommit accepted))) := by
  obtain ⟨ld, hld, hwaits, -⟩ := he
  have hld : m.unit.loadAt idx = some ld := hld
  have hstores := sameStores_executeLoad (p := p) (u := m.unit) idx outcome isAtCommit accepted
  -- nothing happens: no load is rescheduled either
  have hsame : m.unit.executeLoad p idx outcome isAtCommit accepted = m.unit →
      m.rescheduled idx outcome isAtCommit = none →
      Inv (m.step p (.call (.executeLoad idx outcome isAtCommit accepted))) := by
    intro heq hnone
    have hstep : m.step p (.call (.executeLoad idx outcome isAtCommit accepted)) = m := by
      simp only [Stage.step, Lsq.step, replay, heq, hnone, Option.toList_none, List.append_nil]
    rw [hstep]
    exact h
  -- the load gets past the stores, so that it is not that of the record
  have hpassed : SameRecord m.unit (m.unit.executeLoad p idx outcome isAtCommit accepted) →
      (∀ sn, m.rescheduled idx outcome isAtCommit ≠ some (sn, .covered)) → outcome ≠ .delayed →
      (∀ i a, i ≠ idx → m.unit.loadAt i = some a →
        ∃ b, (m.unit.executeLoad p idx outcome isAtCommit accepted).loadAt i = some b ∧ b.key = a.key) →
      Inv (m.step p (.call (.executeLoad idx outcome isAtCommit accepted))) := by
    intro hrecord hnot hdelayed hloads
    refine h.passed hld hwaits ?_ hplaced ⟨hrecord, fun _ => hstores.queued⟩ ?_ hloads
    · intro hstalled heq
      obtain ⟨⟨sn, c⟩, hsn, rfl⟩ := Option.map_eq_some_iff.mp (hs hstalled heq hdelayed)
      exact hnot sn hsn
    · intro sn hsn
      rcases List.mem_append.mp hsn with hsn | hsn
      · exact hsn
      · exact absurd (Option.mem_toList.mp hsn) (hnot sn)
  by_cases hdelayed : outcome = .delayed
  · subst hdelayed
    exact hsame (executeLoad_delayed _) (by simp [rescheduled, hld])
  rcases executeLoad_cases (p := p) m.unit idx outcome isAtCommit accepted with
    ⟨hnone, heq⟩ | ⟨ld', hld', hex, hkind, heq⟩ | ⟨ld', hld', hex, hre, rfl, -⟩
  · have hex := (hnone ld hld).resolve_right hdelayed
    exact hsame heq (by simp [rescheduled, hld, hex])
  · refine hpassed (by rw [heq]; exact rfl) (fun sn hsn => ?_) hdelayed ?_
    · rcases hkind with hkind | hkind <;> simp [rescheduled, hld', hkind] at hsn
    · intro i a hi ha
      exact ⟨a, by rw [heq, loadAt_modifyLoad hld', if_neg hi, ha], rfl⟩
  cases hld.symm.trans hld'
  have hfollows : Follows (m.unit.access idx isAtCommit accepted)
      (m.unit.executeLoad p idx .accessed isAtCommit accepted) :=
    follows_access h.placed.loads hld hex hre
  have hresched : m.rescheduled idx .accessed isAtCommit = _ := rescheduled_eq hld hex hre
  by_cases hcovered : ∃ k, m.unit.readResult idx ld isAtCommit = .rescheduled k
  · obtain ⟨k, hread⟩ := hcovered
    obtain ⟨st, hst, hlow, hhigh⟩ := storeAt_of_rescheduled hread
    obtain ⟨hstalled, -, hstalls⟩ := stalls_access accepted hld hread hst
    rw [hread] at hresched
    refine h.covered hld hplaced hst hlow hhigh hstores (hfollows.record.stalled.trans hstalled)
      (hstalls.congr hfollows.record) ?_ fun i a ha hidle => ?_
    · simp only [Stage.step, replay, hresched, Option.toList_some]
    -- the load itself is idle after the access, the others are as before
    have hat : (m.unit.access idx isAtCommit accepted).loadAt i = _ := loadAt_access hld i
    split at hat
    · next hi =>
      subst hi
      cases ha.symm.trans hld
      obtain ⟨b, hb, hkey⟩ := hfollows.entries.loadAt hat
      have hinst : b.inst = ld.inst := (congrArg Prod.fst hkey).trans inst_accessed
      refine ⟨b, hb, hinst, LQEntry.Idle.of_key ?_ hkey⟩
      rw [accessed, hread]
      exact ⟨hex, rfl⟩
    · next hi =>
      obtain ⟨b, hb, hkey⟩ := hfollows.entries.loadAt (hat.trans ha)
      exact ⟨b, hb, congrArg Prod.fst hkey, (hidle.resolve_right hi).of_key hkey⟩
  · have hnot : ∀ k, m.unit.readResult idx ld isAtCommit ≠ .rescheduled k :=
      fun k hk => hcovered ⟨k, hk⟩
    refine hpassed ((sameRecord_access hld hnot).trans hfollows.record) (fun sn hsn => ?_) hdelayed ?_
    · rw [hresched] at hsn
      split at hsn
      · cases hsn
      · next hk => exact hnot _ hk
      · cases hsn
    · intro i a hi ha
      exact hfollows.entries.loadAt (((loadAt_access hld i).trans (if_neg hi)).trans ha)

end

section
variable {idx : Nat} {inst : DynInst} {youngest_inst squashed_num : InstSeqNum}

theorem mem_replay_ite {c : Prop} [Decidable c] {sn : InstSeqNum}
    (h : (sn, Cause.covered) ∈ if c then m.instsToReplay else []) :
    (sn, Cause.covered) ∈ m.instsToReplay := by
  split at h
  · exact h
  · cases h

section

variable (h : Inv m)
include h

theorem Inv.insertLoad (hplaced : (m.step p (.call (.insertLoad inst))).Placed) :
    Inv (m.step p (.call (.insertLoad inst))) := by
  have hstands : Stands m.unit (m.unit.insertLoad p inst) := ⟨rfl, fun _ => id⟩
  refine h.frame hplaced hstands (fun _ => mem_replay_ite) ?_
  intro i a ha hidle _
  have hlt : i < m.unit.loadEnd := (bounds_of_lookup ha).2
  exact ⟨a, by rw [Stage.step]; exact (loadAt_insertLoad inst i).trans ((if_neg hlt.ne).trans ha),
    rfl, hidle⟩

theorem Inv.insertStore (hplaced : (m.step p (.call (.insertStore inst))).Placed) :
    Inv (m.step p (.call (.insertStore inst))) := by
  have hstands : Stands m.unit (m.unit.insertStore p inst) := by
    refine ⟨rfl, fun _ => ?_⟩
    rintro ⟨j, st, hj, hst, hsn⟩
    have hlt : j < m.unit.storeEnd := (bounds_of_lookup hst).2
    exact ⟨j, st, hj, by rw [storeAt_insertStore, if_neg hlt.ne, hst], hsn⟩
  refine h.frame hplaced hstands (fun _ => mem_replay_ite) ?_
  exact fun i a ha hidle _ => ⟨a, ha, rfl, hidle⟩

theorem Inv.writeback (hplaced : (m.step p (.call (.writeback idx))).Placed)
    (he : m.Expected p (.writeback idx)) : Inv (m.step p (.call (.writeback idx))) := by
  obtain ⟨ld, hld, hvalid, -⟩ := he
  have hstands : Stands m.unit (m.unit.writeback idx) := ⟨rfl, fun _ => id⟩
  have hat := loadAt_modifyLoad hld fun ld => { ld with isExecuted := true }
  refine h.frame hplaced hstands (fun _ => mem_replay_ite) fun i a ha hidle _ => ?_
  -- a load whose data are there is not idle
  have hne : i ≠ idx := by
    rintro rfl
    cases ha.symm.trans hld
    exact absurd hvalid (by simp [hidle.effAddrValid])
  exact ⟨a, ((hat i).trans (if_neg hne)).trans ha, rfl, hidle⟩

theorem Inv.commit (hplaced : (m.step p (.call (.commit youngest_inst))).Placed)
    (he : m.Expected p (.commit youngest_inst)) : Inv (m.step p (.call (.commit youngest_inst))) := by
  have hstands : Stands m.unit ((m.unit.commitStores youngest_inst).commitLoads youngest_inst) :=
    (remarked_commitStores h.placed.stores youngest_inst).stands.trans ⟨rfl, fun _ => id⟩
  refine h.frame hplaced hstands (fun _ => mem_replay_ite) fun i a ha hidle _ => ?_
  have hlt : youngest_inst < a.inst.seqNum := by
    by_contra hle
    have hex := (he.2 a (mem_of_lookup ha) (Nat.le_of_not_lt hle)).1
    exact absurd hex (by simp [hidle.isExecuted])
  exact ⟨a, loadAt_commitLoads_of_lt (u := m.unit.commitStores youngest_inst) ha hlt, rfl, hidle⟩

theorem Inv.record_squashLoads (squashed_num : InstSeqNum) :
    (squashLoads squashed_num m.unit.loadQueue.reverse m.unit).stalled = false ∧
        (∀ sn, (sn, Cause.covered) ∈ m.instsToReplay → squashed_num < sn) ∨
      SameRecord m.unit (squashLoads squashed_num m.unit.loadQueue.reverse m.unit) ∧
        ∃ ld, m.unit.Recorded ld ∧ ld.inst.seqNum ≤ squashed_num := by
  have hreverse : m.unit.loadQueue = m.unit.loadQueue.reverse.reverse := (List.reverse_reverse _).symm
  cases hstalled : m.unit.stalled with
  | false =>
    refine .inl ⟨stalled_squashLoads _ hstalled, fun sn hsn => ?_⟩
    exact absurd (h.stalled sn hsn).1 (by simp [hstalled])
  | true =>
    obtain ⟨ld, hrecorded⟩ := h.record hstalled
    rcases Nat.lt_or_ge squashed_num ld.inst.seqNum with hlt | hle
    · have hsorted : m.unit.loadQueue.reverse.Pairwise (·.inst.seqNum > ·.inst.seqNum) :=
        List.pairwise_reverse.mpr h.placed.loads.pairwise
      refine .inl ⟨stalled_squashLoads_of_lt _ hreverse hsorted hrecorded.load hlt, fun sn hsn => ?_⟩
      exact hlt.trans_le ((h.stalled sn hsn).2 ld hrecorded.load)
    · exact .inr ⟨sameRecord_squashLoads _ hreverse hrecorded.load hle, ld, hrecorded, hle⟩

theorem Inv.squash (hplaced : (m.step p (.call (.squash squashed_num))).Placed) :
    Inv (m.step p (.call (.squash squashed_num))) := by
  have hsame := sameRecord_squash m.unit squashed_num
  have hwaiting : ∀ sn, (sn, Cause.covered) ∈ m.instsToReplay.filter (·.1 ≤ squashed_num) →
      (sn, Cause.covered) ∈ m.instsToReplay ∧ sn ≤ squashed_num := by
    intro sn hsn
    simpa using hsn
  rcases h.record_squashLoads squashed_num with ⟨hclear, hyoung⟩ | ⟨hrecord, ld, hrecorded, hle⟩
  · refine Inv.cleared hplaced (hsame.stalled.trans hclear) fun sn hsn => ?_
    obtain ⟨hsn, hkept⟩ := hwaiting sn hsn
    exact absurd hkept (hyoung sn hsn).not_ge
  have hstands : Stands m.unit (m.unit.squash squashed_num) := by
    refine ⟨hrecord.trans hsame, fun _ => ?_⟩
    rintro ⟨j, st, hj, hst, hsn⟩
    have hspared : spared squashed_num st = true := by
      have hlt : st.inst.seqNum < ld.inst.seqNum := hsn ▸ hrecorded.older
      simp [spared, hlt.le.trans hle]
    obtain ⟨_, _, _, _, heq⟩ := squash_eq m.unit squashed_num
    exact ⟨j, st, by rw [heq]; exact hj, storeAt_squash hst hspared, hsn⟩
  refine h.frame hplaced hstands (fun sn hsn => (hwaiting sn hsn).1) fun i a ha hidle hneeded => ?_
  have hkept : a.inst.seqNum ≤ squashed_num := by
    rcases hneeded with ⟨-, rfl⟩ | hsn
    · cases ha.symm.trans hrecorded.load
      exact hle
    · exact (hwaiting _ hsn).2
  exact ⟨a, loadAt_squash_of_le ha hkept, rfl, hidle⟩

theorem Inv.storeCall_refl : StoreCall m.unit m.unit :=
  ⟨h.placed.stores, .refl _, .inl ⟨rfl, fun _ => id⟩⟩

theorem Inv.step {s : Signal} (he : m.Allowed p s) (hs : m.Steady s) : Inv (m.step p s) := by
  cases s with
  | strictlyOrderedLoad sn =>
    refine h.frame h.placed ⟨.refl _, fun _ => id⟩ (fun _ hsn => by cases hsn) ?_
    exact fun i a ha hidle _ => ⟨a, ha, rfl, hidle⟩
  | call e =>
    obtain ⟨hstores, hexp⟩ := he
    have hplaced : (m.step p (.call e)).Placed := by
      refine h.placed.step hstores ?_ ?_
      · rintro inst (rfl | rfl)
        · exact hexp.1
        · exact hexp
      · rintro inst rfl
        exact hs
    have hrefl := h.storeCall_refl
    have hback := writesBack_storeCall (p := p) m.unit h.placed.noPrefetch
    cases e with
    | insertLoad inst => exact h.insertLoad hplaced
    | insertStore inst => exact h.insertStore hplaced
    | executeLoad idx outcome isAtCommit accepted => exact h.executeLoad hplaced hexp hs
    | executeStore idx outcome =>
      exact h.storeCall hplaced (.inl (stands_executeStore idx outcome))
        (sameEntries_executeStore h.placed.loads outcome) rfl
    | recvData idx offset byte =>
      refine h.storeCall hplaced (.inl ⟨rfl, fun _ => id⟩) (sameEntries_modifyLoad fun ld => ?_) rfl
      split <;> rfl
    | writeback idx => exact h.writeback hplaced hexp
    | getMemDepViolator => exact h.storeCall hplaced (.inl ⟨rfl, fun _ => id⟩) ⟨rfl, rfl⟩ rfl
    | checkSnoop addr =>
      have hrecord : SameRecord m.unit (m.unit.checkSnoop p addr) := by
        unfold LSQUnit.checkSnoop
        split <;> exact rfl
      exact h.storeCall hplaced (.inl ⟨hrecord, fun _ => (sameStores_checkSnoop addr).queued⟩)
        (sameEntries_checkSnoop addr) rfl
    | commit youngest_inst => exact h.commit hplaced hexp
    | writebackStores blocked answers =>
      exact h.storeCall hplaced (hback.writebackStores hrefl blocked answers).record
        (sameLoads_writebackStores blocked answers).entries rfl
    | recvRetry blocked =>
      exact h.storeCall hplaced (hback.blockedStore hrefl blocked).record
        (sameLoads_writebackBlockedStore blocked).entries rfl
    | completeStore idx =>
      obtain ⟨st, hst, hidx, -⟩ := hstores
      exact h.storeCall hplaced (record_completeStore h.placed.stores hst hidx)
        (sameLoads_completeStore idx).entries rfl
    | squash squashed_num => exact h.squash hplaced

end

end

/-- What the record says holds, whoever waits for a store has a record, and the panic of
`squash` is not reached. -/
structure Valid (m : Stage) : Prop where
  record : m.unit.stalled = true → ∃ ld, m.unit.loadAt m.unit.stallingLoadIdx = some ld ∧
    m.unit.stallingStoreIsn < ld.inst.seqNum ∧ m.unit.Queued m.unit.stallingStoreIsn
  waiting : ∀ sn, (sn, Cause.covered) ∈ m.instsToReplay → m.unit.stalled = true ∧
    ∃ ld ∈ m.unit.loadQueue, ld.inst.seqNum = sn ∧ ld.isExecuted = false
  squash : ∀ squashed_num, (m.unit.squash squashed_num).asserted = m.unit.asserted

theorem Inv.asserted_squash (h : Inv m) (squashed_num : InstSeqNum) :
    (m.unit.squash squashed_num).asserted = m.unit.asserted := by
  obtain ⟨_, _, _, hloads⟩ := squashLoads_eq squashed_num (u := m.unit) m.unit.loadQueue.reverse
    (List.reverse_reverse _).symm
  rw [LSQUnit.squash]
  rw [asserted_squashStores]
  · rw [hloads]
  -- a store that is squashed is younger than the store of a record that is left
  intro hstalled
  rcases h.record_squashLoads squashed_num with ⟨hclear, -⟩ | ⟨hrecord, ld, hrecorded, hle⟩
  · exact absurd hstalled (by simp [hclear])
  · exact Nat.le_trans hrecord.stallingStoreIsn.le
      (hrecorded.older.le.trans hle)

theorem Inv.valid (h : Inv m) : m.Valid where
  record := by
    intro hstalled
    obtain ⟨ld, hrecorded⟩ := h.record hstalled
    exact ⟨ld, hrecorded.load, hrecorded.older, hrecorded.store⟩
  waiting := by
    intro sn hsn
    obtain ⟨ld, hmem, hseq, hidle⟩ := h.waiting sn hsn
    exact ⟨(h.stalled sn hsn).1, ld, hmem, hseq, hidle.isExecuted⟩
  squash := h.asserted_squash

theorem Inv.replays (h : Inv m) {s : Signal} (he : m.Allowed p s) :
    (m.step p s).unit.replays = m.unit.replays ∨ Unstalled m.unit (m.step p s).unit := by
  cases s with
  | strictlyOrderedLoad sn => exact .inl rfl
  | call e =>
    obtain ⟨hstores, -⟩ := he
    have hrefl := h.storeCall_refl
    have hback := writesBack_storeCall (p := p) m.unit h.placed.noPrefetch
    have hcall : ∀ {v : LSQUnit}, Stands m.unit v ∨ Unstalled m.unit v →
        v.replays = m.unit.replays ∨ Unstalled m.unit v :=
      fun hv => hv.imp (fun hstands => hstands.same.replays) id
    cases e with
    | insertLoad inst => exact .inl rfl
    | insertStore inst => exact .inl rfl
    | executeLoad idx outcome isAtCommit accepted => exact .inl (replays_executeLoad ..)
    | executeStore idx outcome => exact .inl (stands_executeStore idx outcome).same.replays
    | recvData idx offset byte => exact .inl rfl
    | writeback idx => exact .inl rfl
    | getMemDepViolator => exact .inl rfl
    | checkSnoop addr =>
      refine .inl ?_
      change (m.unit.checkSnoop p addr).replays = _
      unfold LSQUnit.checkSnoop
      split <;> rfl
    | commit youngest_inst => exact .inl rfl
    | writebackStores blocked answers => exact hcall (hback.writebackStores hrefl blocked answers).record
    | recvRetry blocked => exact hcall (hback.blockedStore hrefl blocked).record
    | completeStore idx =>
      obtain ⟨st, hst, hidx, -⟩ := hstores
      exact hcall (record_completeStore h.placed.stores hst hidx)
    | squash squashed_num =>
      obtain ⟨_, _, _, _, heq⟩ := squash_eq m.unit squashed_num
      refine .inl ?_
      change (m.unit.squash squashed_num).replays = _
      rw [heq]

/-- In every run in which the load of the record finds no way past the stores, the record is
valid in every state, and whatever load is replayed for a store is still queued. -/
theorem stall_record_valid (p : Params) (signals : List Signal)
    (hl : Legal (step p) (fun m s => m.Allowed p s ∧ m.Steady s) {} signals) :
    let m := run (step p) {} signals
    m.Valid ∧ ∀ s, m.Allowed p s →
      ∀ idx ∈ (m.step p s).unit.replays.drop m.unit.replays.length, ∃ ld, m.unit.loadAt idx = some ld := by
  intro m
  have h : Inv m := run_inv Inv (fun _ _ h he => h.step he.1 he.2) signals inv_start hl
  refine ⟨h.valid, fun s hs idx hidx => ?_⟩
  rcases h.replays hs with hsame | hunstalled
  · rw [hsame, List.drop_length] at hidx
    cases hidx
  · rw [hunstalled.replays, List.drop_left, List.mem_singleton] at hidx
    obtain ⟨ld, hrecorded⟩ := h.record hunstalled.before
    exact ⟨ld, hidx ▸ hrecorded.load⟩

/-- A strictly ordered load makes the stalled load execute again while its store waits. -/
theorem stall_record_valid_again :
    let p : Params := { depCheckShift := 4, lqEntries := 4, sqEntries := 4 }
    let signals : List Signal := [
      .call (.insertLoad { seqNum := 1, request := { vaddr := 4096, size := 1, isStrictlyOrdered := true } }),
      .call (.insertStore { seqNum := 2, request := { vaddr := 64, size := 4 } }),
      .call (.insertLoad { seqNum := 3, request := { vaddr := 64, size := 8 } }),
      .call (.executeLoad 1 .accessed false true), .call (.executeStore 1 .accessed),
      .call (.executeLoad 2 .accessed false true), .strictlyOrderedLoad 1,
      .call (.executeLoad 2 .accessed false true), .call (.executeLoad 1 .accessed true true),
      .call (.recvData 1 0 7), .call (.writeback 1), .call (.commit 2)]
    let m := run (step p) {} signals
    Legal (step p) (fun m s => m.Allowed p s ∧ m.Steady s) {} signals ∧
      m.unit.stalled = true ∧ m.instsToReplay = [(3, .covered)] ∧ m.Valid := by
  intro p signals m
  have hl : Legal (step p) (fun m s => m.Allowed p s ∧ m.Steady s) {} signals := by decide +kernel
  exact ⟨hl, by decide +kernel, by decide +kernel, (stall_record_valid p signals hl).1⟩

/-- A strictly ordered load makes the stalled load execute again, which then finds a younger
store with all of its bytes and commits before the store of the record is sent. -/
theorem stall_record_stale :
    let p : Params := { depCheckShift := 4, lqEntries := 4, sqEntries := 4 }
    let signals : List Signal := [
      .call (.insertLoad { seqNum := 1, request := { vaddr := 4096, size := 1, isStrictlyOrdered := true } }),
      .call (.insertStore { seqNum := 2, request := { vaddr := 64, size := 4 } }),
      .call (.insertStore { seqNum := 3, request := { vaddr := 64, size := 8 } }),
      .call (.insertLoad { seqNum := 4, request := { vaddr := 64, size := 8 } }),
      .call (.executeLoad 1 .accessed false true), .call (.executeStore 1 .accessed),
      .call (.executeLoad 2 .accessed false true), .strictlyOrderedLoad 1,
      .call (.executeStore 2 .accessed), .call (.executeLoad 2 .accessed false true),
      .call (.writeback 2), .call (.executeLoad 1 .accessed true true), .call (.recvData 1 0 7),
      .call (.writeback 1), .call (.commit 4)]
    let m := run (step p) {} signals
    Legal (step p) (Allowed p) {} signals ∧ m.unit.stalled = true ∧
      m.unit.stallingStoreIsn = 2 ∧ m.unit.loadAt m.unit.stallingLoadIdx = none ∧
      (m.step p (.call (.writebackStores {} [{}]))).unit.replays = [m.unit.stallingLoadIdx] := by
  decide +kernel

end Stage

end Gem5Core.O3.Lsq
