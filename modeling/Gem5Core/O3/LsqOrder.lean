import Gem5Core.O3.LsqLoads

/-! Program order in the two queues. A load keeps the end of the store queue that it found, a store
that of the load queue: they divide the other queue by age. -/
namespace Gem5Core.O3.Lsq
open Pred.Branch Lib.Indexed

/-- The youngest instruction so far. -/
def Event.youngest (last : InstSeqNum) : Event → InstSeqNum
  | .insertLoad inst | .insertStore inst => inst.seqNum
  | _ => last

namespace LSQUnit

variable {p : Params} {u v w : LSQUnit}

/-- Nothing enters the queues, and nothing leaves them at the end. -/
structure SameOrder (u v : LSQUnit) : Prop where
  loadEnd : v.loadEnd = u.loadEnd
  storeEnd : v.storeEnd = u.storeEnd
  load : ∀ i b, v.loadAt i = some b → ∃ a, u.loadAt i = some a ∧ b.inst = a.inst ∧ b.sqIt = a.sqIt
  store : ∀ j b, v.storeAt j = some b → ∃ a, u.storeAt j = some a ∧ b.inst = a.inst ∧ b.lqIt = a.lqIt

theorem SameOrder.trans (h : SameOrder u v) (h' : SameOrder v w) : SameOrder u w where
  loadEnd := h'.loadEnd.trans h.loadEnd
  storeEnd := h'.storeEnd.trans h.storeEnd
  load := by
    intro i c hc
    obtain ⟨b, hb, hinst, hsq⟩ := h'.load i c hc
    obtain ⟨a, ha, hinst', hsq'⟩ := h.load i b hb
    exact ⟨a, ha, hinst.trans hinst', hsq.trans hsq'⟩
  store := by
    intro j c hc
    obtain ⟨b, hb, hinst, hlq⟩ := h'.store j c hc
    obtain ⟨a, ha, hinst', hlq'⟩ := h.store j b hb
    exact ⟨a, ha, hinst.trans hinst', hlq.trans hlq'⟩

section
variable {idx : Nat} {ld : LQEntry} {st : SQEntry}

theorem sameOrder_of_places (hlhead : v.loadHead = u.loadHead)
    (hloads : v.loadQueue.map LQEntry.place = u.loadQueue.map LQEntry.place)
    (hshead : v.storeHead = u.storeHead)
    (hstores : v.storeQueue.map SQEntry.place = u.storeQueue.map SQEntry.place) : SameOrder u v where
  loadEnd := by simpa [loadEnd, hlhead] using congrArg List.length hloads
  storeEnd := by simpa [storeEnd, hshead] using congrArg List.length hstores
  load := by
    intro i b hb
    rw [loadAt, hlhead] at hb
    obtain ⟨a, ha, hplace⟩ := lookup_of_map_eq hloads.symm hb
    exact ⟨a, ha, congrArg Prod.fst hplace.symm, congrArg Prod.snd hplace.symm⟩
  store := by
    intro j b hb
    rw [storeAt, hshead] at hb
    obtain ⟨a, ha, hplace⟩ := lookup_of_map_eq hstores.symm hb
    exact ⟨a, ha, congrArg Prod.fst hplace.symm, congrArg Prod.snd hplace.symm⟩

theorem SameStores.order (h : SameStores u v) (hhead : v.loadHead = u.loadHead)
    (hplaces : v.loadQueue.map LQEntry.place = u.loadQueue.map LQEntry.place) : SameOrder u v :=
  sameOrder_of_places hhead hplaces h.storeHead (by rw [h.storeQueue])

theorem Remarked.order (h : Remarked u v) : SameOrder u v :=
  sameOrder_of_places h.loads.loadHead (by rw [h.loads.loadQueue]) (by rw [h.eq]) h.places

theorem ReadFrame.order (h : ReadFrame u v) : SameOrder u v := h.stores.order h.loadHead h.places

theorem sameOrder_modifyLoad {f : LQEntry → LQEntry} (hf : ∀ ld, (f ld).place = ld.place) :
    SameOrder u (u.modifyLoad idx f) := (readFrame_modifyLoad f hf).order

theorem SameOrder.refl (u : LSQUnit) : SameOrder u u := SameStores.order rfl rfl rfl

theorem sameOrder_checkViolations (hw : LoadsWf u) (loadIt : Nat) (inst : DynInst) (isLoad : Bool) :
    SameOrder u (u.checkViolations p loadIt inst isLoad) :=
  (sameStores_checkViolations _ _ _).order rfl (hw.map_checkViolations loadIt inst isLoad _ fun _ => rfl)

theorem sameOrder_checkSnoop (addr : Addr) : SameOrder u (u.checkSnoop p addr) := by
  refine (sameStores_checkSnoop addr).order ?_ ?_
  · unfold checkSnoop
    split <;> rfl
  · exact map_eq_of_forall₂ _ (by rintro a b (rfl | rfl | ⟨-, rfl⟩) <;> rfl) (forall₂_checkSnoop addr)

theorem sameOrder_commitLoads (hw : LoadsWf u) (youngest_inst : InstSeqNum) :
    SameOrder u (u.commitLoads youngest_inst) where
  loadEnd := by
    have hsplit := congrArg List.length
      (List.takeWhile_append_dropWhile (p := (·.inst.seqNum ≤ youngest_inst)) (l := u.loadQueue))
    rw [List.length_append] at hsplit
    simp only [loadEnd, LSQUnit.commitLoads]
    omega
  storeEnd := rfl
  load := fun _ b hb => ⟨b, (loadAt_commitLoads hw hb).1, rfl, rfl⟩
  store := fun _ b hb => ⟨b, hb, rfl, rfl⟩

private theorem sameOrder_executeLoad (hw : LoadsWf u) (idx : Nat) (outcome : Outcome)
    (isAtCommit accepted : Bool) : SameOrder u (u.executeLoad p idx outcome isAtCommit accepted) := by
  rcases executeLoad_cases (p := p) u idx outcome isAtCommit accepted with
    ⟨-, h⟩ | ⟨ld, -, -, -, h⟩ | ⟨ld, -, -, -, -, h⟩
  · rw [h]
    exact .refl u
  · rw [h]
    exact sameOrder_modifyLoad fun _ => rfl
  · rw [h]
    split
    · exact readFrame_access.order.trans (sameOrder_checkViolations (readFrame_access.loadsWf hw) _ _ _)
    · exact readFrame_access.order

theorem SameLoads.order (h : SameLoads u v) (hend : v.storeEnd = u.storeEnd)
    (hstore : ∀ j b, v.storeAt j = some b → ∃ a, u.storeAt j = some a ∧ b.inst = a.inst ∧ b.lqIt = a.lqIt) :
    SameOrder u v where
  loadEnd := by rw [loadEnd, h.loadHead, h.loadQueue, loadEnd]
  storeEnd := hend
  load := fun i b hb => ⟨b, h.loadAt i ▸ hb, rfl, rfl⟩
  store := hstore

theorem remarked_commitStores (hw : StoresWf u) (youngest_inst : InstSeqNum) :
    Remarked u (u.commitStores youngest_inst) := by
  refine ⟨rfl, ?_⟩
  rw [LSQUnit.commitStores, markStores_eq hw.pairwise, List.map_map]
  rfl

theorem sameOrder_completeStore (hst : u.storeAt idx = some st) :
    SameOrder u (u.completeStore p idx) := by
  refine (sameLoads_completeStore idx).order (storeEnd_completeStore hst) fun j b hb => ?_
  rcases storeAt_of_completeStore hst hb with ⟨rfl, rfl⟩ | hb
  · exact ⟨st, hst, rfl, rfl⟩
  · exact ⟨b, hb, rfl, rfl⟩

private theorem sameOrder_executeStore (hw : LoadsWf u) (idx : Nat) (outcome : Outcome) :
    SameOrder u (u.executeStore p idx outcome) := by
  obtain ⟨v, hv, ⟨h, -⟩ | ⟨st, -, -, -, h⟩⟩ := executeStore_cases (p := p) u idx outcome
  · rw [h]
    exact hv.order
  · rw [h]
    exact hv.order.trans (sameOrder_checkViolations (hv.loads.loadsWf hw) _ _ _)

theorem writesBack_order (start : LSQUnit) :
    WritesBack p fun u => StoresWf u ∧ SameOrder start u where
  wf := fun u hu => hu.1
  touch := by
    intro u st asserted ⟨hwf, hu⟩ hst hcan
    have h := remarked_modifyStore { u with asserted } u.storeWBIt ({ · with committed := true })
      fun _ => rfl
    exact ⟨((writesBack_stay (p := p) u).touch u st asserted ⟨hwf, .refl u⟩ hst hcan).wf,
      hu.trans { h.order with }⟩
  finish := by
    intro u st ⟨hwf, hu⟩ hst hcan hblocked hkind
    have h := sameOrder_completeStore (p := p) (u := u.moveWBIt (u.storeWBIt + 1)) hst
    exact ⟨((writesBack_stay u).finish u st ⟨hwf, .refl u⟩ hst hcan hblocked hkind).wf,
      hu.trans { h with }⟩
  skip := by
    intro u st ⟨hwf, hu⟩ hst hcan hblocked hprefetch
    exact ⟨((writesBack_stay (p := p) u).skip u st ⟨hwf, .refl u⟩ hst hcan hblocked hprefetch).wf,
      { hu with }⟩
  send := by
    intro u st ⟨hwf, hu⟩ hst hcan
    refine ⟨((writesBack_stay u).send u st ⟨hwf, .refl u⟩ hst hcan).wf, ?_⟩
    rw [storePostSend_eq (u := u.setBlocked false) hst]
    exact { hu with }
  block := by
    intro u st ⟨hwf, hu⟩ hst hcan
    exact ⟨((writesBack_stay (p := p) u).block u st ⟨hwf, .refl u⟩ hst hcan).wf, { hu with }⟩

/-- What a call does to the queues: it enters an instruction, squashes, or keeps their order. -/
theorem step_cases (hstores : StoresWf u) (hloads : LoadsWf u) {e : Event}
    (he : StoresAllowed p u e) :
    ((∃ inst, e = .insertLoad inst) ∨ (∃ inst, e = .insertStore inst) ∨
      ∃ squashed_num, e = .squash squashed_num) ∨
      (∀ last, e.youngest last = last) ∧ SameOrder u (step p u e) := by
  have hrefl : StoresWf u ∧ SameOrder u u := ⟨hstores, .refl u⟩
  cases e with
  | insertLoad inst => exact .inl (.inl ⟨inst, rfl⟩)
  | insertStore inst => exact .inl (.inr (.inl ⟨inst, rfl⟩))
  | squash squashed_num => exact .inl (.inr (.inr ⟨squashed_num, rfl⟩))
  | executeLoad idx outcome isAtCommit accepted => exact .inr ⟨fun _ => rfl, sameOrder_executeLoad hloads ..⟩
  | executeStore idx outcome => exact .inr ⟨fun _ => rfl, sameOrder_executeStore hloads idx outcome⟩
  | recvData idx offset byte =>
    refine .inr ⟨fun _ => rfl, sameOrder_modifyLoad fun ld => ?_⟩
    split <;> rfl
  | writeback idx => exact .inr ⟨fun _ => rfl, sameOrder_modifyLoad fun _ => rfl⟩
  | getMemDepViolator => exact .inr ⟨fun _ => rfl, SameStores.order rfl rfl rfl⟩
  | checkSnoop addr => exact .inr ⟨fun _ => rfl, sameOrder_checkSnoop addr⟩
  | commit youngest =>
    have h : LoadsWf (u.commitStores youngest) := { hloads with }
    exact .inr ⟨fun _ => rfl,
      (remarked_commitStores hstores youngest).order.trans (sameOrder_commitLoads h youngest)⟩
  | writebackStores blocked answers =>
    exact .inr ⟨fun _ => rfl, ((writesBack_order u).writebackStores hrefl blocked answers).2⟩
  | recvRetry blocked =>
    exact .inr ⟨fun _ => rfl, ((writesBack_order u).blockedStore hrefl blocked).2⟩
  | completeStore idx =>
    obtain ⟨st, hst, -⟩ := he
    exact .inr ⟨fun _ => rfl, sameOrder_completeStore hst⟩

end

section
variable {last squashed_num : InstSeqNum} {inst : DynInst}

/-- The queues are in program order, and the stores that a load searches are those older than it. -/
structure Ordered (last : InstSeqNum) (u : LSQUnit) : Prop where
  stores : StoresWf u
  loads : LoadsWf u
  recentLoads : ∀ ld ∈ u.loadQueue, ld.inst.seqNum ≤ last
  recentStores : ∀ st ∈ u.storeQueue, st.inst.seqNum ≤ last
  sqHigh : ∀ i ld, u.loadAt i = some ld → ld.sqIt ≤ u.storeEnd
  split : ∀ i ld j st, u.loadAt i = some ld → u.storeAt j = some st →
    (j < ld.sqIt ↔ st.inst.seqNum < ld.inst.seqNum)

/-- The loads that a store looks at are those younger than it. -/
structure Divided (u : LSQUnit) : Prop where
  lqHigh : ∀ j st, u.storeAt j = some st → st.lqIt ≤ u.loadEnd
  split : ∀ i ld j st, u.loadAt i = some ld → u.storeAt j = some st →
    (st.lqIt ≤ i ↔ st.inst.seqNum < ld.inst.seqNum)

theorem ordered_start : Ordered 0 {} where
  stores := storesWf_start
  loads := ⟨.nil, fun _ h => by cases h⟩
  recentLoads := by simp
  recentStores := by simp
  sqHigh := by simp [loadAt, lookup]
  split := by simp [loadAt, lookup]

theorem divided_start : Divided {} where
  lqHigh := by simp [storeAt, lookup]
  split := by simp [loadAt, lookup]

theorem mem_insertLoad {ld : LQEntry} (h : ld ∈ (u.insertLoad p inst).loadQueue) :
    ld ∈ u.loadQueue ∨ ld = { inst, sqIt := u.storeEnd } :=
  (List.mem_append.mp h).imp id List.mem_singleton.mp

theorem mem_insertStore {st : SQEntry} (h : st ∈ (u.insertStore p inst).storeQueue) :
    st ∈ u.storeQueue ∨ st = { inst, lqIt := u.loadEnd } :=
  (List.mem_append.mp h).imp id List.mem_singleton.mp

theorem loadAt_of_insertLoad {i : Nat} {ld : LQEntry} (h : (u.insertLoad p inst).loadAt i = some ld) :
    i = u.loadEnd ∧ ld = { inst, sqIt := u.storeEnd } ∨ u.loadAt i = some ld := by
  rw [loadAt_insertLoad] at h
  exact (some_of_ite h).imp id And.right

theorem storeAt_of_insertStore {j : Nat} {st : SQEntry} (h : (u.insertStore p inst).storeAt j = some st) :
    j = u.storeEnd ∧ st = { inst, lqIt := u.loadEnd } ∨ u.storeAt j = some st := by
  rw [storeAt_insertStore] at h
  exact (some_of_ite h).imp id And.right

section

variable (h : Ordered last u)
include h

theorem Ordered.of_entries (hstores : StoresWf v) (hloads : LoadsWf v)
    (hend : ∀ i ld, v.loadAt i = some ld → ld.sqIt ≤ v.storeEnd)
    (hload : ∀ i b, v.loadAt i = some b → ∃ a, u.loadAt i = some a ∧ b.inst = a.inst ∧ b.sqIt = a.sqIt)
    (hstore : ∀ j b, v.storeAt j = some b → ∃ a, u.storeAt j = some a ∧ b.inst = a.inst) :
    Ordered last v where
  stores := hstores
  loads := hloads
  recentLoads := by
    intro b hb
    obtain ⟨i, hi⟩ := exists_lookup_of_mem v.loadHead hb
    obtain ⟨a, ha, hinst, -⟩ := hload i b hi
    exact hinst ▸ h.recentLoads a (mem_of_lookup ha)
  recentStores := by
    intro b hb
    obtain ⟨j, hj⟩ := exists_lookup_of_mem v.storeHead hb
    obtain ⟨a, ha, hinst⟩ := hstore j b hj
    exact hinst ▸ h.recentStores a (mem_of_lookup ha)
  sqHigh := hend
  split := by
    intro i b j c hb hc
    obtain ⟨a, ha, hinst, hsq⟩ := hload i b hb
    obtain ⟨st, hst, hinst'⟩ := hstore j c hc
    rw [hinst, hinst', hsq]
    exact h.split i a j st ha hst

theorem Ordered.same (ho : SameOrder u v) (hstores : StoresWf v) (hloads : LoadsWf v) :
    Ordered last v := by
  refine h.of_entries hstores hloads (fun i b hb => ?_) ho.load fun j b hb => ?_
  · obtain ⟨a, ha, -, hsq⟩ := ho.load i b hb
    rw [hsq, ho.storeEnd]
    exact h.sqHigh i a ha
  · obtain ⟨a, ha, hinst, -⟩ := ho.store j b hb
    exact ⟨a, ha, hinst⟩

theorem Ordered.insertLoad (hnew : last < inst.seqNum) :
    Ordered inst.seqNum (u.insertLoad p inst) where
  stores := (SameStores.stay (u := u) (v := u.insertLoad p inst) rfl h.stores).wf
  loads := h.loads.insertLoad fun ld hld => (h.recentLoads ld hld).trans_lt hnew
  recentLoads := by
    intro ld hld
    rcases mem_insertLoad hld with hld | rfl
    · exact ((h.recentLoads ld hld).trans_lt hnew).le
    · exact le_rfl
  recentStores := fun st hst => ((h.recentStores st hst).trans_lt hnew).le
  sqHigh := by
    intro i ld hld
    rcases loadAt_of_insertLoad hld with ⟨-, rfl⟩ | hld
    · exact le_rfl
    · exact h.sqHigh i ld hld
  split := by
    intro i ld j st hld hst
    rcases loadAt_of_insertLoad hld with ⟨-, rfl⟩ | hld
    · exact iff_of_true (bounds_of_lookup hst).2 ((h.recentStores st (mem_of_lookup hst)).trans_lt hnew)
    · exact h.split i ld j st hld hst

theorem Ordered.insertStore (hnew : last < inst.seqNum) :
    Ordered inst.seqNum (u.insertStore p inst) where
  stores := (h.stores.insertStore fun st hst => (h.recentStores st hst).trans_lt hnew).wf
  loads := { h.loads with }
  recentLoads := fun ld hld => ((h.recentLoads ld hld).trans_lt hnew).le
  recentStores := by
    intro st hst
    rcases mem_insertStore hst with hst | rfl
    · exact ((h.recentStores st hst).trans_lt hnew).le
    · exact le_rfl
  sqHigh := by
    intro i ld hld
    have := h.sqHigh i ld hld
    simp only [storeEnd, LSQUnit.insertStore, List.length_append] at this ⊢
    omega
  split := by
    intro i ld j st hld hst
    rcases storeAt_of_insertStore hst with ⟨rfl, rfl⟩ | hst
    · exact iff_of_false (h.sqHigh i ld hld).not_gt
        ((h.recentLoads ld (mem_of_lookup hld)).trans_lt hnew).not_gt
    · exact h.split i ld j st hld hst

theorem Ordered.squash (squashed_num : InstSeqNum) : Ordered last (u.squash squashed_num) := by
  refine h.of_entries (h.stores.squash squashed_num).wf (h.loads.squash squashed_num) ?_ ?_ ?_
  · intro i ld hld
    obtain ⟨hld, hle⟩ := loadAt_squash h.loads hld
    refine le_storeEnd_squash (h.sqHigh i ld hld) fun st hst hlt => ?_
    have holder := (h.split i ld _ st hld hst).mp (Nat.sub_one_lt_of_lt hlt)
    simp [spared, holder.le.trans hle]
  · exact fun i b hb => ⟨b, (loadAt_squash h.loads hb).1, rfl, rfl⟩
  · exact fun j b hb => ⟨b, storeAt_of_squash hb, rfl⟩

theorem Ordered.step {e : Event} (he : StoresAllowed p u e)
    (hnew : ∀ inst, e = .insertLoad inst ∨ e = .insertStore inst → last < inst.seqNum) :
    Ordered (e.youngest last) (step p u e) := by
  rcases step_cases h.stores h.loads he with
    (⟨inst, rfl⟩ | ⟨inst, rfl⟩ | ⟨squashed_num, rfl⟩) | ⟨hlast, hsame⟩
  · exact h.insertLoad (hnew inst (.inl rfl))
  · exact h.insertStore (hnew inst (.inr rfl))
  · exact h.squash squashed_num
  · rw [hlast]
    exact h.same hsame (h.stores.step he).wf (h.loads.step fun inst heq ld hld =>
      (h.recentLoads ld hld).trans_lt (hnew inst (.inl heq)))

end

theorem StoresWf.mem_squash (hw : StoresWf u) {st : SQEntry}
    (hcommitted : ∀ st ∈ u.storeQueue, st.canWB = true → st.inst.seqNum ≤ squashed_num)
    (hst : st ∈ (u.squash squashed_num).storeQueue) :
    st ∈ u.storeQueue ∧ st.inst.seqNum ≤ squashed_num := by
  rw [hw.storeQueue_squash, List.mem_filter] at hst
  refine ⟨hst.1, ?_⟩
  rcases Bool.or_eq_true_iff.mp hst.2 with h | h
  · exact of_decide_eq_true h
  · exact hcommitted st hst.1 h

section

variable (h : Divided u)
include h

theorem Divided.same (ho : SameOrder u v) : Divided v where
  lqHigh := by
    intro j b hb
    obtain ⟨a, ha, -, hlq⟩ := ho.store j b hb
    rw [hlq, ho.loadEnd]
    exact h.lqHigh j a ha
  split := by
    intro i b j c hb hc
    obtain ⟨a, ha, hinst, -⟩ := ho.load i b hb
    obtain ⟨st, hst, hinst', hlq⟩ := ho.store j c hc
    rw [hinst, hinst', hlq]
    exact h.split i a j st ha hst

variable (ho : Ordered last u)
include ho

theorem Divided.insertLoad (hnew : last < inst.seqNum) : Divided (u.insertLoad p inst) where
  lqHigh := by
    intro j st hst
    have := h.lqHigh j st hst
    simp only [loadEnd, LSQUnit.insertLoad, List.length_append] at this ⊢
    omega
  split := by
    intro i ld j st hld hst
    rcases loadAt_of_insertLoad hld with ⟨rfl, rfl⟩ | hld
    · exact iff_of_true (h.lqHigh j st hst) ((ho.recentStores st (mem_of_lookup hst)).trans_lt hnew)
    · exact h.split i ld j st hld hst

theorem Divided.insertStore (hnew : last < inst.seqNum) : Divided (u.insertStore p inst) where
  lqHigh := by
    intro j st hst
    rcases storeAt_of_insertStore hst with ⟨-, rfl⟩ | hst
    · exact le_rfl
    · exact h.lqHigh j st hst
  split := by
    intro i ld j st hld hst
    rcases storeAt_of_insertStore hst with ⟨-, rfl⟩ | hst
    · exact iff_of_false (bounds_of_lookup hld).2.not_ge
        ((ho.recentLoads ld (mem_of_lookup hld)).trans_lt hnew).not_gt
    · exact h.split i ld j st hld hst

/-- A store that may write back stays in the queue: a load older than it must not leave before. -/
theorem Divided.squash (hcommitted : ∀ st ∈ u.storeQueue, st.canWB = true → st.inst.seqNum ≤ squashed_num) :
    Divided (u.squash squashed_num) where
  lqHigh := by
    intro j st hst
    have hle := (ho.stores.mem_squash hcommitted (mem_of_lookup hst)).2
    replace hst := storeAt_of_squash hst
    obtain ⟨_, _, _, _, heq⟩ := squash_eq u squashed_num
    have hhead : (u.squash squashed_num).loadHead = u.loadHead := by rw [heq]
    rcases Nat.lt_or_ge u.loadHead st.lqIt with hlt | hge
    · have hend := h.lqHigh j st hst
      obtain ⟨ld, hld⟩ : ∃ ld, u.loadAt (st.lqIt - 1) = some ld :=
        exists_lookup_of_bounds (by omega) (by rw [loadEnd] at hend; omega)
      have holder : ¬ st.inst.seqNum < ld.inst.seqNum :=
        mt (h.split _ ld j st hld hst).mpr (by omega)
      have hkept := loadAt_squash_of_le hld ((Nat.le_of_not_lt holder).trans hle)
      have := (bounds_of_lookup hkept).2
      rw [loadEnd]
      omega
    · rw [loadEnd]
      omega
  split := fun i ld j st hld hst =>
    h.split i ld j st (loadAt_squash ho.loads hld).1 (storeAt_of_squash hst)

theorem Divided.step {e : Event} (he : StoresAllowed p u e)
    (hnew : ∀ inst, e = .insertLoad inst ∨ e = .insertStore inst → last < inst.seqNum)
    (hcommitted : ∀ squashed_num, e = .squash squashed_num →
      ∀ st ∈ u.storeQueue, st.canWB = true → st.inst.seqNum ≤ squashed_num) :
    Divided (step p u e) := by
  rcases step_cases ho.stores ho.loads he with
    (⟨inst, rfl⟩ | ⟨inst, rfl⟩ | ⟨squashed_num, rfl⟩) | ⟨-, hsame⟩
  · exact h.insertLoad ho (hnew inst (.inl rfl))
  · exact h.insertStore ho (hnew inst (.inr rfl))
  · exact h.squash ho (hcommitted squashed_num rfl)
  · exact h.same hsame

end

end

end LSQUnit

end Gem5Core.O3.Lsq
