import Gem5Core.O3.MemDepInv

/-! Memory barriers order what is moved to the ready list: an instruction that was entered after a
barrier is among its dependents for as long as the barrier is in the unit. -/
namespace Gem5Core.O3.MemDepBarriers
open Pred.Branch StoreSets MemDep MemDepInv List
open Lib.Protocol (run Legal run_inv)

variable {assoc : Nat} {p : Params assoc} {u : MemDepUnit assoc} {sn w : InstSeqNum}

def ordersAsLoad (i : MemInst) : Bool := i.isLoad || i.isAtomic

/-- It waits for write barriers. A store is no load and no atomic: one that also reads
would wait for read barriers only. -/
def ordersAsStore (i : MemInst) : Bool := i.isStore && !i.isLoad && !i.isAtomic

/-- Every instruction of the kind `waits` that was entered through `insert` depends on every older
barrier of the kind `bars`. -/
def Bound (waits bars : MemInst → Bool) (u : MemDepUnit assoc) : Prop :=
  ∀ w, (u.entries w).viaInsert = true → waits (u.entries w).inst = true →
    ∀ b ∈ u.instList, b < w → bars (u.entries b).inst = true → w ∈ (u.entries b).dependInsts

section

variable {waits bars : MemInst → Bool}

section

variable (hb : Bound waits bars u)
include hb

theorem Bound.extended (h : Wf u) {e : MemDepEntry} {ps : List InstSeqNum} {ready : Bool}
    (hnew : u.youngest < e.inst.seqNum) (hdep : e.dependInsts = [])
    (hps : e.viaInsert = true → waits e.inst = true → ∀ b ∈ u.instList,
      bars (u.entries b).inst = true → b ∈ ps) :
    Bound waits bars (extended u e ps ready) := by
  intro w hvia hwaits b hmem hlt hbars
  have hold : b ∈ u.instList ∨ b = e.inst.seqNum := by
    simpa [MemDepInv.extended, MemDepUnit.insertBarrierSN] using hmem
  rw [mem_extended_dependInsts hdep]
  by_cases hw : w = e.inst.seqNum
  · subst hw
    have hne : b ≠ e.inst.seqNum := hlt.ne
    rw [extended_entries_new] at hvia hwaits
    rw [extended_frame hne] at hbars
    exact ⟨hne, .inr ⟨hps hvia hwaits b (hold.resolve_right hne) hbars, rfl⟩⟩
  · rw [extended_frame hw] at hvia hwaits
    -- an entry made before is older than the new instruction
    have hle : w ≤ u.youngest := by
      by_contra hgt
      have hvia : (u.entries w).viaInsert = true := hvia
      rw [h.untouched w (Nat.not_le.mp hgt)] at hvia
      cases hvia
    have hne : b ≠ e.inst.seqNum := (hlt.trans (hle.trans_lt hnew)).ne
    rw [extended_frame hne] at hbars
    exact ⟨hne, .inl (hb w hvia hwaits b (hold.resolve_right hne) hlt hbars)⟩

theorem Bound.finished (sn : InstSeqNum) : Bound waits bars (finished u sn) := by
  intro w hvia hwaits b hmem hlt hbars
  rw [finished_frame] at hvia hwaits hbars
  obtain ⟨hmem, hne⟩ := mem_filter.mp hmem
  rw [finished_dependInsts, if_neg (by simpa using hne)]
  exact hb w hvia hwaits b hmem hlt hbars

theorem Bound.cut (squashed_num : InstSeqNum) : Bound waits bars (cut u squashed_num) :=
  fun w hvia hwaits b hmem hlt hbars => hb w hvia hwaits b (mem_cut.mp hmem).1 hlt hbars

theorem Bound.readied (sn : InstSeqNum) : Bound waits bars (readied u sn) :=
  fun w hvia hwaits b hmem hlt hbars => hb w hvia hwaits b hmem hlt hbars

theorem Bound.insertStore (inst : MemInst) : Bound waits bars (u.insertStore p inst) := by
  unfold MemDepUnit.insertStore
  split <;> exact hb

end

end

variable {inst : MemInst}

private theorem found_load (h : Wf u) (hload : ordersAsLoad inst = true) {b : InstSeqNum}
    (hb : b ∈ u.instList) (hbars : (u.entries b).inst.barsLoads = true) : b ∈ found p u inst := by
  have hmem := (h.loads.2 b).mpr ⟨hb, hbars⟩
  have hsome := isEmpty_of_barring h.loads hb hbars
  unfold ordersAsLoad at hload
  refine mem_filter.mpr ⟨?_, by simpa using hb⟩
  simpa [MemDepUnit.producingStores, MemDepUnit.hasLoadBarrier, hsome, hload] using hmem

private theorem found_store (h : Wf u) (hstore : ordersAsStore inst = true) {b : InstSeqNum}
    (hb : b ∈ u.instList) (hbars : (u.entries b).inst.barsStores = true) : b ∈ found p u inst := by
  have hmem := (h.stores.2 b).mpr ⟨hb, hbars⟩
  have hsome := isEmpty_of_barring h.stores hb hbars
  simp only [ordersAsStore, Bool.and_eq_true, Bool.not_eq_true'] at hstore
  refine mem_filter.mpr ⟨?_, by simpa using hb⟩
  simpa [MemDepUnit.producingStores, MemDepUnit.hasStoreBarrier, hsome, hstore] using hmem

def WasMoved (u : MemDepUnit assoc) (w : InstSeqNum) : Prop :=
  ∃ m ∈ u.moves, m.entry.inst.seqNum = w

instance : Decidable (WasMoved u w) :=
  inferInstanceAs (Decidable (∃ m ∈ u.moves, m.entry.inst.seqNum = w))

/-- Everything that was moved or is to be replayed was entered, and moved by its
dependences if it was entered through `insert`. -/
structure Traced (u : MemDepUnit assoc) : Prop where
  entered : ∀ m ∈ u.moves, m.entry.inst.seqNum ≤ u.youngest
  origin : ∀ m ∈ u.moves, (u.entries m.entry.inst.seqNum).viaInsert = true →
    m.entry.inst.seqNum ∈ moved u
  replayed : ∀ x ∈ u.instsToReplay, WasMoved u x

theorem Traced.append (h : Traced u) {u' : MemDepUnit assoc} {moves : List Move}
    (hmoves : u'.moves = u.moves ++ moves) (hyoung : u.youngest ≤ u'.youngest)
    (hvia : ∀ x ≤ u.youngest, (u'.entries x).viaInsert = (u.entries x).viaInsert)
    (hnew : ∀ m ∈ moves, m.entry.inst.seqNum ≤ u'.youngest ∧
      ((u'.entries m.entry.inst.seqNum).viaInsert = true →
        m.cause = .dependences ∨ m.entry.inst.seqNum ∈ moved u))
    (hreplay : ∀ x ∈ u'.instsToReplay, x ∈ u.instsToReplay) : Traced u' := by
  have hmoved : ∀ x ∈ moved u, x ∈ moved u' := fun x hx => by
    simp only [moved, hmoves, filter_append, map_append, mem_append]
    exact .inl hx
  constructor
  case entered =>
    intro m hm
    rcases mem_append.mp (hmoves ▸ hm) with hm | hm
    · exact (h.entered m hm).trans hyoung
    · exact (hnew m hm).1
  case origin =>
    intro m hm hm'
    rcases mem_append.mp (hmoves ▸ hm) with hold | hadded
    · exact hmoved _ (h.origin m hold (hvia _ (h.entered m hold) ▸ hm'))
    · rcases (hnew m hadded).2 hm' with hcause | hold
      · exact mem_map_of_mem (mem_filter.mpr ⟨hm, decide_eq_true hcause⟩)
      · exact hmoved _ hold
  case replayed =>
    intro x hx
    obtain ⟨m, hm, heq⟩ := h.replayed x (hreplay x hx)
    exact ⟨m, hmoves ▸ mem_append_left _ hm, heq⟩

structure Barred (u : MemDepUnit assoc) : Prop where
  wf : Wf u
  loads : Bound ordersAsLoad MemInst.barsLoads u
  stores : Bound ordersAsStore MemInst.barsStores u
  traced : Traced u

theorem start_barred : Barred ({} : MemDepUnit assoc) where
  wf := start_wf
  loads := fun _ _ _ _ hmem => absurd hmem not_mem_nil
  stores := fun _ _ _ _ hmem => absurd hmem not_mem_nil
  traced :=
    { entered := fun _ hm => absurd hm not_mem_nil
      origin := fun _ hm => absurd hm not_mem_nil
      replayed := fun _ hx => absurd hx not_mem_nil }

namespace Barred

theorem extended_traced (h : Barred u) {e : MemDepEntry} {ps : List InstSeqNum} {ready : Bool}
    (hnew : u.youngest < e.inst.seqNum) : Traced (extended u e ps ready) := by
  refine h.traced.append rfl hnew.le (fun x hx => ?_) (fun m hm => ?_) fun _ hx => hx
  · rw [extended_frame (hx.trans_lt hnew).ne]
  · split at hm
    · obtain rfl := mem_singleton.mp hm
      exact ⟨le_rfl, fun _ => .inl rfl⟩
    · cases hm

theorem insertStore_traced (h : Traced u) (inst : MemInst) : Traced (u.insertStore p inst) := by
  unfold MemDepUnit.insertStore
  split <;> exact { h with }

section

variable (h : Barred u)
include h

section

variable (hnew : u.youngest < inst.seqNum)
include hnew

private theorem insert (href : inst.isMemRef = true) (readyToIssue : Bool) :
    Barred (u.insert p inst readyToIssue) := by
  refine ⟨insert_wf h.wf hnew href readyToIssue, ?_, ?_, ?_⟩ <;> rw [insert_eq h.wf hnew]
  · exact (h.loads.extended h.wf hnew rfl fun _ hload _ hb => found_load h.wf hload hb).insertStore
      inst
  · exact (h.stores.extended h.wf hnew rfl fun _ hstore _ hb =>
      found_store h.wf hstore hb).insertStore inst
  · exact insertStore_traced (h.extended_traced hnew) inst

theorem insertBarrier : Barred (u.insertBarrier inst) := by
  refine ⟨insertBarrier_wf h.wf hnew, ?_, ?_, ?_⟩ <;> rw [insertBarrier_eq]
  · exact h.loads.extended h.wf hnew rfl nofun
  · exact h.stores.extended h.wf hnew rfl nofun
  · exact h.extended_traced hnew

private theorem insertNonSpec (href : inst.isMemRef = true) : Barred (u.insertNonSpec p inst) := by
  obtain ⟨-, hloads, hstores, htraced⟩ := h.insertBarrier hnew
  exact ⟨insertNonSpec_wf h.wf hnew href, hloads.insertStore inst, hstores.insertStore inst,
    insertStore_traced htraced inst⟩

end

private theorem regsReady (hsn : sn ∈ u.instList) (hregs : (u.entries sn).regsReady = false) :
    Barred (u.regsReady sn) := by
  refine ⟨regsReady_wf h.wf hsn hregs, ?_, ?_, ?_⟩ <;> rw [regsReady_eq h.wf hsn]
  · exact h.loads.readied sn
  · exact h.stores.readied sn
  · refine h.traced.append rfl le_rfl (fun _ _ => rfl) (fun m hm => ?_) fun _ hx => hx
    split at hm
    · obtain rfl := mem_singleton.mp hm
      exact ⟨(h.wf.named sn).le.trans (h.wf.recent sn hsn), fun _ => .inl rfl⟩
    · cases hm

private theorem completeInst (hsn : sn ∈ u.instList) : Barred (u.completeInst sn) := by
  rw [completeInst_eq h.wf hsn]
  refine ⟨finished_wf h.wf hsn, h.loads.finished sn, h.stores.finished sn, ?_⟩
  refine h.traced.append rfl le_rfl (fun x _ => ?_) (fun m hm => ?_) fun _ hx => hx
  · rw [finished_frame]
  · obtain ⟨w, hw, rfl⟩ := mem_map.mp hm
    have hdep := (h.wf.older sn w (mem_of_mem_filter hw)).2
    exact ⟨(h.wf.named w).le.trans hdep, fun _ => .inl rfl⟩

private theorem squash (squashed_num : InstSeqNum) : Barred (u.squash squashed_num) := by
  refine ⟨squash_wf h.wf squashed_num, ?_, ?_, ?_⟩ <;> rw [squash_eq h.wf]
  · exact h.loads.cut squashed_num
  · exact h.stores.cut squashed_num
  · exact { h.traced with replayed := fun x hx => h.traced.replayed x (mem_of_mem_filter hx) }

private theorem nonSpecInstReady (hsn : sn ∈ u.instList) (hvia : (u.entries sn).viaInsert = false) :
    Barred (u.nonSpecInstReady sn) := by
  have hnamed := h.wf.named sn
  rw [MemDepUnit.nonSpecInstReady, moveToReady_eq h.wf hsn]
  refine ⟨otherMoves_wf h.wf _ (by simp), h.loads, h.stores, ?_⟩
  refine h.traced.append rfl le_rfl (fun _ _ => rfl) (fun m hm => ?_) fun _ hx => hx
  obtain rfl := mem_singleton.mp hm
  refine ⟨hnamed.le.trans (h.wf.recent sn hsn), fun hm' => ?_⟩
  simp [hnamed, hvia] at hm'

private theorem reschedule (hsn : WasMoved u sn) : Barred (u.reschedule sn) := by
  refine ⟨{ h.wf with }, h.loads, h.stores, { h.traced with replayed := fun x hx => ?_ }⟩
  rcases mem_append.mp hx with hx | hx
  · exact h.traced.replayed x hx
  · exact mem_singleton.mp hx ▸ hsn

private theorem replay (hreplay : ∀ x ∈ u.instsToReplay, x ∈ u.instList) : Barred u.replay := by
  rw [replay_eq h.wf hreplay]
  refine ⟨{ otherMoves_wf h.wf (u.instsToReplay.map fun x => ⟨u.entries x, .replay⟩)
    (by simp) with }, h.loads, h.stores, ?_⟩
  refine h.traced.append rfl le_rfl (fun _ _ => rfl) (fun m hm => ?_) nofun
  obtain ⟨x, hx, rfl⟩ := mem_map.mp hm
  rw [h.wf.named x]
  refine ⟨h.wf.recent x (hreplay x hx), fun hvia => .inr ?_⟩
  obtain ⟨m', hmoves, rfl⟩ := h.traced.replayed x hx
  exact h.traced.origin m' hmoves hvia

private theorem step {e : Event assoc} (ha : Allowed u e) : Barred (step p u e) := by
  cases e with
  | insert inst readyToIssue => exact h.insert ha.1 ha.2 readyToIssue
  | insertNonSpec inst => exact h.insertNonSpec ha.1 ha.2
  | insertBarrier barr_inst => exact h.insertBarrier ha
  | regsReady sn => exact h.regsReady ha.1 ha.2
  | nonSpecInstReady sn => exact h.nonSpecInstReady ha.1 ha.2
  | reschedule sn => exact h.reschedule ha
  | replay => exact h.replay ha
  | completeInst sn => exact h.completeInst ha
  | squash squashed_num => exact h.squash squashed_num
  | violation | issue => exact ⟨step_wf h.wf ha, h.loads, h.stores, { h.traced with }⟩

theorem not_barred {waits bars : MemInst → Bool} (hbound : Bound waits bars u) (hw : WasMoved u w)
    (hvia : (u.entries w).viaInsert = true) (hwaits : waits (u.entries w).inst = true) :
    ∀ b ∈ u.instList, b < w → bars (u.entries b).inst = false := by
  intro b hb hlt
  obtain ⟨m, hm, rfl⟩ := hw
  by_contra hbars
  have hdep := hbound _ hvia hwaits b hb hlt (Bool.not_eq_false _ ▸ hbars)
  exact h.wf.not_moved (h.wf.waits hb hdep) (h.traced.origin m hm hvia)

private theorem moved_or_waits (hw : w ∈ u.instList) (hvia : (u.entries w).viaInsert = true)
    (hregs : (u.entries w).regsReady = true) :
    w ∈ moved u ∨ ∃ q ∈ u.instList, q < w ∧ w ∈ (u.entries q).dependInsts ∧
      Reason (u.entries w) (u.entries q) := by
  by_cases hzero : (u.entries w).memDeps = 0
  · exact .inl (h.wf.ready w hw hvia hregs hzero)
  · obtain ⟨q, hq⟩ := exists_mem_of_length_pos
      (Nat.pos_of_ne_zero (h.wf.counted w hw ▸ hzero))
    obtain ⟨hmem, hdep⟩ := Wf.mem_producers.mp hq
    exact .inr ⟨q, hmem, (h.wf.older q w hdep).1, hdep, h.wf.reason q w hdep⟩

end

end Barred

/-- The instruction depends on a store in the unit that was predicted when it was entered. -/
def WaitsForPredicted (u : MemDepUnit assoc) (w : InstSeqNum) : Prop :=
  ∃ q ∈ u.instList, q = (u.entries w).predicted ∧ w ∈ (u.entries q).dependInsts ∧
    ((u.entries q).inst.isStore || (u.entries q).inst.isAtomic) = true

/-- Along every run, no load (store) that was entered through `insert` was moved to the
ready list with an older read (write) barrier or HTM command still in the unit; and one
of whose registers an event has told that they are ready, with no such barrier left, was
moved or waits for a predicted store. -/
theorem barriers_order (p : Params assoc) (events : List (Event assoc))
    (hl : Legal (step p) Allowed {} events) :
    let u := run (step p) {} events
    (∀ w, WasMoved u w → (u.entries w).viaInsert = true →
        ((u.entries w).inst.isLoad = true →
          ∀ b ∈ u.instList, b < w → (u.entries b).inst.barsLoads = false) ∧
        (ordersAsStore (u.entries w).inst = true →
          ∀ b ∈ u.instList, b < w → (u.entries b).inst.barsStores = false)) ∧
    (∀ w ∈ u.instList, (u.entries w).viaInsert = true → RegistersReady events w →
        ((u.entries w).inst.isLoad = true → (u.entries w).inst.isStore = false →
          (u.entries w).inst.isAtomic = false →
          (∀ b ∈ u.instList, b < w → (u.entries b).inst.barsLoads = false) →
          w ∈ moved u ∨ WaitsForPredicted u w) ∧
        (ordersAsStore (u.entries w).inst = true →
          (∀ b ∈ u.instList, b < w → (u.entries b).inst.barsStores = false) →
          w ∈ moved u ∨ WaitsForPredicted u w)) := by
  intro u
  have h : Barred u := run_inv Barred (fun _ _ h ha => h.step ha) events start_barred hl
  refine ⟨fun w hw hvia => ⟨fun hload => ?_, fun hstore => ?_⟩,
    fun w hw hvia hready => ?_⟩
  · exact h.not_barred h.loads hw hvia (by simp [ordersAsLoad, hload])
  · exact h.not_barred h.stores hw hvia hstore
  have hregs := (run_regsReady hl w).mpr hready
  refine ⟨fun hload hstore hatomic hnone => ?_, fun hstore hnone => ?_⟩
  · refine (h.moved_or_waits hw hvia hregs).imp_right ?_
    rintro ⟨q, hq, hlt, hdep, hreason⟩
    rcases hreason with ⟨-, hbars⟩ | ⟨hkind, -⟩ | ⟨hpred, hkind⟩
    · simp [hnone q hq hlt] at hbars
    · simp [hstore, hatomic] at hkind
    · exact ⟨q, hq, (hpred.trans (h.wf.named q)).symm, hdep, hkind⟩
  · refine (h.moved_or_waits hw hvia hregs).imp_right ?_
    rintro ⟨q, hq, hlt, hdep, hreason⟩
    simp only [ordersAsStore, Bool.and_eq_true, Bool.not_eq_true'] at hstore
    rcases hreason with ⟨hkind, -⟩ | ⟨-, hbars⟩ | ⟨hpred, hkind⟩
    · simp [hstore] at hkind
    · simp [hnone q hq hlt] at hbars
    · exact ⟨q, hq, (hpred.trans (h.wf.named q)).symm, hdep, hkind⟩

/-- The registers of the second load become ready while it waits for the first. -/
def acquireLoad : List (Event 1) :=
  [.insert { seqNum := 1, pc := 8, isLoad := true, isReadBarrier := true } true,
    .insert { seqNum := 2, pc := 12, isLoad := true } false,
    .insert { seqNum := 3, pc := 16, isStore := true } false, .regsReady 2, .completeInst 1]

theorem barriers_order_acquireLoad :
    let u := run (step oneSet) {} acquireLoad
    moved u = [1, 2] ∧ (∀ b ∈ u.instList, b < 2 → (u.entries b).inst.barsLoads = false) ∧
      (2 ∈ moved u ∨ WaitsForPredicted u 2) := by
  have hrun := barriers_order oneSet acquireLoad (by decide +kernel)
  have hnone := (hrun.1 2 (by decide +kernel) (by decide +kernel)).1 (by decide +kernel)
  have hmoved := (hrun.2 2 (by decide +kernel) (by decide +kernel) (by decide +kernel)).1
    (by decide +kernel) (by decide +kernel) (by decide +kernel) hnone
  exact ⟨by decide +kernel, hnone, hmoved⟩

end Gem5Core.O3.MemDepBarriers
