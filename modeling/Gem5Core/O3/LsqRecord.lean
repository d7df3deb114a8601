import Gem5Core.O3.LsqOrder

/-! What each call of the queues does to the stall record: the load that a store covers in
part, and the store. -/
namespace Gem5Core.O3.Lsq
open Pred.Branch Lib.Indexed

structure LQEntry.Idle (ld : LQEntry) : Prop where
  isExecuted : ld.isExecuted = false
  effAddrValid : ld.effAddrValid = false

def LQEntry.key (ld : LQEntry) : DynInst × Nat × Bool × Bool :=
  (ld.inst, ld.sqIt, ld.isExecuted, ld.effAddrValid)

theorem LQEntry.Idle.of_key {a b : LQEntry} (h : a.Idle) (hkey : b.key = a.key) : b.Idle := by
  simp only [key, Prod.mk.injEq] at hkey
  exact ⟨hkey.2.2.1.trans h.isExecuted, hkey.2.2.2.trans h.effAddrValid⟩

namespace LSQUnit

variable {p : Params} {u v w : LSQUnit}

def Queued (u : LSQUnit) (sn : InstSeqNum) : Prop :=
  ∃ j st, u.storeWBIt ≤ j ∧ u.storeAt j = some st ∧ st.inst.seqNum = sn

def record (u : LSQUnit) := (u.stalled, u.stallingStoreIsn, u.stallingLoadIdx, u.replays)

def SameRecord (u v : LSQUnit) : Prop := v.record = u.record

section

variable (h : SameRecord u v)
include h

theorem SameRecord.stalled : v.stalled = u.stalled := congrArg (·.1) h

theorem SameRecord.stallingStoreIsn : v.stallingStoreIsn = u.stallingStoreIsn := congrArg (·.2.1) h

theorem SameRecord.stallingLoadIdx : v.stallingLoadIdx = u.stallingLoadIdx := congrArg (·.2.2.1) h

theorem SameRecord.replays : v.replays = u.replays := congrArg (·.2.2.2) h

theorem SameRecord.trans (h' : SameRecord v w) : SameRecord u w := Eq.trans h' h

end

structure Stands (u v : LSQUnit) : Prop where
  same : SameRecord u v
  queued : u.stalled = true → u.Queued u.stallingStoreIsn → v.Queued u.stallingStoreIsn

structure Unstalled (u v : LSQUnit) : Prop where
  before : u.stalled = true
  stalled : v.stalled = false
  replays : v.replays = u.replays ++ [u.stallingLoadIdx]

theorem Stands.trans (h : Stands u v) (h' : Stands v w) : Stands u w where
  same := h.same.trans h'.same
  queued := by
    intro hstalled hq
    have hv := h.queued hstalled hq
    rw [← h.same.stallingStoreIsn] at hv ⊢
    exact h'.queued (h.same.stalled.trans hstalled) hv

private theorem stands_or_unstalled_trans (h : Stands u v ∨ Unstalled u v)
    (h' : Stands v w ∨ Unstalled v w) : Stands u w ∨ Unstalled u w := by
  rcases h with h | h <;> rcases h' with h' | h'
  · exact .inl (h.trans h')
  · exact .inr ⟨h.same.stalled ▸ h'.before, h'.stalled,
      by rw [h'.replays, h.same.replays, h.same.stallingLoadIdx]⟩
  · exact .inr ⟨h.before, h'.same.stalled.trans h.stalled, h'.same.replays.trans h.replays⟩
  · exact absurd h'.before (by simp [h.stalled])

theorem stands_or_unstalled {sn : InstSeqNum} (hsame : SameRecord (u.unstall sn) v)
    (hqueued : sn ≠ u.stallingStoreIsn → u.Queued u.stallingStoreIsn → v.Queued u.stallingStoreIsn) :
    Stands u v ∨ Unstalled u v := by
  by_cases hstalls : u.stalled = true ∧ sn = u.stallingStoreIsn
  · refine .inr ⟨hstalls.1, ?_, ?_⟩
    · simpa [unstall, hstalls] using hsame.stalled
    · simpa [unstall, hstalls] using hsame.replays
  · have hno : (u.stalled && sn == u.stallingStoreIsn) = false := by
      rw [← Bool.not_eq_true, Bool.and_eq_true, beq_iff_eq]
      exact hstalls
    have hnone : SameRecord u (u.unstall sn) := by
      simp [SameRecord, record, unstall, hno]
    exact .inl ⟨hnone.trans hsame, fun hstalled => hqueued fun heq => hstalls ⟨hstalled, heq⟩⟩

section
variable {idx : Nat} {st : SQEntry}

structure StoreCall (u v : LSQUnit) : Prop where
  wf : StoresWf v
  order : SameOrder u v
  record : Stands u v ∨ Unstalled u v

theorem StoreCall.trans (h : StoreCall u v) (h' : StoreCall v w) : StoreCall u w where
  wf := h'.wf
  order := h.order.trans h'.order
  record := stands_or_unstalled_trans h.record h'.record

theorem Remarked.stands (h : Remarked u v) : Stands u v := by
  refine ⟨by rw [SameRecord, h.eq]; rfl, fun _ => ?_⟩
  rintro ⟨j, a, hj, ha, hsn⟩
  obtain ⟨b, hb, hplace⟩ := lookup_of_map_eq h.places ha
  have hinst : b.inst = a.inst := congrArg Prod.fst hplace
  exact ⟨j, b, by rw [h.eq]; exact hj, by rw [h.eq]; exact hb, by rw [hinst, hsn]⟩

theorem SameStores.queued (h : SameStores u v) {sn : InstSeqNum} (hq : u.Queued sn) : v.Queued sn := by
  obtain ⟨j, st, hj, hst, hsn⟩ := hq
  exact ⟨j, st, h.storeWBIt ▸ hj, (h.storeAt j).trans hst, hsn⟩

theorem stands_executeStore (idx : Nat) (outcome : Outcome) :
    Stands u (u.executeStore p idx outcome) := by
  obtain ⟨v, hv, ⟨h, -⟩ | ⟨st, -, -, -, h⟩⟩ := executeStore_cases (p := p) u idx outcome
  · rw [h]
    exact hv.stands
  · rw [h]
    exact hv.stands.trans ⟨rfl, fun _ => id⟩

theorem sameRecord_completeStore (hst : u.storeAt idx = some st) :
    SameRecord (u.unstall st.inst.seqNum) (u.completeStore p idx) := by
  rw [completeStore_eq hst]
  exact rfl

theorem record_completeStore (hw : StoresWf u) (hst : u.storeAt idx = some st)
    (hidx : idx < u.storeWBIt) :
    Stands u (u.completeStore p idx) ∨ Unstalled u (u.completeStore p idx) := by
  refine stands_or_unstalled (sameRecord_completeStore hst) fun _ => ?_
  rintro ⟨j, a, hj, ha, hsn⟩
  exact ⟨j, a, (storeWBIt_completeStore idx).symm ▸ hj,
    (storeAt_completeStore_of_le hw hst hidx hj).trans ha, hsn⟩

private theorem record_advance (hst : u.storeAt u.storeWBIt = some st)
    (hsame : SameRecord (u.unstall st.inst.seqNum) v) (hit : v.storeWBIt = u.storeWBIt + 1)
    (hat : ∀ j, u.storeWBIt + 1 ≤ j → v.storeAt j = u.storeAt j) : Stands u v ∨ Unstalled u v := by
  refine stands_or_unstalled hsame fun hne => ?_
  rintro ⟨j, a, hj, ha, hsn⟩
  rcases Nat.eq_or_lt_of_le hj with rfl | hlt
  · cases hst.symm.trans ha
    exact absurd hsn hne
  · exact ⟨j, a, hit ▸ hlt, (hat j hlt).trans ha, hsn⟩

theorem writesBack_storeCall (start : LSQUnit)
    (hstores : ∀ st ∈ start.storeQueue, st.inst.isDataPrefetch = false) :
    WritesBack p (StoreCall start) where
  wf := fun u hu => hu.wf
  touch := by
    intro u st asserted hu hst hcan
    obtain ⟨hwf, horder⟩ :=
      (writesBack_order (p := p) u).touch u st asserted ⟨hu.wf, .refl u⟩ hst hcan
    have h := remarked_modifyStore { u with asserted } u.storeWBIt ({ · with committed := true })
      fun _ => rfl
    exact hu.trans ⟨hwf, horder, .inl { h.stands with }⟩
  finish := by
    intro u st hu hst hcan hblocked hkind
    obtain ⟨hwf, horder⟩ :=
      (writesBack_order (p := p) u).finish u st ⟨hu.wf, .refl u⟩ hst hcan hblocked hkind
    have hmoved := (hu.wf.advance hst hcan hblocked).wf
    have hsame : SameRecord (u.unstall st.inst.seqNum)
        ((u.moveWBIt (u.storeWBIt + 1)).unstall st.inst.seqNum) := rfl
    exact hu.trans ⟨hwf, horder, record_advance hst (hsame.trans (sameRecord_completeStore hst))
      (storeWBIt_completeStore _)
      fun _ hj => storeAt_completeStore_of_le hmoved hst (Nat.lt_succ_self _) hj⟩
  skip := by
    intro u st hu hst _ _ hprefetch
    obtain ⟨a, ha, hinst, -⟩ := hu.order.store _ st hst
    rw [hinst, hstores a (mem_of_lookup ha)] at hprefetch
    cases hprefetch
  send := by
    intro u st hu hst hcan
    obtain ⟨hwf, horder⟩ := (writesBack_order (p := p) u).send u st ⟨hu.wf, .refl u⟩ hst hcan
    refine hu.trans ⟨hwf, horder, ?_⟩
    rw [storePostSend_eq (u := u.setBlocked false) hst]
    exact record_advance hst rfl rfl fun _ _ => rfl
  block := by
    intro u st hu hst hcan
    obtain ⟨hwf, horder⟩ := (writesBack_order (p := p) u).block u st ⟨hu.wf, .refl u⟩ hst hcan
    exact hu.trans ⟨hwf, horder, .inl ⟨rfl, fun _ => id⟩⟩

end

section
variable {idx i k : Nat} {ld a b : LQEntry} {st : SQEntry} {isAtCommit accepted : Bool}
  {youngest_inst : InstSeqNum}

structure SameEntries (u v : LSQUnit) : Prop where
  loadHead : v.loadHead = u.loadHead
  keys : v.loadQueue.map LQEntry.key = u.loadQueue.map LQEntry.key

section

variable (h : SameEntries u v)
include h

theorem SameEntries.trans (h' : SameEntries v w) : SameEntries u w where
  loadHead := h'.loadHead.trans h.loadHead
  keys := h'.keys.trans h.keys

theorem SameEntries.loadAt (ha : u.loadAt i = some a) :
    ∃ b, v.loadAt i = some b ∧ b.key = a.key := by
  rw [LSQUnit.loadAt, h.loadHead]
  exact lookup_of_map_eq h.keys ha

end

theorem SameLoads.entries (h : SameLoads u v) : SameEntries u v where
  loadHead := h.loadHead
  keys := by rw [h.loadQueue]

theorem sameEntries_modifyLoad {f : LQEntry → LQEntry} (hf : ∀ ld, (f ld).key = ld.key) :
    SameEntries u (u.modifyLoad idx f) where
  loadHead := rfl
  keys := map_modifyLoad idx _ hf

theorem sameEntries_checkViolations (hw : LoadsWf u) (loadIt : Nat) (inst : DynInst) (isLoad : Bool) :
    SameEntries u (u.checkViolations p loadIt inst isLoad) where
  loadHead := rfl
  keys := hw.map_checkViolations loadIt inst isLoad _ fun _ => rfl

theorem sameEntries_checkSnoop (addr : Addr) : SameEntries u (u.checkSnoop p addr) where
  loadHead := by
    unfold checkSnoop
    split <;> rfl
  keys := map_eq_of_forall₂ _ (by rintro a b (rfl | rfl | ⟨-, rfl⟩) <;> rfl) (forall₂_checkSnoop addr)

theorem sameEntries_executeStore (hw : LoadsWf u) (outcome : Outcome) :
    SameEntries u (u.executeStore p idx outcome) := by
  obtain ⟨v, hv, ⟨h, -⟩ | ⟨st, -, -, -, h⟩⟩ := executeStore_cases (p := p) u idx outcome
  · rw [h]
    exact hv.loads.entries
  · rw [h]
    exact hv.loads.entries.trans (sameEntries_checkViolations (hv.loads.loadsWf hw) _ _ _)

private theorem storeAt_of_searchStores {request : Request} {n : Nat}
    (h : u.searchStores request n = .rescheduled k) :
    ∃ st, u.storeAt k = some st ∧ u.storeWBIt ≤ k ∧ k < u.storeWBIt + n := by
  induction n with
  | zero => cases h
  | succ n ih =>
    have hnext : u.searchStores request n = .rescheduled k →
        ∃ st, u.storeAt k = some st ∧ u.storeWBIt ≤ k ∧ k < u.storeWBIt + (n + 1) := by
      intro h
      obtain ⟨st, hst, hlow, hhigh⟩ := ih h
      exact ⟨st, hst, hlow, by omega⟩
    rw [searchStores] at h
    split at h
    · cases h
    · next st hst =>
      split at h
      · split at h
        · cases h
        · split at h
          · cases h
          · cases h
            exact ⟨st, hst, by omega, by omega⟩
        · exact hnext h
      · exact hnext h

theorem storeAt_of_rescheduled (h : u.readResult idx ld isAtCommit = .rescheduled k) :
    ∃ st, u.storeAt k = some st ∧ u.storeWBIt ≤ k ∧ k < ld.sqIt := by
  unfold readResult at h
  dsimp only at h
  split at h
  · cases h
  split at h
  · cases h
  split at h
  · cases h
  next hlow =>
  split at h
  · cases h
  · obtain ⟨st, hst, hle, hlt⟩ := storeAt_of_searchStores h
    exact ⟨st, hst, hle, by omega⟩

/-- The record after the load at `idx` has found the store `sn`: it names the two, or is for a load
that is not younger. -/
inductive Stalls (u v : LSQUnit) (idx : Nat) (inst : DynInst) (sn : InstSeqNum) : Prop
  | named (load : v.stallingLoadIdx = idx) (store : v.stallingStoreIsn = sn)
      (older : u.stalled = true → ∀ a, u.loadAt u.stallingLoadIdx = some a →
        inst.seqNum < a.inst.seqNum)
  | kept (stalled : u.stalled = true) (load : v.stallingLoadIdx = u.stallingLoadIdx)
      (store : v.stallingStoreIsn = u.stallingStoreIsn)
      (younger : ∀ a, u.loadAt u.stallingLoadIdx = some a → a.inst.seqNum ≤ inst.seqNum)

private theorem stalls_stall (hst : u.storeAt k = some st) (inst : DynInst) :
    Stalls u (u.stall idx inst k) idx inst st.inst.seqNum := by
  cases hold : (!u.stalled || (u.loadAt u.stallingLoadIdx).any (inst.seqNum < ·.inst.seqNum)) with
  | true =>
    refine .named (by simp [stall, hold]) (by simp [stall, hold, hst]) fun hstalled a ha => ?_
    simpa [hstalled, ha] using hold
  | false =>
    have hstalled : u.stalled = true := by
      cases h : u.stalled <;> simp [h] at hold ⊢
    refine .kept hstalled (by simp [stall, hold]) (by simp [stall, hold]) fun a ha => ?_
    simpa [hstalled, ha] using hold

theorem Stalls.congr {inst : DynInst} {sn : InstSeqNum} (h : Stalls u v idx inst sn)
    (hsame : SameRecord v w) : Stalls u w idx inst sn := by
  cases h with
  | named load store older =>
    exact .named (hsame.stallingLoadIdx.trans load) (hsame.stallingStoreIsn.trans store) older
  | kept stalled load store younger =>
    exact .kept stalled (hsame.stallingLoadIdx.trans load) (hsame.stallingStoreIsn.trans store) younger

def addressed (u : LSQUnit) (idx : Nat) : LSQUnit := u.modifyLoad idx ({ · with effAddrValid := true })

theorem addressed_reads (isAtCommit : Bool) (hld : u.loadAt idx = some ld) :
    (u.addressed idx).loadAt idx = some { ld with effAddrValid := true } ∧
      (u.addressed idx).readResult idx { ld with effAddrValid := true } isAtCommit =
        u.readResult idx ld isAtCommit :=
  ⟨(loadAt_modifyLoad hld _ idx).trans (if_pos rfl), readResult_modifyLoad _ ld⟩

theorem stalls_access (accepted : Bool) (hld : u.loadAt idx = some ld)
    (hread : u.readResult idx ld isAtCommit = .rescheduled k) (hst : u.storeAt k = some st) :
    (u.access idx isAtCommit accepted).stalled = true ∧
      (u.access idx isAtCommit accepted).replays = u.replays ∧
      Stalls u (u.access idx isAtCommit accepted) idx ld.inst st.inst.seqNum := by
  obtain ⟨hld', hread'⟩ := addressed_reads isAtCommit hld
  have heq : u.access idx isAtCommit accepted =
      ((u.addressed idx).stall idx ld.inst k).modifyLoad idx LQEntry.reschedule := by
    change (u.addressed idx).read idx isAtCommit accepted = _
    simp only [read, hld', hread', hread]
  have hsame : ∀ a, u.loadAt u.stallingLoadIdx = some a →
      ∃ b, (u.addressed idx).loadAt u.stallingLoadIdx = some b ∧ b.inst = a.inst := by
    intro a ha
    rw [addressed, loadAt_modifyLoad hld]
    split
    · next hi =>
      rw [hi, hld] at ha
      cases ha
      exact ⟨_, rfl, rfl⟩
    · exact ⟨a, ha, rfl⟩
  rw [heq]
  refine ⟨rfl, rfl, ?_⟩
  have hstalls : Stalls (u.addressed idx) _ idx ld.inst st.inst.seqNum :=
    stalls_stall (u := u.addressed idx) hst ld.inst
  cases hstalls with
  | named load store older =>
    refine .named load store fun hstalled a ha => ?_
    obtain ⟨b, hb, hinst⟩ := hsame a ha
    exact hinst ▸ older hstalled b hb
  | kept stalled load store younger =>
    refine .kept stalled load store fun a ha => ?_
    obtain ⟨b, hb, hinst⟩ := hsame a ha
    exact hinst ▸ younger b hb

theorem sameRecord_access (hld : u.loadAt idx = some ld)
    (hread : ∀ k, u.readResult idx ld isAtCommit ≠ .rescheduled k) :
    SameRecord u (u.access idx isAtCommit accepted) := by
  obtain ⟨hld', hread'⟩ := addressed_reads isAtCommit hld
  change SameRecord u ((u.addressed idx).read idx isAtCommit accepted)
  simp only [read, hld', hread']
  cases hr : u.readResult idx ld isAtCommit with
  | rescheduled k => exact absurd hr (hread k)
  | _ => exact rfl

theorem executeLoad_delayed (u : LSQUnit) :
    u.executeLoad p idx .delayed isAtCommit accepted = u := by
  unfold executeLoad
  split
  · rfl
  · split <;> rfl

theorem replays_executeLoad (u : LSQUnit) (idx : Nat) (outcome : Outcome) (isAtCommit accepted : Bool) :
    (u.executeLoad p idx outcome isAtCommit accepted).replays = u.replays := by
  have hread : ∀ u : LSQUnit, (u.read idx isAtCommit accepted).replays = u.replays := by
    intro u
    unfold read
    split
    · rfl
    · split <;> rfl
  unfold executeLoad
  split
  · rfl
  split
  · rfl
  cases outcome with
  | delayed => rfl
  | notAccessed => rfl
  | accessed =>
    dsimp only
    split
    · rfl
    · split <;> exact hread _

structure Follows (u v : LSQUnit) : Prop where
  entries : SameEntries u v
  stores : SameStores u v
  record : SameRecord u v

theorem follows_access (hw : LoadsWf u) (hld : u.loadAt idx = some ld)
    (hex : ld.isExecuted = false) (hre : ld.reExec = false) :
    Follows (u.access idx isAtCommit accepted) (u.executeLoad p idx .accessed isAtCommit accepted) := by
  rcases executeLoad_cases (p := p) u idx .accessed isAtCommit accepted with
    ⟨hnone, -⟩ | ⟨ld', hld', -, hkind, -⟩ | ⟨ld', hld', -, -, -, heq⟩
  · rcases hnone ld hld with h | h
    · exact absurd h (by simp [hex])
    · cases h
  · cases hld.symm.trans hld'
    rcases hkind with h | h
    · cases h
    · exact absurd h (by simp [hre])
  · rw [heq]
    split
    · exact ⟨sameEntries_checkViolations (readFrame_access.loadsWf hw) _ _ _,
        sameStores_checkViolations _ _ _, rfl⟩
    · exact ⟨⟨rfl, rfl⟩, .refl _, .refl _⟩

theorem loadAt_commitLoads_of_lt (ha : u.loadAt i = some a) (hlt : youngest_inst < a.inst.seqNum) :
    (u.commitLoads youngest_inst).loadAt i = some a :=
  lookup_dropWhile ha (decide_eq_false hlt.not_ge)

end

section
variable {squashed_num : InstSeqNum} {a : LQEntry}

theorem stalled_squashLoads (l : List LQEntry) (h : u.stalled = false) :
    (squashLoads squashed_num l u).stalled = false := by
  induction l generalizing u with
  | nil => exact h
  | cons ld older ih =>
    rw [squashLoads]
    split
    · exact ih (by simp [popLoad, h])
    · exact h

private theorem sameRecord_popLoad (h : u.stallingLoadIdx ≠ u.loadHead + u.loadQueue.length - 1) :
    SameRecord u u.popLoad := by
  have hno : (u.stallingLoadIdx == u.loadHead + u.loadQueue.length - 1) = false :=
    beq_eq_false_iff_ne.mpr h
  simp [SameRecord, record, popLoad, hno]

theorem popLoad_cases {ld : LQEntry} {older : List LQEntry}
    (hl : u.loadQueue = (ld :: older).reverse) (ha : u.loadAt u.stallingLoadIdx = some a) :
    u.stallingLoadIdx = u.loadHead + u.loadQueue.length - 1 ∧ a = ld ∨
      SameRecord u u.popLoad ∧ a ∈ older ∧ u.popLoad.loadAt u.popLoad.stallingLoadIdx = some a := by
  have hlength : u.loadHead + u.loadQueue.length - 1 = u.loadHead + older.reverse.length := by
    simp [hl]
  have hat := lookup_concat u.loadHead older.reverse ld u.stallingLoadIdx
  rw [← List.reverse_cons, ← hl] at hat
  rw [loadAt, hat] at ha
  split at ha
  · next heq => exact .inl ⟨heq.trans hlength.symm, (Option.some.inj ha).symm⟩
  · next hne =>
    have hsame : SameRecord u u.popLoad := sameRecord_popLoad (hlength ▸ hne)
    refine .inr ⟨hsame, by simpa using mem_of_lookup ha, ?_⟩
    rw [hsame.stallingLoadIdx, loadAt]
    simpa [popLoad, hl] using ha

theorem sameRecord_squashLoads (l : List LQEntry) (hl : u.loadQueue = l.reverse)
    (ha : u.loadAt u.stallingLoadIdx = some a) (hle : a.inst.seqNum ≤ squashed_num) :
    SameRecord u (squashLoads squashed_num l u) := by
  induction l generalizing u with
  | nil => exact rfl
  | cons ld older ih =>
    rw [squashLoads]
    split
    · next hlt =>
      rcases popLoad_cases hl ha with ⟨-, rfl⟩ | ⟨hsame, -, hat⟩
      · exact absurd hlt hle.not_gt
      · exact hsame.trans (ih (by simp [popLoad, hl]) hat)
    · exact rfl

theorem stalled_squashLoads_of_lt (l : List LQEntry) (hl : u.loadQueue = l.reverse)
    (hs : l.Pairwise (·.inst.seqNum > ·.inst.seqNum)) (ha : u.loadAt u.stallingLoadIdx = some a)
    (hlt : squashed_num < a.inst.seqNum) : (squashLoads squashed_num l u).stalled = false := by
  induction l generalizing u with
  | nil => simp [loadAt, lookup, hl] at ha
  | cons ld older ih =>
    obtain ⟨hyoung, hs⟩ := List.pairwise_cons.mp hs
    rw [squashLoads]
    rcases popLoad_cases hl ha with ⟨hidx, rfl⟩ | ⟨-, hmem, hat⟩
    · rw [if_pos hlt]
      exact stalled_squashLoads older (by simp [popLoad, hidx])
    · rw [if_pos (hlt.trans (hyoung a hmem))]
      exact ih (by simp [popLoad, hl]) hs hat

theorem sameRecord_squash (u : LSQUnit) (squashed_num : InstSeqNum) :
    SameRecord (squashLoads squashed_num u.loadQueue.reverse u) (u.squash squashed_num) := by
  rw [LSQUnit.squash]
  obtain ⟨asserted, heq⟩ := squashStores_eq squashed_num
    (u := { squashLoads squashed_num u.loadQueue.reverse u with
      memDepViolator :=
        (squashLoads squashed_num u.loadQueue.reverse u).memDepViolator.filter (· ≤ squashed_num)
      violators := (squashLoads squashed_num u.loadQueue.reverse u).violators.filter (· ≤ squashed_num) })
    (squashLoads squashed_num u.loadQueue.reverse u).storeQueue.reverse (List.reverse_reverse _).symm
  rw [heq]
  exact rfl

theorem asserted_squashStores (l : List SQEntry)
    (h : u.stalled = true → u.stallingStoreIsn ≤ squashed_num) :
    (squashStores squashed_num l u).asserted = u.asserted := by
  induction l generalizing u with
  | nil => rfl
  | cons st older ih =>
    rw [squashStores]
    split
    · next hpop =>
      have hlt : squashed_num < st.inst.seqNum := by
        simpa using (Bool.and_eq_true_iff.mp hpop).1
      have hother : (u.stalled && st.inst.seqNum == u.stallingStoreIsn) = false := by
        cases hstalled : u.stalled with
        | false => rfl
        | true =>
          rw [Bool.true_and, beq_eq_false_iff_ne]
          exact ((h hstalled).trans_lt hlt).ne'
      rw [ih (u := u.popStore st) h]
      simp [popStore, hother]
    · rfl

end

/-- The queues are in program order, and no store is a prefetch. -/
structure Placed (last : InstSeqNum) (u : LSQUnit) : Prop extends Ordered last u where
  noPrefetch : ∀ st ∈ u.storeQueue, st.inst.isDataPrefetch = false

theorem placed_start : Placed 0 {} := ⟨ordered_start, by simp⟩

theorem Placed.step {last : InstSeqNum} (h : Placed last u) {e : Event} (he : StoresAllowed p u e)
    (hnew : ∀ inst, e = .insertLoad inst ∨ e = .insertStore inst → last < inst.seqNum)
    (hprefetch : ∀ inst, e = .insertStore inst → inst.isDataPrefetch = false) :
    Placed (e.youngest last) (step p u e) where
  toOrdered := h.toOrdered.step he hnew
  noPrefetch := by
    rcases step_cases h.stores h.loads he with
      (⟨inst, rfl⟩ | ⟨inst, rfl⟩ | ⟨squashed_num, rfl⟩) | ⟨-, hsame⟩
    · exact h.noPrefetch
    · intro st hst
      rcases mem_insertStore hst with hst | rfl
      · exact h.noPrefetch st hst
      · exact hprefetch inst rfl
    · intro st hst
      obtain ⟨j, hj⟩ := exists_lookup_of_mem (u.squash squashed_num).storeHead hst
      exact h.noPrefetch st (mem_of_lookup (storeAt_of_squash hj))
    · intro b hb
      obtain ⟨j, hj⟩ := exists_lookup_of_mem (Lsq.step p u e).storeHead hb
      obtain ⟨a, ha, hinst, -⟩ := hsame.store j b hj
      exact hinst ▸ h.noPrefetch a (mem_of_lookup ha)

structure Recorded (u : LSQUnit) (ld : LQEntry) : Prop where
  load : u.loadAt u.stallingLoadIdx = some ld
  idle : ld.Idle
  older : u.stallingStoreIsn < ld.inst.seqNum
  store : u.Queued u.stallingStoreIsn

end LSQUnit

end Gem5Core.O3.Lsq
