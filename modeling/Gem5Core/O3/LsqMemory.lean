import Gem5Core.O3.LsqOrder

/-! What the queues know of the memory that a thread sees, and that the calls of loads keep it. A
byte is a virtual address, which is what the queues compare: it is assumed that no two virtual
addresses are the same byte. -/
namespace Gem5Core.O3.Lsq
open Pred.Branch Lib.Indexed Lib.ByteMemory

namespace DynInst

variable (inst : DynInst)

/-- The access is not one of plain cacheable memory. A block that is zeroed has no data. -/
def special : Bool :=
  inst.isAtomic || inst.isStoreConditional || inst.isDataPrefetch || inst.request.isLLSC ||
    inst.request.isMasked || inst.request.isCacheMaintenance || inst.request.isStrictlyOrdered ||
    inst.request.isLocalAccess || (inst.request.cacheBlockZero && !inst.request.storeNoData)

@[mk_iff] structure Ordinary : Prop where
  fits : inst.request.range.Fits (2 ^ 64)
  plain : inst.special = false

instance : Decidable inst.Ordinary := decidable_of_iff' _ (ordinary_iff inst)

variable {inst} in
theorem Ordinary.flags (h : inst.Ordinary) :
    (inst.isAtomic = false ∧ inst.isStoreConditional = false ∧ inst.isDataPrefetch = false) ∧
      inst.request.isCacheMaintenance = false ∧ inst.request.isStrictlyOrdered = false ∧
      inst.request.isLocalAccess = false := by
  have hplain := h.plain
  simp only [special, Bool.or_eq_false_iff] at hplain
  simp [hplain]

def byte (i : Nat) : Byte := if inst.request.storeNoData then 0 else inst.data i

def writes : Writes DynInst Byte where
  range inst := inst.request.range
  value inst b := inst.byte (b - inst.effAddr.toNat)
  stamp := seqNum

end DynInst

namespace SQEntry

def writes : Writes SQEntry Byte where
  range := range
  value st b := st.byte (b - st.inst.effAddr.toNat)
  stamp st := st.inst.seqNum

structure Written (st : SQEntry) : Prop where
  size : st.size = st.inst.request.size
  byte : ∀ i, st.byte i = st.inst.byte i

theorem written_write {st : SQEntry} (h : st.inst.Ordinary) : st.write.Written where
  size := rfl
  byte := by
    intro i
    have hplain := h.plain
    simp only [DynInst.special, Bool.or_eq_false_iff] at hplain
    simp only [SQEntry.byte, write, DynInst.byte]
    by_cases hdata : st.inst.request.storeNoData = true
    · simp only [hdata, ↓reduceIte]
    · simp_all

theorem Written.range {st : SQEntry} (h : st.Written) : st.range = st.inst.request.range := by
  rw [SQEntry.range, h.size]
  rfl

end SQEntry

namespace LSQUnit

/-- The memory behind the cache: the stores sent are written to it in that order. -/
def memory (init : Nat → Byte) (u : LSQUnit) (b : Nat) : Byte := SQEntry.writes.contents init u.sent b

def Sent (u : LSQUnit) (s : DynInst) : Prop := ∃ st ∈ u.sent, st.inst = s

def Waits (u : LSQUnit) (st : SQEntry) : Prop := ∃ j, u.storeWBIt ≤ j ∧ u.storeAt j = some st

def Pending (u : LSQUnit) (s : DynInst) : Prop := ∃ st, u.Waits st ∧ st.size ≠ 0 ∧ st.inst = s

theorem Waits.mem {u : LSQUnit} {st : SQEntry} (h : u.Waits st) : st ∈ u.storeQueue :=
  mem_of_lookup h.choose_spec.2

/-- `stores` is the program as far as it was dispatched and not squashed, `last` the youngest
instruction so far. -/
structure Tracks (stores : List DynInst) (last : InstSeqNum) (u : LSQUnit) : Prop where
  program : ∀ s, s ∈ stores ↔ u.Sent s ∨ ∃ st, u.Waits st ∧ st.inst = s
  sorted : stores.Pairwise (·.seqNum < ·.seqNum)
  sentSorted : u.sent.Pairwise (·.inst.seqNum < ·.inst.seqNum)
  sentFirst : ∀ a ∈ u.sent, ∀ st, u.Waits st → a.inst.seqNum < st.inst.seqNum
  sentWritten : ∀ st ∈ u.sent, st.Written
  ordinary : ∀ st ∈ u.storeQueue, st.inst.Ordinary
  written : ∀ st ∈ u.storeQueue, st.size ≠ 0 → st.Written
  executed : ∀ st ∈ u.storeQueue, st.canWB = true → st.size ≠ 0
  recent : ∀ s ∈ stores, s.seqNum ≤ last

/-- A store that was sent, or may be, is older than every load. -/
structure Aligned (u : LSQUnit) : Prop where
  sqLow : ∀ i ld, u.loadAt i = some ld → u.storeWBIt ≤ ld.sqIt
  sent : ∀ ld ∈ u.loadQueue, ∀ st ∈ u.sent, st.inst.seqNum < ld.inst.seqNum
  committed : ∀ ld ∈ u.loadQueue, ∀ st ∈ u.storeQueue, st.canWB = true →
    st.inst.seqNum < ld.inst.seqNum

/-- What a load has so far is right with regard to the older stores that have executed, and
none of these is passed by a request on its way. -/
structure Right (init : Nat → Byte) (u : LSQUnit) (ld : LQEntry) : Prop where
  data : ∀ k < ld.inst.request.size, ∀ v, ld.memData k = some v →
    DynInst.writes.Shows init (fun s => s.seqNum < ld.inst.seqNum ∧ (u.Sent s ∨ u.Pending s))
      (ld.inst.request.vaddr.toNat + k) v
  clear : ld.outstanding = true → ∀ s, u.Pending s → s.seqNum < ld.inst.seqNum →
    ¬ ld.inst.request.range.Overlaps s.request.range

structure Fine (init : Nat → Byte) (u : LSQUnit) (ld : LQEntry) : Prop where
  ordinary : ld.inst.Ordinary
  idle : ld.effAddrValid = false → ld.outstanding = false ∧ ∀ k, ld.memData k = none
  complete : ld.isExecuted = true → ld.reExec = false →
    ∀ k < ld.inst.request.size, (ld.memData k).isSome
  right : Doomed u ld ∨ Right init u ld

structure Correct (init : Nat → Byte) (stores : List DynInst) (ld : LQEntry) : Prop where
  data : ∀ k < ld.inst.request.size, ∃ v, ld.memData k = some v ∧
    DynInst.writes.Shows init (fun s => s.seqNum < ld.inst.seqNum ∧ s ∈ stores)
      (ld.inst.request.vaddr.toNat + k) v

structure Consistent (init : Nat → Byte) (stores : List DynInst) (last : InstSeqNum)
    (u : LSQUnit) : Prop where
  order : Ordered last u
  divided : Divided u
  tracks : Tracks stores last u
  aligned : Aligned u
  fine : ∀ ld ∈ u.loadQueue, Fine init u ld
  retired : ∀ ld ∈ u.retired, ld.inst.seqNum ≤ last ∧ Correct init stores ld

variable {p : Params} {init : Nat → Byte} {stores : List DynInst} {last : InstSeqNum}
  {u v : LSQUnit}

theorem consistent_start : Consistent init [] 0 {} where
  order := ordered_start
  divided := divided_start
  tracks := {
    program := fun s => by simp [Sent, Waits, storeAt, lookup]
    sorted := .nil
    sentSorted := .nil
    sentFirst := by simp
    sentWritten := by simp
    ordinary := by simp
    written := by simp
    executed := by simp
    recent := by simp }
  aligned := {
    sqLow := by simp [loadAt, lookup]
    sent := by simp
    committed := by simp }
  fine := by simp
  retired := by simp

section
variable {a b : LQEntry}

structure SameData (a b : LQEntry) : Prop where
  inst : b.inst = a.inst
  effAddrValid : b.effAddrValid = a.effAddrValid
  outstanding : b.outstanding = a.outstanding
  memData : b.memData = a.memData
  done : b.isExecuted = true → b.reExec = false → a.isExecuted = true ∧ a.reExec = false

theorem SameData.refl (a : LQEntry) : SameData a a := ⟨rfl, rfl, rfl, rfl, fun h h' => ⟨h, h'⟩⟩

theorem Right.of_idle (h : Fine init u a) (hvalid : a.effAddrValid = false) : Right init v a where
  data := fun k _ v hv => by simp [(h.idle hvalid).2 k] at hv
  clear := fun hout => by simp [(h.idle hvalid).1] at hout

theorem Right.congr (h : Right init u a)
    (hknown : ∀ s : DynInst, s.seqNum < a.inst.seqNum →
      a.inst.request.range.Overlaps s.request.range →
      (v.Sent s ∨ v.Pending s ↔ u.Sent s ∨ u.Pending s) ∧ (v.Pending s → u.Pending s)) :
    Right init v a where
  data := by
    intro k hk value hvalue
    apply (h.data k hk value hvalue).congr
    intro s hs
    have hover : a.inst.request.range.Overlaps s.request.range :=
      ⟨_, ⟨Nat.le_add_right _ _, Nat.add_lt_add_left hk _⟩, hs⟩
    constructor
    · rintro ⟨hlt, hv⟩
      exact ⟨hlt, (hknown s hlt hover).1.mp hv⟩
    · rintro ⟨hlt, hu⟩
      exact ⟨hlt, (hknown s hlt hover).1.mpr hu⟩
  clear := by
    intro hout s hs hlt hover
    exact h.clear hout s ((hknown s hlt hover).2 hs) hlt hover

theorem Fine.transfer (h : Fine init u a) (hsame : SameData a b)
    (hright : Doomed v a ∨ Right init v a) : Fine init v b where
  ordinary := hsame.inst ▸ h.ordinary
  idle := by
    rw [hsame.effAddrValid, hsame.outstanding, hsame.memData]
    exact h.idle
  complete := by
    intro hexec hre
    rw [hsame.inst, hsame.memData]
    exact h.complete (hsame.done hexec hre).1 (hsame.done hexec hre).2
  right := by
    refine hright.imp (fun hd => ?_) fun hr => ?_
    · rw [Doomed, hsame.inst]
      exact hd
    · exact ⟨by rw [hsame.inst, hsame.memData]; exact hr.data,
        by rw [hsame.inst, hsame.outstanding]; exact hr.clear⟩

end

section

structure LoadFrame (u v : LSQUnit) : Prop where
  stores : SameStores u v
  sent : v.sent = u.sent
  violators : u.violators ⊆ v.violators
  order : SameOrder u v

variable {a b : LQEntry}

section

variable (h : LoadFrame u v)
include h

theorem LoadFrame.mem (hb : b ∈ v.loadQueue) : ∃ a ∈ u.loadQueue, b.inst = a.inst := by
  obtain ⟨i, hi⟩ := exists_lookup_of_mem v.loadHead hb
  obtain ⟨a, ha, hinst, -⟩ := h.order.load i b hi
  exact ⟨a, mem_of_lookup ha, hinst⟩

theorem LoadFrame.waits_iff (st : SQEntry) : v.Waits st ↔ u.Waits st := by
  simp only [Waits, h.stores.storeWBIt, h.stores.storeAt]

theorem LoadFrame.sent_iff (s : DynInst) : v.Sent s ↔ u.Sent s := by
  rw [Sent, h.sent, Sent]

theorem LoadFrame.pending_iff (s : DynInst) : v.Pending s ↔ u.Pending s := by
  simp only [Pending, h.waits_iff]

theorem LoadFrame.right (hr : Doomed u a ∨ Right init u a) : Doomed v a ∨ Right init v a := by
  refine hr.imp ?_ fun hr => hr.congr fun s _ _ => ?_
  · rintro ⟨w, hw, hle⟩
    exact ⟨w, h.violators hw, hle⟩
  · rw [h.sent_iff, h.pending_iff]
    exact ⟨Iff.rfl, id⟩

theorem LoadFrame.tracks (ht : Tracks stores last u) : Tracks stores last v := by
  obtain ⟨hstores, hsent, -, -⟩ := h
  cases u
  cases v
  cases hstores
  cases hsent
  exact { ht with }

theorem LoadFrame.aligned (ha : Aligned u) : Aligned v where
  sqLow := by
    intro i b hb
    obtain ⟨a, hat, -, hsq⟩ := h.order.load i b hb
    rw [hsq, h.stores.storeWBIt]
    exact ha.sqLow i a hat
  sent := by
    intro b hb st hst
    obtain ⟨a, hat, hinst⟩ := h.mem hb
    rw [hinst]
    exact ha.sent a hat st (h.sent ▸ hst)
  committed := by
    intro b hb st hst
    obtain ⟨a, hat, hinst⟩ := h.mem hb
    rw [hinst]
    exact ha.committed a hat st (h.stores.storeQueue ▸ hst)

theorem LoadFrame.consistent (hc : Consistent init stores last u) (hloads : LoadsWf v)
    (hfine : ∀ ld ∈ v.loadQueue, Fine init v ld)
    (hretired : ∀ ld ∈ v.retired, ld.inst.seqNum ≤ last ∧ Correct init stores ld) :
    Consistent init stores last v where
  order := hc.order.same h.order (h.stores.stay hc.order.stores).wf hloads
  divided := hc.divided.same h.order
  tracks := h.tracks hc.tracks
  aligned := h.aligned hc.aligned
  fine := hfine
  retired := hretired

end

variable {idx k : Nat} {ld : LQEntry} {st : SQEntry}

theorem Consistent.modifyLoad {f : LQEntry → LQEntry} (hc : Consistent init stores last u)
    (hld : u.loadAt idx = some ld) (hplace : ∀ ld, (f ld).place = ld.place)
    (hfine : Fine init u (f ld)) : Consistent init stores last (u.modifyLoad idx f) := by
  have hframe : LoadFrame u (u.modifyLoad idx f) :=
    ⟨rfl, rfl, List.Subset.refl _, sameOrder_modifyLoad hplace⟩
  have hloads := hc.order.loads.modifyLoad idx fun ld => congrArg Prod.fst (hplace ld)
  refine hframe.consistent hc hloads (fun b hb => ?_) hc.retired
  obtain ⟨i, hi⟩ := exists_lookup_of_mem u.loadHead hb
  rcases loadAt_of_modifyLoad hld hi with ⟨-, rfl⟩ | ⟨-, hi⟩
  · exact hfine.transfer (.refl _) (hframe.right hfine.right)
  · have ha := hc.fine b (mem_of_lookup hi)
    exact ha.transfer (.refl b) (hframe.right ha.right)

theorem Consistent.of_sameData (hc : Consistent init stores last u) (hframe : LoadFrame u v)
    (hretired : v.retired = u.retired) (hloads : LoadsWf v)
    (hdata : ∀ i b, v.loadAt i = some b → ∃ a, u.loadAt i = some a ∧ SameData a b) :
    Consistent init stores last v := by
  refine hframe.consistent hc hloads (fun b hb => ?_) (hretired ▸ hc.retired)
  obtain ⟨i, hi⟩ := exists_lookup_of_mem v.loadHead hb
  obtain ⟨a, ha, hsame⟩ := hdata i b hi
  have hfine := hc.fine a (mem_of_lookup ha)
  exact hfine.transfer hsame (hframe.right hfine.right)

theorem loadFrame_checkViolations (hw : LoadsWf u) (loadIt : Nat) (inst : DynInst) (isLoad : Bool) :
    LoadFrame u (u.checkViolations p loadIt inst isLoad) where
  stores := sameStores_checkViolations _ _ _
  sent := rfl
  violators := List.subset_append_left _ _
  order := sameOrder_checkViolations hw _ _ _

theorem sameData_of_marked (h : b = a ∨ b = { a with possibleLoadViolation := true }) : SameData a b := by
  rcases h with rfl | rfl
  · exact .refl b
  · exact ⟨rfl, rfl, rfl, rfl, fun h h' => ⟨h, h'⟩⟩

theorem Consistent.checkViolations (hc : Consistent init stores last u) (loadIt : Nat)
    (inst : DynInst) (isLoad : Bool) :
    Consistent init stores last (u.checkViolations p loadIt inst isLoad) := by
  refine hc.of_sameData (loadFrame_checkViolations hc.order.loads _ _ _) rfl
    (hc.order.loads.checkViolations _ _ _) fun i b hb => ?_
  obtain ⟨a, ha, hmarked, -⟩ := loadAt_checkViolations hc.order.loads hb
  exact ⟨a, ha, sameData_of_marked hmarked⟩

theorem Consistent.checkSnoop (hc : Consistent init stores last u) (addr : Addr) :
    Consistent init stores last (u.checkSnoop p addr) := by
  have hother : (u.checkSnoop p addr).sent = u.sent ∧ (u.checkSnoop p addr).retired = u.retired ∧
      (u.checkSnoop p addr).violators = u.violators := by
    unfold LSQUnit.checkSnoop
    split <;> exact ⟨rfl, rfl, rfl⟩
  obtain ⟨hsent, hretired, hviolators⟩ := hother
  have hframe : LoadFrame u (u.checkSnoop p addr) :=
    ⟨sameStores_checkSnoop addr, hsent, by rw [hviolators]; exact List.Subset.refl _,
      sameOrder_checkSnoop addr⟩
  refine hc.of_sameData hframe hretired (hc.order.loads.checkSnoop addr) fun i b hb => ?_
  obtain ⟨a, ha, rfl | rfl | ⟨-, rfl⟩, -⟩ := loadAt_checkSnoop hb
  · exact ⟨b, ha, .refl b⟩
  · exact ⟨a, ha, rfl, rfl, rfl, rfl, fun _ h => by cases h⟩
  · exact ⟨a, ha, rfl, rfl, rfl, rfl, fun h h' => ⟨h, h'⟩⟩

theorem Tracks.mayForward (ht : Tracks stores last u) (hst : st ∈ u.storeQueue) :
    mayForward st = true ↔ st.size ≠ 0 := by
  obtain ⟨-, hmaint, hordered, -⟩ := (ht.ordinary st hst).flags
  simp [LSQUnit.mayForward, DynInst.strictlyOrdered, hmaint, hordered]

section

variable (hc : Consistent init stores last u)
include hc

section

variable (hld : u.loadAt idx = some ld)
include hld

theorem Consistent.decision (isAtCommit : Bool) :
    Decision u ld.inst.request ld.sqIt (u.readResult idx ld isAtCommit) := by
  have hord := (hc.fine ld (mem_of_lookup hld)).ordinary
  obtain ⟨⟨-, -, hprefetch⟩, -, hordered, hlocal⟩ := hord.flags
  refine readResult_decides hprefetch hlocal hordered hord.fits (hc.aligned.sqLow idx ld hld) ?_
  apply hc.order.stores.searchable (hc.order.sqHigh idx ld hld)
  intro st hst hmay
  rw [(hc.tracks.written st hst ((hc.tracks.mayForward hst).mp hmay)).range]
  exact (hc.tracks.ordinary st hst).fits

theorem Consistent.shows_forwarded (hyoung : Youngest u ld.inst.request ld.sqIt k st)
    (hfwd : Forwards ld.inst.request st) {i : Nat} (hi : i < ld.inst.request.size) :
    DynInst.writes.Shows init (fun s => s.seqNum < ld.inst.seqNum ∧ (u.Sent s ∨ u.Pending s))
      (ld.inst.request.vaddr.toNat + i) (forwardedBytes ld.inst.request st i) := by
  have hfits := (hc.fine ld (mem_of_lookup hld)).ordinary.fits
  have hmem : st ∈ u.storeQueue := mem_of_lookup hyoung.entry
  have hsize := (hc.tracks.mayForward hmem).mp hyoung.considered
  have hwritten := hc.tracks.written st hmem hsize
  have hwaits : u.Waits st := ⟨k, hyoung.low, hyoung.entry⟩
  have hbyte : ld.inst.request.range.Has (ld.inst.request.vaddr.toNat + i) :=
    ⟨Nat.le_add_right _ _, Nat.add_lt_add_left hi _⟩
  have hvalue : forwardedBytes ld.inst.request st i =
      DynInst.writes.value st.inst (ld.inst.request.vaddr.toNat + i) := by
    have hle : st.inst.effAddr.toNat ≤ ld.inst.request.vaddr.toNat :=
      ((Range.within_iff hfits.positive).mp hfwd.covers).1
    rw [forwardedBytes_eq hfits hfwd]
    change st.byte _ = st.inst.byte _
    rw [hwritten.byte, Nat.sub_add_comm hle]
  rw [hvalue]
  refine .written ⟨(hc.order.split idx ld k st hld hyoung.entry).mp hyoung.high,
    .inr ⟨st, hwaits, hsize, rfl⟩⟩
    (by have h := hfwd.covers _ hbyte; rwa [hwritten.range] at h) ?_
  rintro s ⟨hlt, ⟨a, ha, rfl⟩ | ⟨a, ⟨j, hj, haj⟩, hasize, rfl⟩⟩ hs
  · exact (hc.tracks.sentFirst a ha st hwaits).le
  · -- a store behind it does not overlap the load
    by_contra hnot
    have hmem' : a ∈ u.storeQueue := mem_of_lookup haj
    have hkj : k < j := by
      rcases Nat.lt_trichotomy k j with h | rfl | h
      · exact h
      · cases hyoung.entry.symm.trans haj
        exact absurd (le_rfl) hnot
      · exact absurd (hc.order.stores.sorted j k a st haj hyoung.entry h).le hnot
    refine hyoung.latest j a hkj ((hc.order.split idx ld j a hld haj).mpr hlt) haj
      ((hc.tracks.mayForward hmem').mpr hasize) ⟨_, hbyte, ?_⟩
    rw [(hc.tracks.written a hmem' hasize).range]
    exact hs

theorem Consistent.fine_accessed (hex : ld.isExecuted = false) (isAtCommit accepted : Bool) :
    Fine init u (u.accessed idx isAtCommit accepted ld) := by
  have hfine := hc.fine ld (mem_of_lookup hld)
  have hdec := hc.decision hld isAtCommit
  unfold accessed
  generalize u.readResult idx ld isAtCommit = r at hdec
  cases hdec with
  | forwarded hyoung hfwd =>
    constructor
    case ordinary => exact hfine.ordinary
    case idle => exact fun h => by cases h
    case complete => exact fun _ _ _ _ => rfl
    case right =>
      refine .inr ⟨fun k hk v hv => ?_, fun h => by cases h⟩
      obtain rfl := Option.some.inj hv
      exact hc.shows_forwarded hld hyoung hfwd hk
  | rescheduled hyoung hnot =>
    constructor
    case ordinary => exact hfine.ordinary
    case idle => exact fun _ => ⟨rfl, fun _ => rfl⟩
    case complete => exact fun h => absurd (hex.symm.trans h) Bool.false_ne_true
    case right => exact .inr ⟨fun _ _ _ hv => (by cases hv), fun h => by cases h⟩
  | memory hnone =>
    constructor
    case ordinary => exact hfine.ordinary
    case idle => exact fun h => by cases h
    case complete => exact fun h => absurd (hex.symm.trans h) Bool.false_ne_true
    case right =>
      refine hfine.right.imp id fun hr => ⟨hr.data, ?_⟩
      rintro - s ⟨st, ⟨j, hj, hst⟩, hsize, rfl⟩ hlt hover
      have hmem : st ∈ u.storeQueue := mem_of_lookup hst
      refine hnone j st hj ((hc.order.split idx ld j st hld hst).mpr hlt) hst
        ((hc.tracks.mayForward hmem).mpr hsize) ?_
      rw [(hc.tracks.written st hmem hsize).range]
      exact hover

theorem Consistent.access (hex : ld.isExecuted = false) (isAtCommit accepted : Bool) :
    Consistent init stores last (u.access idx isAtCommit accepted) := by
  have hread : ReadFrame u (u.access idx isAtCommit accepted) := readFrame_access
  have hframe : LoadFrame u (u.access idx isAtCommit accepted) :=
    ⟨hread.stores, hread.sent, by rw [hread.violators]; exact List.Subset.refl _, hread.order⟩
  refine hframe.consistent hc (hread.loadsWf hc.order.loads) (fun b hb => ?_) (hread.retired ▸ hc.retired)
  obtain ⟨i, hi⟩ := exists_lookup_of_mem (u.access idx isAtCommit accepted).loadHead hb
  rcases loadAt_of_access hld hi with ⟨-, rfl⟩ | ⟨-, hi⟩
  · have hfine := hc.fine_accessed hld hex isAtCommit accepted
    exact hfine.transfer (.refl _) (hframe.right hfine.right)
  · have ha := hc.fine b (mem_of_lookup hi)
    exact ha.transfer (.refl b) (hframe.right ha.right)

end

theorem Consistent.executeLoad (idx : Nat) (outcome : Outcome) (isAtCommit accepted : Bool)
    (houtcome : outcome ≠ .notAccessed) :
    Consistent init stores last (u.executeLoad p idx outcome isAtCommit accepted) := by
  rcases executeLoad_cases (p := p) u idx outcome isAtCommit accepted with
    ⟨-, h⟩ | ⟨ld, hld, -, hre, h⟩ | ⟨ld, hld, hex, -, -, h⟩
  · rw [h]
    exact hc
  · rw [h]
    have hre : ld.reExec = true := hre.resolve_left houtcome
    have hfine := hc.fine ld (mem_of_lookup hld)
    refine hc.modifyLoad hld ?_ ?_
    · exact fun _ => rfl
    · exact hfine.transfer ⟨rfl, rfl, rfl, rfl, fun _ h => by simp [hre] at h⟩ hfine.right
  · rw [h]
    have hacc := hc.access hld hex isAtCommit accepted
    split
    · exact hacc.checkViolations _ _ _
    · exact hacc

end

theorem Tracks.shows_memory (ht : Tracks stores last u) (b : Nat) :
    DynInst.writes.Shows init u.Sent b (u.memory init b) := by
  have hshows : SQEntry.writes.Shows init (· ∈ u.sent) b (u.memory init b) :=
    Writes.shows_contents ht.sentSorted b
  apply hshows.map (f := SQEntry.inst) (fun _ => Iff.rfl)
  · exact fun st hst => (ht.sentWritten st hst).range.symm
  · exact fun st hst => ((ht.sentWritten st hst).byte _).symm
  · exact fun _ => rfl

section

variable (hc : Consistent init stores last u)
include hc

theorem Consistent.recvData (hld : u.loadAt idx = some ld) (offset : Nat) :
    Consistent init stores last
      (u.recvData idx offset (u.memory init (ld.inst.request.vaddr.toNat + offset))) := by
  have hfine := hc.fine ld (mem_of_lookup hld)
  apply hc.modifyLoad hld
  · intro ld
    split <;> rfl
  split
  · next hlive =>
    have hout : ld.outstanding = true := (Bool.and_eq_true_iff.mp hlive).2
    constructor
    case ordinary => exact hfine.ordinary
    case idle =>
      intro hvalid
      simp [(hfine.idle hvalid).1] at hout
    case complete =>
      intro hex hre k hk
      dsimp only
      rw [Function.update_apply]
      split
      · rfl
      · exact hfine.complete hex hre k hk
    case right =>
      refine hfine.right.imp id fun hr => ⟨fun k hk v hv => ?_, hr.clear⟩
      dsimp only at hv
      rw [Function.update_apply] at hv
      split at hv
      · next hk' =>
        obtain rfl := Option.some.inj hv
        subst hk'
        apply (hc.tracks.shows_memory _).congr
        intro s hs
        constructor
        · rintro ⟨hlt, hsent | hpend⟩
          · exact hsent
          · exact absurd ⟨_, ⟨Nat.le_add_right _ _, Nat.add_lt_add_left hk _⟩, hs⟩
              (hr.clear hout s hpend hlt)
        · rintro ⟨st, hst, rfl⟩
          exact ⟨hc.aligned.sent ld (mem_of_lookup hld) st hst, .inl ⟨st, hst, rfl⟩⟩
      · exact hr.data k hk v hv
  · exact hfine

theorem Consistent.writeback (hld : u.loadAt idx = some ld)
    (hall : ∀ k < ld.inst.request.size, (ld.memData k).isSome) :
    Consistent init stores last (u.writeback idx) := by
  have hfine := hc.fine ld (mem_of_lookup hld)
  refine hc.modifyLoad hld ?_ ⟨hfine.ordinary, hfine.idle, fun _ _ => hall, ?_⟩
  · exact fun _ => rfl
  · exact hfine.right.imp id fun hr => { hr with }

theorem Consistent.getMemDepViolator : Consistent init stores last u.getMemDepViolator :=
  hc.of_sameData
    ⟨rfl, rfl, List.Subset.refl _, SameStores.order rfl rfl rfl⟩
    rfl ⟨hc.order.loads.sorted, fun w h => by cases h⟩ fun _ b hb => ⟨b, hb, .refl b⟩

theorem Consistent.insertLoad {inst : DynInst} (hord : inst.Ordinary) (hnew : last < inst.seqNum) :
    Consistent init stores inst.seqNum (u.insertLoad p inst) := by
  constructor
  case order => exact hc.order.insertLoad hnew
  case divided => exact hc.divided.insertLoad hc.order hnew
  case tracks =>
    exact { hc.tracks with recent := fun s hs => ((hc.tracks.recent s hs).trans_lt hnew).le }
  case aligned =>
    constructor
    case sqLow =>
      intro i ld hld
      rcases loadAt_of_insertLoad hld with ⟨-, rfl⟩ | hld
      · exact hc.order.stores.high
      · exact hc.aligned.sqLow i ld hld
    case sent =>
      intro ld hld st hst
      rcases mem_insertLoad hld with hld | rfl
      · exact hc.aligned.sent ld hld st hst
      · have hs := (hc.tracks.program st.inst).mpr (.inl ⟨st, hst, rfl⟩)
        exact (hc.tracks.recent _ hs).trans_lt hnew
    case committed =>
      intro ld hld st hst hcan
      rcases mem_insertLoad hld with hld | rfl
      · exact hc.aligned.committed ld hld st hst hcan
      · exact (hc.order.recentStores st hst).trans_lt hnew
  case fine =>
    intro ld hld
    rcases mem_insertLoad hld with hld | rfl
    · have hfine := hc.fine ld hld
      exact hfine.transfer (.refl ld) (hfine.right.imp id fun hr => hr.congr fun _ _ _ => ⟨Iff.rfl, id⟩)
    · exact ⟨hord, fun _ => ⟨rfl, fun _ => rfl⟩, fun h => (by cases h),
        .inr ⟨fun _ _ _ h => (by cases h), fun h => by cases h⟩⟩
  case retired =>
    intro ld hld
    obtain ⟨hle, hcorrect⟩ := hc.retired ld hld
    exact ⟨(hle.trans_lt hnew).le, hcorrect⟩

theorem Consistent.commitLoads {youngest_inst : InstSeqNum}
    (hviolators : ∀ w ∈ u.violators, youngest_inst < w)
    (hdone : ∀ ld ∈ u.loadQueue, ld.inst.seqNum ≤ youngest_inst →
      ld.isExecuted = true ∧ ld.reExec = false)
    (hexecuted : ∀ st ∈ u.storeQueue, st.inst.seqNum ≤ youngest_inst → st.size ≠ 0) :
    Consistent init stores last (u.commitLoads youngest_inst) := by
  have hframe : LoadFrame u (u.commitLoads youngest_inst) :=
    ⟨rfl, rfl, List.Subset.refl _, sameOrder_commitLoads hc.order.loads youngest_inst⟩
  refine hframe.consistent hc (hc.order.loads.commitLoads _) (fun b hb => ?_) fun ld hld => ?_
  · have hfine := hc.fine b ((List.dropWhile_sublist _).mem hb)
    exact hfine.transfer (.refl b) (hframe.right hfine.right)
  rcases mem_committed hld with hld | ⟨hld, hle⟩
  · exact hc.retired ld hld
  refine ⟨hc.order.recentLoads ld hld, ⟨fun k hk => ?_⟩⟩
  have hfine := hc.fine ld hld
  obtain ⟨value, hvalue⟩ :=
    Option.isSome_iff_exists.mp (hfine.complete (hdone ld hld hle).1 (hdone ld hld hle).2 k hk)
  rcases hfine.right with ⟨w, hw, hwle⟩ | hr
  · exact absurd (hwle.trans hle) (hviolators w hw).not_ge
  refine ⟨value, hvalue, (hr.data k hk value hvalue).congr fun s _ => ?_⟩
  rw [hc.tracks.program]
  constructor
  · rintro ⟨hlt, hsent | ⟨st, hwaits, rfl⟩⟩
    · exact ⟨hlt, .inl hsent⟩
    · have hsize := hexecuted st hwaits.mem (hlt.le.trans hle)
      exact ⟨hlt, .inr ⟨st, hwaits, hsize, rfl⟩⟩
  · rintro ⟨hlt, hsent | ⟨st, hwaits, -, rfl⟩⟩
    · exact ⟨hlt, .inl hsent⟩
    · exact ⟨hlt, .inr ⟨st, hwaits, rfl⟩⟩

end

end

end LSQUnit

end Gem5Core.O3.Lsq
