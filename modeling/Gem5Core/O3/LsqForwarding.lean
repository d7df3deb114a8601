import Mathlib.Algebra.GroupWithZero.Nat
import Gem5Core.Lib.ByteMemory
import Gem5Core.O3.LsqStores

/-! Store-to-load forwarding: what `read` decides, in terms of the bytes of the load and of
the stores before it. -/
namespace Gem5Core.O3.Lsq
open Pred.Branch Lib.Indexed Lib.ByteMemory

def Request.range (r : Request) : Range := ⟨r.vaddr.toNat, r.size⟩

def SQEntry.range (st : SQEntry) : Range := ⟨st.inst.effAddr.toNat, st.size⟩

private theorem toNat_end {a : Addr} {n : Nat} (h : Range.Fits ⟨a.toNat, n⟩ (2 ^ 64)) :
    (a + BitVec.ofNat 64 n).toNat = a.toNat + n := by
  have hb : a.toNat + n < 2 ^ 64 := h.bounded
  rw [BitVec.toNat_add, BitVec.toNat_ofNat]
  omega

namespace LSQUnit

variable {u : LSQUnit} {request : Request} {st : SQEntry}

structure Forwards (request : Request) (st : SQEntry) : Prop where
  notAtomic : st.inst.isAtomic = false
  unmasked : st.inst.request.isMasked = false
  covers : request.range.Within st.range
  notLLSC : request.isLLSC = false

theorem coverage_spec (hr : request.range.Fits (2 ^ 64)) (hs : st.range.Fits (2 ^ 64)) :
    (coverage request st = .fullAddrRangeCoverage ∧ request.range.Overlaps st.range ∧
        Forwards request st) ∨
      (coverage request st = .partialAddrRangeCoverage ∧ request.range.Overlaps st.range ∧
        ¬ Forwards request st) ∨
      coverage request st = .noAddrRangeCoverage ∧ ¬ request.range.Overlaps st.range := by
  have hpos : 0 < request.size := hr.positive
  have hoverlaps : request.range.Overlaps st.range ↔
      request.vaddr.toNat < st.inst.effAddr.toNat + st.size ∧
        st.inst.effAddr.toNat < request.vaddr.toNat + request.size :=
    Range.overlaps_iff hr.positive hs.positive
  have hwithin : request.range.Within st.range ↔
      st.inst.effAddr.toNat ≤ request.vaddr.toNat ∧
        request.vaddr.toNat + request.size ≤ st.inst.effAddr.toNat + st.size :=
    Range.within_iff hr.positive
  simp only [coverage, BitVec.le_def, BitVec.lt_def, toNat_end hr, toNat_end hs, Bool.and_eq_true,
    Bool.or_eq_true, Bool.not_eq_true', decide_eq_true_eq]
  split
  · next hcov =>
    obtain ⟨⟨⟨hat, hlow⟩, hhigh⟩, hll⟩ := hcov
    have hcovers := hwithin.mpr ⟨hlow, hhigh⟩
    have hover := hcovers.overlaps hr.positive
    split
    · next hmask => exact .inr (.inl ⟨rfl, hover, fun h => by simp [h.unmasked] at hmask⟩)
    · next hmask => exact .inl ⟨rfl, hover, hat, Bool.of_not_eq_true hmask, hcovers, hll⟩
  · next hcov =>
    have hnot : ¬ Forwards request st := fun h =>
      hcov ⟨⟨⟨h.notAtomic, (hwithin.mp h.covers).1⟩, (hwithin.mp h.covers).2⟩, h.notLLSC⟩
    split
    · next hover => exact .inr (.inl ⟨rfl, hoverlaps.mpr (by omega), hnot⟩)
    · next hover =>
      refine .inr (.inr ⟨rfl, fun h => ?_⟩)
      have := hoverlaps.mp h
      cases hll : request.isLLSC <;> simp only [hll, Bool.false_eq_true, true_and, false_and] at hover <;> omega

/-- The store at `k` is the youngest one before index `last` that has bytes for the load; others
than plain stores are passed over. -/
structure Youngest (u : LSQUnit) (request : Request) (last k : Nat) (st : SQEntry) : Prop where
  low : u.storeWBIt ≤ k
  high : k < last
  entry : u.storeAt k = some st
  considered : mayForward st = true
  overlaps : request.range.Overlaps st.range
  latest : ∀ j st', k < j → j < last → u.storeAt j = some st' → mayForward st' = true →
    ¬ request.range.Overlaps st'.range

/-- The stores that are passed are queued, do not wrap, and are not completed, which the code
asserts. -/
structure Searchable (u : LSQUnit) (last : Nat) : Prop where
  queued : ∀ j, u.storeWBIt ≤ j → j < last → ∃ st, u.storeAt j = some st
  fits : ∀ j st, u.storeWBIt ≤ j → j < last → u.storeAt j = some st → mayForward st = true →
    st.range.Fits (2 ^ 64)
  uncompleted : ∀ j st, u.storeWBIt ≤ j → j < last → u.storeAt j = some st → st.completed = false

theorem Searchable.shorten {last last' : Nat} (h : Searchable u last) (hle : last' ≤ last) :
    Searchable u last' where
  queued := fun j hlow hhigh => h.queued j hlow (hhigh.trans_le hle)
  fits := fun j st hlow hhigh => h.fits j st hlow (hhigh.trans_le hle)
  uncompleted := fun j st hlow hhigh => h.uncompleted j st hlow (hhigh.trans_le hle)

def forwardedBytes (request : Request) (st : SQEntry) (i : Nat) : Byte :=
  st.byte ((request.vaddr - st.inst.effAddr).toNat + i)

inductive Decision (u : LSQUnit) (request : Request) (last : Nat) : ReadResult → Prop
  | forwarded {k st} : Youngest u request last k st → Forwards request st →
      Decision u request last (.forwarded k (forwardedBytes request st))
  | rescheduled {k st} : Youngest u request last k st → ¬ Forwards request st →
      Decision u request last (.rescheduled k)
  | memory : (∀ j st, u.storeWBIt ≤ j → j < last → u.storeAt j = some st →
      mayForward st = true → ¬ request.range.Overlaps st.range) → Decision u request last .memory

theorem Youngest.extend {last k : Nat} (h : Youngest u request last k st) {a : SQEntry}
    (ha : u.storeAt last = some a)
    (hpass : mayForward a = true → ¬ request.range.Overlaps a.range) :
    Youngest u request (last + 1) k st := by
  refine { h with high := Nat.lt_succ_of_lt h.high, latest := ?_ }
  intro j st' hkj hj hst' hmay
  rcases Nat.lt_succ_iff_lt_or_eq.mp hj with hj | rfl
  · exact h.latest j st' hkj hj hst' hmay
  · cases ha.symm.trans hst'
    exact hpass hmay

theorem Decision.extend {last : Nat} {r : ReadResult} (h : Decision u request last r) {a : SQEntry}
    (ha : u.storeAt last = some a)
    (hpass : mayForward a = true → ¬ request.range.Overlaps a.range) :
    Decision u request (last + 1) r := by
  cases h with
  | forwarded hyoung hfwd => exact .forwarded (hyoung.extend ha hpass) hfwd
  | rescheduled hyoung hnot => exact .rescheduled (hyoung.extend ha hpass) hnot
  | memory hnone =>
    apply Decision.memory
    intro j st hlow hhigh hst hmay
    rcases Nat.lt_succ_iff_lt_or_eq.mp hhigh with hhigh | rfl
    · exact hnone j st hlow hhigh hst hmay
    · cases ha.symm.trans hst
      exact hpass hmay

theorem searchStores_decides (hr : request.range.Fits (2 ^ 64)) (n : Nat)
    (hs : Searchable u (u.storeWBIt + n)) :
    Decision u request (u.storeWBIt + n) (u.searchStores request n) := by
  induction n with
  | zero =>
    apply Decision.memory
    intro j st hlow hhigh
    omega
  | succ n ih =>
    have hlow : u.storeWBIt ≤ u.storeWBIt + n := Nat.le_add_right _ _
    have hhigh : u.storeWBIt + n < u.storeWBIt + (n + 1) := Nat.lt_succ_self _
    obtain ⟨st, hst⟩ := hs.queued (u.storeWBIt + n) hlow hhigh
    have hrest := ih (hs.shorten hhigh.le)
    rw [searchStores, hst]
    dsimp only
    split
    · next hmay =>
      have hself : request.range.Overlaps st.range →
          Youngest u request (u.storeWBIt + (n + 1)) (u.storeWBIt + n) st := fun hover =>
        ⟨hlow, hhigh, hst, hmay, hover, fun j st' hkj hj => by omega⟩
      rcases coverage_spec hr (hs.fits _ st hlow hhigh hst hmay) with
        ⟨hcov, hover, hfwd⟩ | ⟨hcov, hover, hnot⟩ | ⟨hcov, hover⟩
      · rw [hcov]
        exact .forwarded (hself hover) hfwd
      · rw [hcov]
        simp only [hs.uncompleted _ st hlow hhigh hst, Bool.false_eq_true, ↓reduceIte]
        exact .rescheduled (hself hover) hnot
      · rw [hcov]
        exact hrest.extend hst fun _ => hover
    · next hmay => exact hrest.extend hst fun h => absurd h hmay

theorem Youngest.unique {last k k' : Nat} {st' : SQEntry} (h : Youngest u request last k st)
    (h' : Youngest u request last k' st') : k = k' ∧ st = st' := by
  have heq : k = k' := by
    rcases Nat.lt_trichotomy k k' with hlt | heq | hlt
    · exact absurd h'.overlaps (h.latest k' st' hlt h'.high h'.entry h'.considered)
    · exact heq
    · exact absurd h.overlaps (h'.latest k st hlt h.high h.entry h.considered)
  subst heq
  exact ⟨rfl, Option.some.inj (h.entry.symm.trans h'.entry)⟩

theorem loadAt_modifyLoad {idx : Nat} {ld : LQEntry} (h : u.loadAt idx = some ld)
    (f : LQEntry → LQEntry) (j : Nat) :
    (u.modifyLoad idx f).loadAt j = if j = idx then some (f ld) else u.loadAt j :=
  lookup_modify h f j

theorem StoresWf.searchable (hw : StoresWf u) {last : Nat} (hlast : last ≤ u.storeEnd)
    (hfits : ∀ st ∈ u.storeQueue, mayForward st = true → st.range.Fits (2 ^ 64)) :
    Searchable u last where
  queued := fun _ hlow hhigh =>
    exists_lookup_of_bounds (hw.low.trans hlow) (hhigh.trans_le hlast)
  fits := fun _ st _ _ hst => hfits st (mem_of_lookup hst)
  uncompleted := fun _ st hlow _ hst => hw.ahead _ st hst hlow

section
variable {last k : Nat} {r : ReadResult}

section

variable (hd : Decision u request last r)
include hd

theorem Decision.of_forwards (h : Youngest u request last k st) (hfwd : Forwards request st) :
    r = .forwarded k (forwardedBytes request st) := by
  cases hd with
  | forwarded h' _ =>
    obtain ⟨rfl, rfl⟩ := h.unique h'
    rfl
  | rescheduled h' hnot =>
    obtain ⟨rfl, rfl⟩ := h.unique h'
    exact absurd hfwd hnot
  | memory hnone => exact absurd h.overlaps (hnone k st h.low h.high h.entry h.considered)

theorem Decision.of_not_forwards (h : Youngest u request last k st) (hnot : ¬ Forwards request st) :
    r = .rescheduled k := by
  cases hd with
  | forwarded h' hfwd =>
    obtain ⟨rfl, rfl⟩ := h.unique h'
    exact absurd hfwd hnot
  | rescheduled h' _ => rw [(h.unique h').1]
  | memory hnone => exact absurd h.overlaps (hnone k st h.low h.high h.entry h.considered)

theorem Decision.memory_iff :
    r = .memory ↔ ∀ j st, u.storeWBIt ≤ j → j < last → u.storeAt j = some st →
      mayForward st = true → ¬ request.range.Overlaps st.range := by
  cases hd with
  | forwarded h _ => exact ⟨nofun, fun hnone => absurd h.overlaps (hnone _ _ h.low h.high h.entry h.considered)⟩
  | rescheduled h _ => exact ⟨nofun, fun hnone => absurd h.overlaps (hnone _ _ h.low h.high h.entry h.considered)⟩
  | memory hnone => exact ⟨fun _ => hnone, fun _ => rfl⟩

end

end

section
variable {load_idx k : Nat} {ld : LQEntry} {isAtCommit accepted : Bool}

theorem readResult_decides (hprefetch : ld.inst.isDataPrefetch = false)
    (hlocal : ld.inst.request.isLocalAccess = false)
    (hordered : ld.inst.request.isStrictlyOrdered = false)
    (hfits : ld.inst.request.range.Fits (2 ^ 64)) (hit : u.storeWBIt ≤ ld.sqIt)
    (hs : Searchable u ld.sqIt) :
    Decision u ld.inst.request ld.sqIt (u.readResult load_idx ld isAtCommit) := by
  have h := searchStores_decides hfits (ld.sqIt - u.storeWBIt) (by rwa [Nat.add_sub_of_le hit])
  rw [Nat.add_sub_of_le hit] at h
  simpa only [readResult, hordered, hlocal, hprefetch, hit.not_gt, Bool.false_and,
    Bool.false_eq_true, ↓reduceIte] using h

variable (hld : u.loadAt load_idx = some ld)
include hld

private theorem read_forwarded {bytes : Nat → Byte}
    (hr : u.readResult load_idx ld isAtCommit = .forwarded k bytes) :
    (u.read load_idx isAtCommit accepted).loadAt load_idx =
      some { ld with
        hasRequest := !ld.outstanding, outstanding := false, memData := fun i => some (bytes i) } := by
  simp only [read, hld, hr]
  rw [loadAt_modifyLoad hld, if_pos rfl]

private theorem read_rescheduled (hr : u.readResult load_idx ld isAtCommit = .rescheduled k) :
    (u.read load_idx isAtCommit accepted).loadAt load_idx = some ld.reschedule := by
  simp only [read, hld, hr]
  rw [loadAt_modifyLoad (u := u.stall load_idx ld.inst k) hld, if_pos rfl]

private theorem read_memory (hr : u.readResult load_idx ld isAtCommit = .memory) :
    (u.read load_idx isAtCommit accepted).loadAt load_idx =
      some { ld with hasRequest := true, outstanding := ld.outstanding || accepted } := by
  simp only [read, hld, hr]
  rw [loadAt_modifyLoad hld, if_pos rfl]

end

theorem forwardedBytes_eq (hfits : request.range.Fits (2 ^ 64)) (h : Forwards request st) (i : Nat) :
    forwardedBytes request st i =
      if st.isAllZeros then 0 else st.data (request.vaddr.toNat - st.inst.effAddr.toNat + i) := by
  have hle : st.inst.effAddr.toNat ≤ request.vaddr.toNat :=
    ((Range.within_iff hfits.positive).mp h.covers).1
  rw [forwardedBytes, SQEntry.byte, BitVec.toNat_sub_of_le (BitVec.le_def.mpr hle)]

/-- A load that is no prefetch, no local access and not strictly ordered is forwarded
exactly if the youngest store that overlaps it has all its bytes and may give them, and it
gets these bytes. If that store does not qualify the load is rescheduled without data, and
it goes to memory exactly if no store overlaps: it then has a request, on its way once the
cache takes a packet, and no byte it did not have before. -/
theorem forwarding_decided (u : LSQUnit) (load_idx : Nat) (ld : LQEntry) (isAtCommit accepted : Bool)
    (hld : u.loadAt load_idx = some ld) (hprefetch : ld.inst.isDataPrefetch = false)
    (hlocal : ld.inst.request.isLocalAccess = false)
    (hordered : ld.inst.request.isStrictlyOrdered = false)
    (hfits : ld.inst.request.range.Fits (2 ^ 64)) (hit : u.storeWBIt ≤ ld.sqIt)
    (hs : Searchable u ld.sqIt) :
    let r := u.readResult load_idx ld isAtCommit
    let after := (u.read load_idx isAtCommit accepted).loadAt load_idx
    ((∃ k bytes, r = .forwarded k bytes) ↔
        ∃ k st, Youngest u ld.inst.request ld.sqIt k st ∧ Forwards ld.inst.request st) ∧
      (∀ k st, Youngest u ld.inst.request ld.sqIt k st → Forwards ld.inst.request st →
        ∃ ld', after = some ld' ∧ ∀ i < ld.inst.request.size, ld'.memData i =
          some (if st.isAllZeros then 0
            else st.data (ld.inst.request.vaddr.toNat - st.inst.effAddr.toNat + i))) ∧
      (∀ k st, Youngest u ld.inst.request ld.sqIt k st → ¬ Forwards ld.inst.request st →
        r = .rescheduled k ∧ ∃ ld', after = some ld' ∧ ld'.effAddrValid = false ∧
          ld'.outstanding = false ∧ ∀ i, ld'.memData i = none) ∧
      (r = .memory ↔ ∀ j st, u.storeWBIt ≤ j → j < ld.sqIt → u.storeAt j = some st →
        mayForward st = true → ¬ ld.inst.request.range.Overlaps st.range) ∧
      (r = .memory → after =
        some { ld with hasRequest := true, outstanding := ld.outstanding || accepted }) := by
  intro r after
  have hdec : Decision u ld.inst.request ld.sqIt r :=
    readResult_decides hprefetch hlocal hordered hfits hit hs
  refine ⟨⟨?_, ?_⟩, ?_, ?_, hdec.memory_iff, read_memory hld⟩
  · rintro ⟨k, bytes, hres⟩
    rw [hres] at hdec
    cases hdec with
    | forwarded hyoung hfwd => exact ⟨_, _, hyoung, hfwd⟩
  · rintro ⟨k, st, hyoung, hfwd⟩
    exact ⟨k, _, hdec.of_forwards hyoung hfwd⟩
  · intro k st hyoung hfwd
    exact ⟨_, read_forwarded hld (hdec.of_forwards hyoung hfwd), fun i _ =>
      congrArg some (forwardedBytes_eq hfits hfwd i)⟩
  · intro k st hyoung hnot
    have hres := hdec.of_not_forwards hyoung hnot
    exact ⟨hres, _, read_rescheduled hld hres, rfl, rfl, fun _ => rfl⟩

/-- A load out of the middle of two stores, the younger one inside the older one. -/
theorem forwarding_decided_middle :
    let old : SQEntry := { inst := { seqNum := 1, request := { vaddr := 64, size := 8 } },
                           lqIt := 1, size := 8 }
    let st : SQEntry := { inst := { seqNum := 2, request := { vaddr := 65, size := 6 } },
                          lqIt := 1, size := 6, data := fun i => BitVec.ofNat 8 (i + 1) }
    let ld : LQEntry := { inst := { seqNum := 3, request := { vaddr := 66, size := 4 } }, sqIt := 3,
                          effAddrValid := true }
    let u : LSQUnit := { storeQueue := [old, st], loadQueue := [ld] }
    ∃ ld', (u.read 1 false true).loadAt 1 = some ld' ∧ ld'.memData 0 = some 2 ∧
      ld'.memData 3 = some 5 := by
  intro old st ld u
  have hrange : ld.inst.request.range.Within st.range :=
    (Range.within_iff (by decide)).mpr (by decide)
  have hs : Searchable u ld.sqIt := by
    refine ⟨fun j hlow hhigh => exists_lookup_of_bounds hlow hhigh, fun j st' _ _ h _ => ?_,
      fun j st' _ _ h => ?_⟩
    · obtain rfl | rfl := List.mem_pair.mp (mem_of_lookup h) <;> exact ⟨by decide, by decide⟩
    · obtain rfl | rfl := List.mem_pair.mp (mem_of_lookup h) <;> rfl
  have hyoung : Youngest u ld.inst.request ld.sqIt 2 st :=
    ⟨by decide, by decide, rfl, by decide, hrange.overlaps (by decide), fun j _ hlow hhigh => by
      have hsq : ld.sqIt = 3 := rfl
      omega⟩
  obtain ⟨ld', hld', hbytes⟩ := (forwarding_decided u 1 ld false true rfl rfl rfl rfl
    ⟨by decide, by decide⟩ (by decide) hs).2.1 2 st hyoung ⟨rfl, rfl, hrange, rfl⟩
  exact ⟨ld', hld', hbytes 0 (by decide), hbytes 3 (by decide)⟩

end LSQUnit

end Gem5Core.O3.Lsq
