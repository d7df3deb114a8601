import Gem5Core.Lib.Protocol
import Gem5Core.O3.StoreSets

/-! What the tables of a store set predictor know about the stores in flight, while sets are merged,
entries evicted and tables cleared. -/
namespace Gem5Core.O3.StoreSetHistory
open Pred.Branch StoreSets Function List
open Lib.Protocol (run Legal run_inv)

section

/-- A store, with the set it was entered in unless the tables were cleared since. -/
structure Store where
  seqNum : InstSeqNum
  pc : Addr
  set : Option Nat
deriving DecidableEq

/-- `flight` holds the stores that were inserted and have neither issued nor been squashed, the
youngest first. `moved` holds those that issued when their address was no longer in the set they
were entered in, and `last` the last store of each set. -/
structure History where
  newest : InstSeqNum := 0
  flight : List Store := []
  moved : List InstSeqNum := []
  last : Nat → Option InstSeqNum := fun _ => none

namespace History

variable (h : History)

def forget : History :=
  { h with flight := h.flight.map fun st => { st with set := none }, last := fun _ => none }

def enter (pc : Addr) (seq : InstSeqNum) (set : Option Nat) : History :=
  { h with
    newest := seq
    flight := ⟨seq, pc, set⟩ :: h.flight
    last := match set with
      | none => h.last
      | some i => Function.update h.last i (some seq) }

def issue (seq : InstSeqNum) (now : Option Nat) : History :=
  { h with
    flight := h.flight.filter (·.seqNum != seq)
    moved :=
      if h.flight.any fun st => st.seqNum == seq && st.set != now then seq :: h.moved
      else h.moved }

def squash (squashed_num : InstSeqNum) : History :=
  { h with flight := h.flight.filter (·.seqNum ≤ squashed_num) }

end History

end

inductive Event (assoc : Nat) where
  | insertStore (store_PC : Addr) (store_seq_num : InstSeqNum)
  | issued (issued_PC : Addr) (issued_seq_num : InstSeqNum) (is_store : Bool)
  | violation (store_PC load_PC : Addr) (storeVictim loadVictim : Fin assoc)
  | squash (squashed_num : InstSeqNum)
  | checkClear

structure Machine (assoc : Nat) where
  tables : StoreSet assoc := {}
  history : History := {}

variable {assoc : Nat} (p : Params assoc)

def setOf (s : StoreSet assoc) (pc : Addr) : Option Nat := (s.ssidOf p pc).map BitVec.toNat

def cleared (m : Machine assoc) : History :=
  if p.clearPeriod < m.tables.memOpsPred + 1 then m.history.forget else m.history

def step (m : Machine assoc) : Event assoc → Machine assoc
  | .insertStore pc seq =>
      ⟨m.tables.insertStore p pc seq, (cleared p m).enter pc seq (setOf p m.tables pc)⟩
  | .issued pc seq is_store =>
      ⟨m.tables.issued p pc seq is_store,
        if is_store then m.history.issue seq (setOf p m.tables pc) else m.history⟩
  | .violation store_PC load_PC storeVictim loadVictim =>
      ⟨m.tables.violation p store_PC load_PC storeVictim loadVictim, m.history⟩
  | .squash n => ⟨m.tables.squash n, m.history.squash n⟩
  | .checkClear => ⟨m.tables.checkClear p, cleared p m⟩

/-- Sequence numbers increase, and a store issues once, after it was inserted and unless
it was squashed. -/
def Allowed (m : Machine assoc) : Event assoc → Prop
  | .insertStore _ seq => m.history.newest < seq
  | .issued pc seq is_store =>
      is_store = true → ∃ st ∈ m.history.flight, st.seqNum = seq ∧ st.pc = pc
  | .violation _ _ _ _ => True
  | .squash _ => True
  | .checkClear => True

instance (m : Machine assoc) : DecidablePred (Allowed m) := fun e => by
  cases e <;> dsimp only [Allowed] <;> infer_instance

structure Tracks (s : StoreSet assoc) (h : History) : Prop where
  /-- `storeList` holds the stores in flight that have a set. -/
  storeList : ∀ x i, (x, i) ∈ s.storeList ↔ ∃ st ∈ h.flight, st.seqNum = x ∧ st.set = some i
  sorted : s.storeList.Pairwise fun a b => b.1 < a.1
  order : h.flight.Pairwise fun a b => b.seqNum < a.seqNum
  flight_le : ∀ st ∈ h.flight, st.seqNum ≤ h.newest
  last_le : ∀ i x, h.last i = some x → x ≤ h.newest
  LFST : ∀ i x, h.last i = some x → s.LFST i = x
  /-- No store of a set is younger than its last one. -/
  youngest : ∀ st ∈ h.flight, ∀ i, st.set = some i → ∃ x, h.last i = some x ∧ st.seqNum ≤ x
  /-- The last store of a set is known while it is in flight. -/
  known : ∀ st ∈ h.flight, ∀ i, st.set = some i → h.last i = some st.seqNum → s.validLFST i = true
  named : ∀ i, s.validLFST i = true → h.last i = some (s.LFST i)
  /-- A valid entry names a store in flight, or one that moved before it issued. -/
  current : ∀ i, s.validLFST i = true →
    s.LFST i ∈ h.moved ∨ ∃ st ∈ h.flight, st.seqNum = s.LFST i ∧ st.set = some i
  hung : s.hung = false

variable {seq : InstSeqNum}

section

variable {p} {s : StoreSet assoc} {h : History}

theorem tracks_start : Tracks ({} : StoreSet assoc) {} := by
  constructor <;> simp

section

variable (ht : Tracks s h)
include ht

theorem Tracks.congr {s' : StoreSet assoc} (hlist : s'.storeList = s.storeList)
    (hLFST : s'.LFST = s.LFST) (hvalid : s'.validLFST = s.validLFST) (hhung : s'.hung = s.hung) :
    Tracks s' h := by
  cases s'
  cases hlist
  cases hLFST
  cases hvalid
  cases hhung
  exact { ht with }

theorem Tracks.clear : Tracks s.clear h.forget where
  storeList := by
    intro x i
    simp [StoreSet.clear, History.forget]
  sorted := List.Pairwise.nil
  order := pairwise_map.mpr ht.order
  flight_le := by
    intro st hst
    obtain ⟨st', hst', rfl⟩ := mem_map.mp hst
    exact ht.flight_le st' hst'
  last_le := fun _ _ hlast => nomatch hlast
  LFST := fun _ _ hlast => nomatch hlast
  youngest := by
    intro st hst i hset
    obtain ⟨st', -, rfl⟩ := mem_map.mp hst
    exact nomatch hset
  known := fun _ _ _ _ hlast => nomatch hlast
  named := fun _ hvalid => nomatch hvalid
  current := fun _ hvalid => nomatch hvalid
  hung := ht.hung

theorem Tracks.checkClear : Tracks (s.checkClear p) (cleared p ⟨s, h⟩) := by
  unfold StoreSet.checkClear cleared
  split
  · exact ht.clear.congr rfl rfl rfl rfl
  · exact ht.congr rfl rfl rfl rfl

theorem Tracks.enter_order {st : Store} (hseq : h.newest < st.seqNum) :
    (st :: h.flight).Pairwise fun a b => b.seqNum < a.seqNum :=
  pairwise_cons.mpr ⟨fun st' hst' => (ht.flight_le st' hst').trans_lt hseq, ht.order⟩

theorem Tracks.enter_le {st : Store} (hseq : h.newest < st.seqNum) :
    ∀ st' ∈ st :: h.flight, st'.seqNum ≤ st.seqNum := by
  intro st' hst'
  obtain rfl | hst' := mem_cons.mp hst'
  · exact le_rfl
  · exact (ht.flight_le st' hst').trans hseq.le

theorem Tracks.storeList_lt (hseq : h.newest < seq) : ∀ y ∈ s.storeList, y.1 < seq := by
  intro y hy
  obtain ⟨st, hst, hx, -⟩ := (ht.storeList y.1 y.2).mp hy
  exact (hx.symm.trans_le (ht.flight_le st hst)).trans_lt hseq

theorem Tracks.enter (pc : Addr) (hseq : h.newest < seq) (i : Nat) :
    Tracks
      { s with
        LFST := update s.LFST i seq
        validLFST := update s.validLFST i true
        storeList := (seq, i) :: s.storeList }
      (h.enter pc seq (some i)) where
  storeList := by
    intro x j
    rw [mem_cons, ht.storeList]
    simp only [History.enter, exists_mem_cons_iff, Prod.mk.injEq, Option.some.injEq,
      eq_comm (a := x), eq_comm (a := j)]
  sorted := pairwise_cons.mpr ⟨ht.storeList_lt hseq, ht.sorted⟩
  order := ht.enter_order hseq
  flight_le := ht.enter_le hseq
  last_le := by
    intro j x hlast
    by_cases hj : j = i
    · subst hj
      simp only [History.enter, update_self, Option.some.injEq] at hlast
      exact hlast.ge
    · simp only [History.enter, update_of_ne hj] at hlast
      exact (ht.last_le j x hlast).trans hseq.le
  LFST := by
    intro j x hlast
    by_cases hj : j = i
    · subst hj
      simpa [History.enter] using hlast
    · simp only [History.enter, update_of_ne hj] at hlast ⊢
      exact ht.LFST j x hlast
  youngest := by
    intro st hst j hset
    by_cases hj : j = i
    · subst hj
      exact ⟨seq, by simp [History.enter], ht.enter_le hseq st hst⟩
    · obtain rfl | hst := mem_cons.mp hst
      · exact absurd (Option.some.inj hset).symm hj
      · simpa [History.enter, update_of_ne hj] using ht.youngest st hst j hset
  known := by
    intro st hst j hset hlast
    by_cases hj : j = i
    · simp [hj]
    · simp only [History.enter, update_of_ne hj] at hlast ⊢
      obtain rfl | hst := mem_cons.mp hst
      · exact absurd (Option.some.inj hset).symm hj
      · exact ht.known st hst j hset hlast
  named := by
    intro j hvalid
    by_cases hj : j = i
    · simp [hj, History.enter]
    · simp only [History.enter, update_of_ne hj] at hvalid ⊢
      exact ht.named j hvalid
  current := by
    intro j hvalid
    by_cases hj : j = i
    · subst hj
      exact .inr ⟨⟨seq, pc, some j⟩, mem_cons_self, by simp, rfl⟩
    · simp only [update_of_ne hj] at hvalid ⊢
      obtain hmoved | ⟨st, hst, hx⟩ := ht.current j hvalid
      · exact .inl hmoved
      · exact .inr ⟨st, mem_cons_of_mem _ hst, hx⟩
  hung := ht.hung

theorem Tracks.enter_none (pc : Addr) (hseq : h.newest < seq) : Tracks s (h.enter pc seq none) where
  storeList := by
    intro x j
    rw [ht.storeList]
    simp [History.enter]
  sorted := ht.sorted
  order := ht.enter_order hseq
  flight_le := ht.enter_le hseq
  last_le := fun i x hlast => (ht.last_le i x hlast).trans hseq.le
  LFST := ht.LFST
  youngest := by
    intro st hst i hset
    obtain rfl | hst := mem_cons.mp hst
    · exact nomatch hset
    · exact ht.youngest st hst i hset
  known := by
    intro st hst i hset
    obtain rfl | hst := mem_cons.mp hst
    · exact nomatch hset
    · exact ht.known st hst i hset
  named := ht.named
  current := by
    intro i hvalid
    obtain hmoved | ⟨st, hst, hx⟩ := ht.current i hvalid
    · exact .inl hmoved
    · exact .inr ⟨st, mem_cons_of_mem _ hst, hx⟩
  hung := ht.hung

end

@[simp] theorem cleared_newest (m : Machine assoc) : (cleared p m).newest = m.history.newest := by
  unfold cleared
  split <;> rfl

theorem Tracks.insertStore (ht : Tracks s h) (pc : Addr) (hseq : h.newest < seq) :
    Tracks (s.insertStore p pc seq) ((cleared p ⟨s, h⟩).enter pc seq (setOf p s pc)) := by
  have hclear := ht.checkClear (p := p)
  have hseq' : (cleared p ⟨s, h⟩).newest < seq := by rwa [cleared_newest]
  unfold StoreSet.insertStore setOf
  cases s.ssidOf p pc with
  | none => exact hclear.enter_none pc hseq'
  | some ssid =>
    -- the new store comes first in the list
    refine (hclear.enter pc hseq' ssid.toNat).congr ?_ rfl rfl rfl
    exact filter_newest (hclear.storeList_lt hseq') ssid.toNat

theorem flight_unique (ht : Tracks s h) {a b : Store} (ha : a ∈ h.flight) (hb : b ∈ h.flight)
    (heq : a.seqNum = b.seqNum) : a = b := by
  have hnodup : (h.flight.map (·.seqNum)).Nodup :=
    pairwise_map.mpr (ht.order.imp fun hlt => hlt.ne.symm)
  exact inj_on_of_nodup_map hnodup ha hb heq

theorem Tracks.issue (ht : Tracks s h) {st : Store} (hst : st ∈ h.flight) (now : Option Nat)
    {valid : Nat → Bool}
    (hvalid : ∀ i, valid i = true ↔
      s.validLFST i = true ∧ ¬(now = some i ∧ s.LFST i = st.seqNum)) :
    Tracks
      { s with storeList := s.storeList.filter (·.1 != st.seqNum), validLFST := valid }
      (h.issue st.seqNum now) where
  storeList := by
    intro x i
    rw [mem_filter, ht.storeList]
    simp only [History.issue, mem_filter, bne_iff_ne]
    constructor
    · rintro ⟨⟨st', hst', rfl, hset⟩, hne⟩
      exact ⟨st', ⟨hst', hne⟩, rfl, hset⟩
    · rintro ⟨st', ⟨hst', hne⟩, rfl, hset⟩
      exact ⟨⟨st', hst', rfl, hset⟩, hne⟩
  sorted := ht.sorted.filter _
  order := ht.order.filter _
  flight_le := fun st' hst' => ht.flight_le st' (mem_filter.mp hst').1
  last_le := ht.last_le
  LFST := ht.LFST
  youngest := fun st' hst' => ht.youngest st' (mem_filter.mp hst').1
  known := by
    intro st' hst' i hset hlast
    obtain ⟨hst', hne⟩ := mem_filter.mp hst'
    refine (hvalid i).mpr ⟨ht.known st' hst' i hset hlast, fun hgone => ?_⟩
    rw [ht.LFST i st'.seqNum hlast] at hgone
    exact bne_iff_ne.mp hne hgone.2
  named := fun i hi => ht.named i ((hvalid i).mp hi).1
  current := by
    intro i hi
    obtain ⟨hold, hkept⟩ := (hvalid i).mp hi
    dsimp only [History.issue]
    obtain hmoved | ⟨st', hst', hx, hset⟩ := ht.current i hold
    · refine .inl ?_
      split
      · exact mem_cons_of_mem _ hmoved
      · exact hmoved
    · by_cases hsame : st'.seqNum = st.seqNum
      · -- its address is elsewhere by now
        obtain rfl := flight_unique ht hst' hst hsame
        refine .inl ?_
        have hne : st'.set ≠ now := fun hnow => hkept ⟨hnow ▸ hset, hx.symm⟩
        rw [if_pos, ← hx]
        · exact mem_cons_self
        · exact any_eq_true.mpr ⟨st', hst, by simpa using hne⟩
      · exact .inr ⟨st', mem_filter.mpr ⟨hst', bne_iff_ne.mpr hsame⟩, hx, hset⟩
  hung := ht.hung

theorem Tracks.issued (ht : Tracks s h) {st : Store} (hst : st ∈ h.flight) :
    Tracks (s.issued p st.pc st.seqNum true) (h.issue st.seqNum (setOf p s st.pc)) := by
  unfold StoreSet.issued setOf
  rw [if_pos rfl]
  dsimp only
  -- the addresses are looked up in the table that only lost a store from its list
  have hssid : StoreSet.ssidOf p
      { s with storeList := s.storeList.filter (·.1 != st.seqNum) } st.pc = s.ssidOf p st.pc := rfl
  rw [hssid]
  cases s.ssidOf p st.pc with
  | none => exact ht.issue hst none (by simp)
  | some ssid =>
    refine (ht.issue hst (some ssid.toNat) ?_).congr rfl rfl rfl rfl
    intro i
    by_cases hi : i = ssid.toNat
    · split
      · next hcond => simp_all
      · next hcond => simp_all
    · have hne : ssid.toNat ≠ i := fun heq => hi heq.symm
      split
      · simp [update_of_ne hi, hne]
      · simp [hne]

/-- The loop drops the younger stores and forgets the last stores of their sets. -/
theorem squashLoop_eq (n : InstSeqNum) (stores : List (InstSeqNum × Nat)) (s : StoreSet assoc)
    (hsorted : stores.Pairwise fun a b => b.1 < a.1)
    (hyoung : ∀ y ∈ stores, n < y.1 → n < s.LFST y.2) :
    StoreSet.squashLoop n stores s =
      { s with
        storeList := stores.filter (·.1 ≤ n)
        validLFST := fun i => s.validLFST i && !stores.any fun y => n < y.1 && y.2 == i } := by
  induction stores generalizing s with
  | nil => simp [StoreSet.squashLoop]
  | cons store rest ih =>
    obtain ⟨seq, idx⟩ := store
    obtain ⟨hhead, hrest⟩ := pairwise_cons.mp hsorted
    rw [StoreSet.squashLoop]
    by_cases hle : seq ≤ n
    · have hold : ∀ y ∈ (seq, idx) :: rest, y.1 ≤ n := by
        intro y hy
        obtain rfl | hy := mem_cons.mp hy
        · exact hle
        · exact (hhead y hy).le.trans hle
      have hkeep : ((seq, idx) :: rest).filter (·.1 ≤ n) = (seq, idx) :: rest :=
        filter_eq_self.mpr fun y hy => by simpa using hold y hy
      have hnone : ∀ i, (((seq, idx) :: rest).any fun y => n < y.1 && y.2 == i) = false := by
        intro i
        refine any_eq_false.mpr fun y hy => ?_
        simp [(hold y hy).not_gt]
      simp only [if_pos hle, hkeep, hnone, Bool.not_false, Bool.and_true]
    · have hlt : n < seq := Nat.lt_of_not_le hle
      have hyounger : n < s.LFST idx := hyoung (seq, idx) mem_cons_self hlt
      have hdrop : ((seq, idx) :: rest).filter (·.1 ≤ n) = rest.filter (·.1 ≤ n) := by
        simp [hle]
      have hany : ∀ i, (((seq, idx) :: rest).any fun y => n < y.1 && y.2 == i) =
          ((idx == i) || rest.any fun y => n < y.1 && y.2 == i) := by
        intro i
        simp [hlt]
      have hrestYoung : ∀ y ∈ rest, n < y.1 → n < s.LFST y.2 :=
        fun y hy => hyoung y (mem_cons_of_mem _ hy)
      simp only [if_neg hle, hyounger, decide_true, Bool.and_true, hdrop, hany]
      cases hvalid : s.validLFST idx with
      | true =>
        rw [if_pos rfl,
          ih { s with validLFST := update s.validLFST idx false } hrest hrestYoung]
        simp only [StoreSet.mk.injEq, true_and, and_true]
        funext i
        by_cases hi : i = idx
        · simp [hi]
        · have hne : (idx == i) = false := beq_eq_false_iff_ne.mpr fun heq => hi heq.symm
          simp [update_of_ne hi, hne]
      | false =>
        rw [if_neg Bool.false_ne_true, if_pos (show (!false) = true from rfl),
          ih s hrest hrestYoung]
        simp only [StoreSet.mk.injEq, true_and, and_true]
        funext i
        by_cases hi : i = idx
        · simp [hi, hvalid]
        · have hne : (idx == i) = false := beq_eq_false_iff_ne.mpr fun heq => hi heq.symm
          simp [hne]

theorem Tracks.squash (ht : Tracks s h) (n : InstSeqNum) : Tracks (s.squash n) (h.squash n) := by
  have hyoung : ∀ y ∈ s.storeList, n < y.1 → n < s.LFST y.2 := by
    intro y hy hlt
    obtain ⟨st, hst, hx, hset⟩ := (ht.storeList y.1 y.2).mp hy
    obtain ⟨x, hlast, hle⟩ := ht.youngest st hst y.2 hset
    rw [ht.LFST _ x hlast]
    exact hlt.trans_le (hx.symm.trans_le hle)
  rw [StoreSet.squash, squashLoop_eq n s.storeList s ht.sorted hyoung]
  -- which last stores are forgotten
  have hgone : ∀ i, (s.storeList.any fun y => n < y.1 && y.2 == i) = true ↔
      ∃ st ∈ h.flight, st.set = some i ∧ n < st.seqNum := by
    intro i
    rw [any_eq_true]
    constructor
    · rintro ⟨⟨x, j⟩, hy, hcond⟩
      obtain ⟨hlt, hj⟩ := Bool.and_eq_true_iff.mp hcond
      obtain ⟨st, hst, hx, hset⟩ := (ht.storeList x j).mp hy
      exact ⟨st, hst, hset.trans (congrArg some (beq_iff_eq.mp hj)),
        (of_decide_eq_true hlt).trans_eq hx.symm⟩
    · rintro ⟨st, hst, hset, hlt⟩
      exact ⟨(st.seqNum, i), (ht.storeList _ _).mpr ⟨st, hst, rfl, hset⟩, by simp [hlt]⟩
  have hvalid : ∀ i, (s.validLFST i && !s.storeList.any fun y => n < y.1 && y.2 == i) = true ↔
      s.validLFST i = true ∧ ∀ st ∈ h.flight, st.set = some i → st.seqNum ≤ n := by
    intro i
    rw [Bool.and_eq_true, Bool.not_eq_true', ← Bool.not_eq_true, hgone]
    push Not
    rfl
  constructor
  · intro x i
    rw [mem_filter, ht.storeList]
    simp only [History.squash, mem_filter, decide_eq_true_eq]
    constructor
    · rintro ⟨⟨st, hst, rfl, hset⟩, hle⟩
      exact ⟨st, ⟨hst, hle⟩, rfl, hset⟩
    · rintro ⟨st, ⟨hst, hle⟩, rfl, hset⟩
      exact ⟨⟨st, hst, rfl, hset⟩, hle⟩
  · exact ht.sorted.filter _
  · exact ht.order.filter _
  · exact fun st hst => ht.flight_le st (mem_filter.mp hst).1
  · exact ht.last_le
  · exact ht.LFST
  · exact fun st hst => ht.youngest st (mem_filter.mp hst).1
  · -- a set whose last store stays has no younger one
    intro st hst i hset hlast
    obtain ⟨hst, hle⟩ := mem_filter.mp hst
    refine (hvalid i).mpr ⟨ht.known st hst i hset hlast, fun st' hst' hset' => ?_⟩
    obtain ⟨x, hlast', hx⟩ := ht.youngest st' hst' i hset'
    obtain rfl : x = st.seqNum := Option.some.inj (hlast'.symm.trans hlast)
    exact hx.trans (of_decide_eq_true hle)
  · exact fun i hi => ht.named i ((hvalid i).mp hi).1
  · intro i hi
    obtain ⟨hold, hyounger⟩ := (hvalid i).mp hi
    obtain hmoved | ⟨st, hst, hx, hset⟩ := ht.current i hold
    · exact .inl hmoved
    · exact .inr ⟨st, mem_filter.mpr ⟨hst, decide_eq_true (hyounger st hst hset)⟩, hx, hset⟩
  · exact ht.hung

theorem Tracks.violation (ht : Tracks s h) (store_PC load_PC : Addr)
    (storeVictim loadVictim : Fin assoc) :
    Tracks (s.violation p store_PC load_PC storeVictim loadVictim) h := by
  unfold StoreSet.violation
  split
  · exact ht.congr rfl rfl rfl rfl
  · exact ht.congr rfl rfl rfl rfl
  · exact ht.congr rfl rfl rfl rfl
  · dsimp only
    split <;> exact ht.congr rfl rfl rfl rfl

theorem Tracks.step {m : Machine assoc} (ht : Tracks m.tables m.history) {e : Event assoc}
    (ha : Allowed m e) : Tracks (step p m e).tables (step p m e).history := by
  cases e with
  | insertStore pc seq => exact ht.insertStore pc ha
  | issued pc seq is_store =>
    cases is_store with
    | false => exact ht
    | true =>
      obtain ⟨st, hst, rfl, rfl⟩ := ha rfl
      exact ht.issued hst
  | violation store_PC load_PC storeVictim loadVictim => exact ht.violation _ _ _ _
  | squash n => exact ht.squash n
  | checkClear => exact ht.checkClear

end

section

variable {p} {s : StoreSet assoc} {h : History}

private theorem checkInst_of_setOf {pc : Addr} {i : Nat} (hset : setOf p s pc = some i) :
    s.checkInst p pc = if s.validLFST i then s.LFST i else 0 := by
  obtain ⟨ssid, hssid, rfl⟩ := Option.map_eq_some_iff.mp hset
  rw [StoreSet.checkInst, hssid]

/-- The last store of a set is found while it is in flight, and is then the youngest of its
set; what is found otherwise has issued. -/
theorem Tracks.checkInst (ht : Tracks s h) {pc : Addr} {i : Nat} (hset : setOf p s pc = some i) :
    (∃ st ∈ h.flight, st.set = some i ∧ h.last i = some st.seqNum ∧
        s.checkInst p pc = st.seqNum ∧
        ∀ st' ∈ h.flight, st'.set = some i → st'.seqNum ≤ st.seqNum) ∨
      (∀ st ∈ h.flight, st.set = some i → h.last i ≠ some st.seqNum) ∧
        (s.checkInst p pc = 0 ∨ s.checkInst p pc ∈ h.moved) := by
  rw [checkInst_of_setOf hset]
  by_cases hknown : ∃ st ∈ h.flight, st.set = some i ∧ h.last i = some st.seqNum
  · obtain ⟨st, hst, hin, hlast⟩ := hknown
    refine .inl ⟨st, hst, hin, hlast, ?_, fun st' hst' hin' => ?_⟩
    · rw [if_pos (ht.known st hst i hin hlast), ht.LFST i _ hlast]
    · obtain ⟨x, hlast', hle⟩ := ht.youngest st' hst' i hin'
      exact hle.trans_eq (Option.some.inj (hlast'.symm.trans hlast))
  · push Not at hknown
    refine .inr ⟨hknown, ?_⟩
    split
    · next hvalid =>
      obtain hmoved | ⟨st, hst, hx, hin⟩ := ht.current i hvalid
      · exact .inr hmoved
      · exact absurd ((ht.named i hvalid).trans (congrArg some hx.symm)) (hknown st hst hin)
    · exact .inl rfl

end

/-- Over every run: a valid entry names the last store entered in its set, which is in
flight unless it moved before it issued; the last store of a set is found while it is in
flight; and `squash` ends. -/
theorem last_store_tracked (events : List (Event assoc))
    (hl : Legal (step p) Allowed ({} : Machine assoc) events) :
    let m := run (step p) {} events
    (∀ i, m.tables.validLFST i = true →
      m.history.last i = some (m.tables.LFST i) ∧
        (m.tables.LFST i ∈ m.history.moved ∨
          ∃ st ∈ m.history.flight, st.seqNum = m.tables.LFST i ∧ st.set = some i)) ∧
    (∀ pc i, setOf p m.tables pc = some i →
      (∃ st ∈ m.history.flight, st.set = some i ∧ m.history.last i = some st.seqNum ∧
          m.tables.checkInst p pc = st.seqNum ∧
          ∀ st' ∈ m.history.flight, st'.set = some i → st'.seqNum ≤ st.seqNum) ∨
        (∀ st ∈ m.history.flight, st.set = some i → m.history.last i ≠ some st.seqNum) ∧
          (m.tables.checkInst p pc = 0 ∨ m.tables.checkInst p pc ∈ m.history.moved)) ∧
    m.tables.hung = false := by
  intro m
  have ht : Tracks m.tables m.history :=
    run_inv (fun m => Tracks m.tables m.history) (fun _ _ ht ha => ht.step ha) events
      tracks_start hl
  exact ⟨fun i hvalid => ⟨ht.named i hvalid, ht.current i hvalid⟩,
    fun pc i hset => ht.checkInst hset, ht.hung⟩

def small : Params 4 where
  clearPeriod := 100
  LFSTSize := 16
  extractSet := fun _ => 0
  extractTag := id

def pairInserted : List (Event 4) :=
  [.violation 4 8 0 1, .insertStore 4 1, .insertStore 4 2]

theorem last_store_tracked_pair :
    let m := run (step small) {} pairInserted
    m.tables.validLFST 8 = true ∧ m.history.last 8 = some (m.tables.LFST 8) ∧
      m.tables.checkInst small 8 = 2 ∧ m.tables.hung = false := by
  intro m
  have hvalid : m.tables.validLFST 8 = true := by decide +kernel
  obtain ⟨hnamed, -, hhung⟩ := last_store_tracked small pairInserted (by decide +kernel)
  exact ⟨hvalid, (hnamed 8 hvalid).1, by decide +kernel, hhung⟩

/-- A squash of the last store hides the older one of its set, and a store whose address
joins another set before it issues stays in the table of last stores. -/
theorem last_store_lost :
    (let events := pairInserted ++ [.squash 1]
      let m := run (step small) {} events
      Legal (step small) Allowed {} events ∧ setOf small m.tables 8 = some 8 ∧
        m.history.flight = [⟨1, 4, some 8⟩] ∧ m.tables.checkInst small 8 = 0) ∧
    (let events := [.violation 4 8 0 1, .violation 20 5 2 3, .insertStore 4 1, .violation 4 5 0 1,
        .issued 4 1 true]
      let m := run (step small) {} events
      Legal (step small) Allowed {} events ∧ m.history.flight = [] ∧
        m.tables.validLFST 8 = true ∧ m.tables.LFST 8 = 1 ∧ m.tables.checkInst small 8 = 1) := by
  decide +kernel

end Gem5Core.O3.StoreSetHistory
