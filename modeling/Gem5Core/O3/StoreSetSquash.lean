import Gem5Core.O3.StoreSetHistory

/-! The loop of `StoreSet::squash`. One of its branches removes nothing, so that it ends only
because no store in the list is younger than the last store of its set. -/
namespace Gem5Core.O3.StoreSetSquash
open Pred.Branch StoreSets StoreSetHistory
open Lib.Protocol (run Legal run_inv)

inductive Call (assoc : Nat) where
  | violation (store_PC load_PC : Addr) (storeVictim loadVictim : Fin assoc)
  | insertLoad
  | insertStore (store_PC : Addr) (store_seq_num : InstSeqNum)
  | issued (issued_PC : Addr) (issued_seq_num : InstSeqNum) (is_store : Bool)
  | squash (squashed_num : InstSeqNum)
  | clear

structure Machine (assoc : Nat) where
  tables : StoreSet assoc := {}
  next : InstSeqNum := 0

variable {assoc : Nat} (p : Params assoc)

def step (m : Machine assoc) : Call assoc → Machine assoc
  | .violation store_PC load_PC storeVictim loadVictim =>
      { m with tables := m.tables.violation p store_PC load_PC storeVictim loadVictim }
  | .insertLoad => { m with tables := m.tables.checkClear p }
  | .insertStore pc seq => ⟨m.tables.insertStore p pc seq, seq + 1⟩
  | .issued pc seq is_store => { m with tables := m.tables.issued p pc seq is_store }
  | .squash n => { m with tables := m.tables.squash n }
  | .clear => { m with tables := m.tables.clear }

def Increasing (m : Machine assoc) : Call assoc → Prop
  | .insertStore _ seq => m.next ≤ seq
  | _ => True

instance (m : Machine assoc) : DecidablePred (Increasing m) := fun e => by
  cases e <;> dsimp only [Increasing] <;> infer_instance

def squashPass (squashed_num : InstSeqNum) (s : StoreSet assoc) : Option (StoreSet assoc) :=
  match s.storeList with
  | [] => none
  | (seq, idx) :: rest =>
      if seq ≤ squashed_num then none
      else
        let younger := squashed_num < s.LFST idx
        if s.validLFST idx && younger then
          some { s with validLFST := Function.update s.validLFST idx false, storeList := rest }
        else if !s.validLFST idx && younger then some { s with storeList := rest }
        else some s

def squashPasses (squashed_num : InstSeqNum) : Nat → StoreSet assoc → Option (StoreSet assoc)
  | 0, _ => none
  | passes + 1, s =>
      match squashPass squashed_num s with
      | none => some s
      | some s' => squashPasses squashed_num passes s'

private theorem squashPass_cons (n seq : InstSeqNum) (idx : Nat) (rest : List (InstSeqNum × Nat))
    (s : StoreSet assoc) :
    squashPass n { s with storeList := (seq, idx) :: rest } =
      if seq ≤ n then none
      else if s.validLFST idx && decide (n < s.LFST idx) then
        some { s with validLFST := Function.update s.validLFST idx false, storeList := rest }
      else if !s.validLFST idx && decide (n < s.LFST idx) then some { s with storeList := rest }
      else some { s with storeList := (seq, idx) :: rest } := rfl

private theorem squashPasses_left {n : InstSeqNum} {s : StoreSet assoc} (passes : Nat)
    (h : squashPass n s = none) : squashPasses n (passes + 1) s = some s := by
  rw [squashPasses, h]

private theorem squashPasses_again {n : InstSeqNum} {s s' : StoreSet assoc} (passes : Nat)
    (h : squashPass n s = some s') : squashPasses n (passes + 1) s = squashPasses n passes s' := by
  rw [squashPasses, h]

theorem squashPasses_eq (n : InstSeqNum) (stores : List (InstSeqNum × Nat)) (s : StoreSet assoc)
    (hends : (StoreSet.squashLoop n stores s).hung = false) :
    squashPasses n (stores.length + 1) { s with storeList := stores } =
      some (StoreSet.squashLoop n stores s) := by
  induction stores generalizing s with
  | nil => rfl
  | cons store rest ih =>
    obtain ⟨seq, idx⟩ := store
    have hpass := squashPass_cons n seq idx rest s
    rw [StoreSet.squashLoop] at hends ⊢
    by_cases hle : seq ≤ n
    · rw [if_pos hle] at hpass ⊢
      exact squashPasses_left _ hpass
    · rw [if_neg hle] at hends hpass ⊢
      by_cases hvalid : (s.validLFST idx && decide (n < s.LFST idx)) = true
      · rw [if_pos hvalid] at hends hpass ⊢
        exact (squashPasses_again _ hpass).trans (ih _ hends)
      · rw [if_neg hvalid] at hends hpass ⊢
        by_cases hinvalid : (!s.validLFST idx && decide (n < s.LFST idx)) = true
        · rw [if_pos hinvalid] at hends hpass ⊢
          exact (squashPasses_again _ hpass).trans (ih s hends)
        · rw [if_neg hinvalid] at hends
          cases hends

section

/-- The list of stores is in order, and no store in it is younger than the last store of
its set. -/
structure Referenced (s : StoreSet assoc) (next : InstSeqNum) : Prop where
  sorted : s.storeList.Pairwise fun a b => b.1 < a.1
  inserted : ∀ y ∈ s.storeList, y.1 < next
  le_last : ∀ y ∈ s.storeList, y.1 ≤ s.LFST y.2
  hung : s.hung = false

variable {p} {s s' : StoreSet assoc} {next : InstSeqNum}

section

variable (h : Referenced s next)
include h

theorem Referenced.sublist (hlist : s'.storeList.Sublist s.storeList) (hLFST : s'.LFST = s.LFST)
    (hhung : s'.hung = s.hung) : Referenced s' next where
  sorted := h.sorted.sublist hlist
  inserted := fun y hy => h.inserted y (hlist.subset hy)
  le_last := fun y hy => by
    rw [hLFST]
    exact h.le_last y (hlist.subset hy)
  hung := hhung.trans h.hung

theorem Referenced.checkClear : Referenced (s.checkClear p) next := by
  unfold StoreSet.checkClear
  split
  · exact h.sublist (List.nil_sublist _) rfl rfl
  · exact h.sublist (List.Sublist.refl _) rfl rfl

theorem Referenced.violation (store_PC load_PC : Addr) (storeVictim loadVictim : Fin assoc) :
    Referenced (s.violation p store_PC load_PC storeVictim loadVictim) next := by
  unfold StoreSet.violation
  split
  · exact h.sublist (List.Sublist.refl _) rfl rfl
  · exact h.sublist (List.Sublist.refl _) rfl rfl
  · exact h.sublist (List.Sublist.refl _) rfl rfl
  · dsimp only
    split <;> exact h.sublist (List.Sublist.refl _) rfl rfl

theorem Referenced.issued (pc : Addr) (seq : InstSeqNum) (is_store : Bool) :
    Referenced (s.issued p pc seq is_store) next := by
  unfold StoreSet.issued
  split
  · dsimp only
    split <;> exact h.sublist List.filter_sublist rfl rfl
  · exact h

theorem Referenced.insertStore (pc : Addr) {seq : InstSeqNum} (hseq : next ≤ seq) :
    Referenced (s.insertStore p pc seq) (seq + 1) := by
  have hclear := h.checkClear (p := p)
  have hlt : ∀ y ∈ (s.checkClear p).storeList, y.1 < seq :=
    fun y hy => (hclear.inserted y hy).trans_le hseq
  unfold StoreSet.insertStore
  cases s.ssidOf p pc with
  | none =>
    exact ⟨hclear.sorted, fun y hy => (hlt y hy).trans (Nat.lt_succ_self seq), hclear.le_last,
      hclear.hung⟩
  | some ssid =>
    -- the new store comes first in the list
    dsimp only
    rw [filter_newest hlt ssid.toNat]
    refine ⟨List.pairwise_cons.mpr ⟨hlt, hclear.sorted⟩, fun y hy => ?_, fun y hy => ?_,
      hclear.hung⟩
    · obtain rfl | hy := List.mem_cons.mp hy
      · exact Nat.lt_succ_self seq
      · exact (hlt y hy).trans (Nat.lt_succ_self seq)
    · obtain rfl | hy := List.mem_cons.mp hy
      · simp
      · by_cases hset : y.2 = ssid.toNat
        · -- an older store of the set that the new one joins
          simpa [hset] using (hlt y hy).le
        · exact (hclear.le_last y hy).trans_eq (Function.update_of_ne hset _ _).symm

theorem Referenced.squash_eq (n : InstSeqNum) :
    s.squash n =
      { s with
        storeList := s.storeList.filter (·.1 ≤ n)
        validLFST := fun i => s.validLFST i && !s.storeList.any fun y => n < y.1 && y.2 == i } :=
  squashLoop_eq n s.storeList s h.sorted fun y hy hlt => hlt.trans_le (h.le_last y hy)

theorem Referenced.squash (n : InstSeqNum) : Referenced (s.squash n) next := by
  rw [h.squash_eq]
  exact h.sublist List.filter_sublist rfl rfl

end

theorem Referenced.step {m : Machine assoc} (h : Referenced m.tables m.next) {c : Call assoc}
    (hc : Increasing m c) : Referenced (step p m c).tables (step p m c).next := by
  cases c with
  | violation store_PC load_PC storeVictim loadVictim => exact h.violation _ _ _ _
  | insertLoad => exact h.checkClear
  | insertStore pc seq => exact h.insertStore pc hc
  | issued pc seq is_store => exact h.issued pc seq is_store
  | squash n => exact h.squash n
  | clear => exact h.sublist (List.nil_sublist _) rfl rfl

end

/-- After every sequence of calls, a squash ends: the loop passes at most once over each
store. Afterwards the list holds its former stores up to the squashed number, and the last
store of a set is forgotten exactly where the list named the set for a younger store. -/
theorem squash_ends (calls : List (Call assoc))
    (hl : Legal (step p) Increasing ({} : Machine assoc) calls) (n : InstSeqNum) :
    let s := (run (step p) {} calls).tables
    (∀ seq ssid, (seq, ssid) ∈ s.storeList → seq ≤ s.LFST ssid) ∧
    squashPasses n (s.storeList.length + 1) s = some (s.squash n) ∧
    (s.squash n).storeList = s.storeList.filter (·.1 ≤ n) ∧
    (s.squash n).LFST = s.LFST ∧
    (∀ seq ssid, (seq, ssid) ∈ s.storeList → n < seq →
      n < s.LFST ssid ∧ (s.squash n).validLFST ssid = false) ∧
    ∀ ssid, (∀ seq, (seq, ssid) ∈ s.storeList → seq ≤ n) →
      (s.squash n).validLFST ssid = s.validLFST ssid := by
  intro s
  obtain ⟨next, h⟩ : ∃ next, Referenced s next :=
    ⟨_, run_inv (fun m : Machine assoc => Referenced m.tables m.next)
      (fun _ _ h hc => h.step hc) calls ⟨.nil, nofun, nofun, rfl⟩ hl⟩
  refine ⟨fun seq ssid hmem => h.le_last _ hmem, ?_, ?_, ?_, fun seq ssid hmem hlt => ?_,
    fun ssid hold => ?_⟩
  · exact squashPasses_eq n s.storeList s (h.squash n).hung
  · rw [h.squash_eq]
  · rw [h.squash_eq]
  · refine ⟨hlt.trans_le (h.le_last _ hmem), ?_⟩
    have hnamed : (s.storeList.any fun y => n < y.1 && y.2 == ssid) = true :=
      List.any_eq_true.mpr ⟨_, hmem, by simp [hlt]⟩
    rw [h.squash_eq]
    simp only [hnamed, Bool.not_true, Bool.and_false]
  · have hnone : (s.storeList.any fun y => n < y.1 && y.2 == ssid) = false := by
      refine List.any_eq_false.mpr fun y hy => ?_
      simp only [Bool.and_eq_true, decide_eq_true_eq, beq_iff_eq, not_and]
      rintro hlt rfl
      exact absurd (hold y.1 hy) (Nat.not_le.mpr hlt)
    rw [h.squash_eq]
    simp only [hnone, Bool.not_false, Bool.and_true]

theorem squash_ends_pair :
    let s := (run (step small) {}
      [.violation 4 8 0 1, .insertStore 4 1, .insertStore 4 2, .issued 4 2 true]).tables
    squashPasses 0 (s.storeList.length + 1) s = some (s.squash 0) ∧
      (s.squash 0).storeList = [] ∧ (s.squash 0).validLFST 8 = false := by
  intro s
  obtain ⟨-, hends, -, -, hgone, -⟩ := squash_ends small
    [.violation 4 8 0 1, .insertStore 4 1, .insertStore 4 2, .issued 4 2 true] (by decide +kernel) 0
  exact ⟨hends, by decide +kernel, (hgone 1 8 (by decide +kernel) (by decide)).2⟩

/-- Two stores of a set; the younger one issues after its address has joined another set. It
is then no longer in the list, and a squash leaves it the valid last store of a set that the
list names. -/
theorem squash_leaves_younger :
    let calls := [.violation 4 8 0 1, .violation 20 5 2 3, .insertStore 4 1, .insertStore 4 2,
      .violation 4 5 0 1, .issued 4 2 true]
    let s := (run (step small) {} calls).tables
    Legal (step small) Increasing {} calls ∧ (1, 8) ∈ s.storeList ∧ 1 < s.LFST 8 ∧
      (s.squash 1).validLFST 8 = true := by
  decide +kernel

end Gem5Core.O3.StoreSetSquash
