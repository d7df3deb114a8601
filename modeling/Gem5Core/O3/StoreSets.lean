import Gem5Core.Base.Cache
import Gem5Core.Pred.Branch

/-! The store set predictor of memory dependences (`cpu/o3/store_set.cc`). The victims of its table
are arguments. -/
namespace Gem5Core.O3.StoreSets
open Pred.Branch Base.Cache Function

abbrev SSID := Addr

structure SSITEntry where
  valid : Bool := false
  tag : Addr := -1
  ssid : SSID := -1

/-- The last two fields are the indexing policy. -/
structure Params (assoc : Nat) where
  clearPeriod : Nat
  LFSTSize : Nat
  extractSet : Addr → Nat
  extractTag : Addr → Addr

/-- `storeList` is listed from the largest sequence number on. `asserted` stays true as long as no
`assert` failed, `hung` says that the loop of `squash` made no progress. -/
structure StoreSet (assoc : Nat) where
  SSIT : AssociativeCache SSITEntry assoc := ⟨fun _ _ => {}⟩
  LFST : Nat → InstSeqNum := fun _ => 0
  validLFST : Nat → Bool := fun _ => false
  storeList : List (InstSeqNum × Nat) := []
  memOpsPred : Nat := 0
  asserted : Bool := true
  hung : Bool := false

variable {assoc : Nat}

def ssitEntry (p : Params assoc) : EntryType SSITEntry Addr where
  isMatch := fun entry addr => entry.valid && entry.tag == p.extractTag addr
  insert := fun entry addr => { entry with valid := true, tag := p.extractTag addr }
  invalidate := fun entry => { entry with valid := false, tag := -1 }

def calcSSID (p : Params assoc) (pc : Addr) : SSID :=
  (pc ^^^ (pc >>> 10)) % BitVec.ofNat 64 p.LFSTSize

namespace StoreSet

variable (p : Params assoc) (s : StoreSet assoc)

def findEntry (pc : Addr) : Option (Fin assoc) :=
  s.SSIT.findEntry (ssitEntry p) p.extractSet pc

def ssidOf (pc : Addr) : Option SSID :=
  (s.findEntry p pc).map fun way => (s.SSIT.entries (p.extractSet pc) way).ssid

def setSSID (pc : Addr) (way : Fin assoc) (ssid : SSID) : StoreSet assoc :=
  { s with SSIT := s.SSIT.modify (p.extractSet pc) way fun entry => { entry with ssid } }

def replaceEntry (pc : Addr) (victim : Fin assoc) (ssid : SSID) : StoreSet assoc :=
  let s := { s with SSIT := s.SSIT.findVictim (ssitEntry p) p.extractSet pc victim }
  let s := s.setSSID p pc victim ssid
  { s with SSIT := s.SSIT.insertEntry (ssitEntry p) p.extractSet pc victim }

def violation (store_PC load_PC : Addr) (storeVictim loadVictim : Fin assoc) : StoreSet assoc :=
  match s.findEntry p load_PC, s.findEntry p store_PC with
  | none, none =>
      let new_set := calcSSID p load_PC
      let s := { s with asserted := s.asserted && new_set.toNat < p.LFSTSize }
      (s.replaceEntry p load_PC loadVictim new_set).replaceEntry p store_PC storeVictim new_set
  | some load, none =>
      let load_SSID := (s.SSIT.entries (p.extractSet load_PC) load).ssid
      { s.replaceEntry p store_PC storeVictim load_SSID with
        asserted := s.asserted && load_SSID.toNat < p.LFSTSize }
  | none, some store =>
      s.replaceEntry p load_PC loadVictim (s.SSIT.entries (p.extractSet store_PC) store).ssid
  | some load, some store =>
      let load_SSID := (s.SSIT.entries (p.extractSet load_PC) load).ssid
      let store_SSID := (s.SSIT.entries (p.extractSet store_PC) store).ssid
      let s := { s with
        asserted := s.asserted && load_SSID.toNat < p.LFSTSize && store_SSID.toNat < p.LFSTSize }
      -- the store set with the lower number wins
      if load_SSID < store_SSID then s.setSSID p store_PC store load_SSID
      else s.setSSID p load_PC load store_SSID

def clear : StoreSet assoc :=
  { s with
    SSIT := ⟨fun set way => { s.SSIT.entries set way with valid := false, tag := -1 }⟩
    validLFST := fun _ => false
    storeList := [] }

/-- `memOpsPred` is an `int` in the source, large enough while `clearPeriod < 2 ^ 31 - 1`. -/
def checkClear : StoreSet assoc :=
  if p.clearPeriod < s.memOpsPred + 1 then { s.clear with memOpsPred := 0 }
  else { s with memOpsPred := s.memOpsPred + 1 }

def insertStore (store_PC : Addr) (store_seq_num : InstSeqNum) : StoreSet assoc :=
  let valid_entry := s.ssidOf p store_PC
  let s := s.checkClear p
  match valid_entry with
  | none => s
  | some store_SSID =>
      { s with
        LFST := update s.LFST store_SSID.toNat store_seq_num
        validLFST := update s.validLFST store_SSID.toNat true
        storeList := s.storeList.filter (store_seq_num < ·.1) ++
          (store_seq_num, store_SSID.toNat) :: s.storeList.filter (·.1 < store_seq_num)
        asserted := s.asserted && store_SSID.toNat < p.LFSTSize }

def checkInst (pc : Addr) : InstSeqNum :=
  match s.ssidOf p pc with
  | none => 0
  | some inst_SSID =>
      if s.validLFST inst_SSID.toNat then s.LFST inst_SSID.toNat else 0

def issued (issued_PC : Addr) (issued_seq_num : InstSeqNum) (is_store : Bool) : StoreSet assoc :=
  if is_store then
    let s := { s with storeList := s.storeList.filter (·.1 != issued_seq_num) }
    match s.ssidOf p issued_PC with
    | none => s
    | some store_SSID =>
        { s with
          asserted := s.asserted && store_SSID.toNat < p.LFSTSize
          validLFST :=
            if s.validLFST store_SSID.toNat && s.LFST store_SSID.toNat == issued_seq_num then
              update s.validLFST store_SSID.toNat false
            else s.validLFST }
  else s

/-- The loop of `squash`. It spins forever on a younger store whose last fetched store is
not younger. -/
def squashLoop (squashed_num : InstSeqNum) :
    List (InstSeqNum × Nat) → StoreSet assoc → StoreSet assoc
  | [], s => { s with storeList := [] }
  | (seq, idx) :: rest, s =>
      if seq ≤ squashed_num then { s with storeList := (seq, idx) :: rest }
      else
        let younger := squashed_num < s.LFST idx
        if s.validLFST idx && younger then
          squashLoop squashed_num rest
            { s with validLFST := update s.validLFST idx false }
        else if !s.validLFST idx && younger then squashLoop squashed_num rest s
        else { s with storeList := (seq, idx) :: rest, hung := true }

def squash (squashed_num : InstSeqNum) : StoreSet assoc :=
  squashLoop squashed_num s.storeList s

end StoreSet

theorem filter_newest {stores : List (InstSeqNum × Nat)} {seq : InstSeqNum}
    (hlt : ∀ y ∈ stores, y.1 < seq) (idx : Nat) :
    stores.filter (seq < ·.1) ++ (seq, idx) :: stores.filter (·.1 < seq) =
      (seq, idx) :: stores := by
  have hnone : stores.filter (seq < ·.1) = [] :=
    List.filter_eq_nil_iff.mpr fun y hy => by simpa using (hlt y hy).le
  have hall : stores.filter (·.1 < seq) = stores :=
    List.filter_eq_self.mpr fun y hy => by simpa using hlt y hy
  rw [hnone, hall, List.nil_append]

variable {P : InstSeqNum → Prop}

section

variable {p : Params assoc} {s : StoreSet assoc}

def Names (P : InstSeqNum → Prop) (s : StoreSet assoc) : Prop :=
  ∀ i, s.validLFST i = true → P (s.LFST i)

def Shrinks (s s' : StoreSet assoc) : Prop :=
  s'.LFST = s.LFST ∧ ∀ i, s'.validLFST i = true → s.validLFST i = true

theorem Names.mono {Q : InstSeqNum → Prop} (h : Names P s) (hPQ : ∀ x, P x → Q x) : Names Q s :=
  fun i hi => hPQ _ (h i hi)

theorem Names.shrink {s' : StoreSet assoc} (h : Names P s) (hs : Shrinks s s') : Names P s' := by
  intro i hi
  rw [hs.1]
  exact h i (hs.2 i hi)

theorem checkInst_spec (h : Names P s) (pc : Addr) :
    s.checkInst p pc = 0 ∨ P (s.checkInst p pc) := by
  unfold StoreSet.checkInst
  cases s.ssidOf p pc with
  | none => exact .inl rfl
  | some ssid =>
    cases hvalid : s.validLFST ssid.toNat with
    | false => exact .inl (by simp [hvalid])
    | true => exact .inr (by simpa [hvalid] using h _ hvalid)

theorem shrinks_violation (store_PC load_PC : Addr) (storeVictim loadVictim : Fin assoc) :
    Shrinks s (s.violation p store_PC load_PC storeVictim loadVictim) := by
  unfold StoreSet.violation
  split
  · exact ⟨rfl, fun _ h => h⟩
  · exact ⟨rfl, fun _ h => h⟩
  · exact ⟨rfl, fun _ h => h⟩
  · dsimp only
    split <;> exact ⟨rfl, fun _ h => h⟩

private theorem shrinks_checkClear : Shrinks s (s.checkClear p) := by
  unfold StoreSet.checkClear
  split
  · exact ⟨rfl, fun _ h => nomatch h⟩
  · exact ⟨rfl, fun _ h => h⟩

theorem shrinks_update (idx : Nat) :
    ∀ i, update s.validLFST idx false i = true → s.validLFST i = true := by
  intro i hi
  by_cases heq : i = idx
  · simp [heq] at hi
  · rwa [update_of_ne heq] at hi

theorem shrinks_issued (pc : Addr) (seq : InstSeqNum) (is_store : Bool) :
    Shrinks s (s.issued p pc seq is_store) := by
  unfold StoreSet.issued
  split
  · dsimp only
    split
    · exact ⟨rfl, fun _ h => h⟩
    · refine ⟨rfl, fun i hi => ?_⟩
      split at hi
      · exact shrinks_update _ i hi
      · exact hi
  · exact ⟨rfl, fun _ h => h⟩

private theorem shrinks_squashLoop (squashed_num : InstSeqNum) (stores : List (InstSeqNum × Nat))
    (s : StoreSet assoc) : Shrinks s (StoreSet.squashLoop squashed_num stores s) := by
  induction stores generalizing s with
  | nil => exact ⟨rfl, fun _ h => h⟩
  | cons store rest ih =>
    obtain ⟨seq, idx⟩ := store
    unfold StoreSet.squashLoop
    split
    · exact ⟨rfl, fun _ h => h⟩
    · dsimp only
      split
      · obtain ⟨hLFST, hvalid⟩ := ih { s with validLFST := update s.validLFST idx false }
        exact ⟨hLFST, fun i hi => shrinks_update idx i (hvalid i hi)⟩
      · split
        · exact ih s
        · exact ⟨rfl, fun _ h => h⟩

theorem shrinks_squash (squashed_num : InstSeqNum) : Shrinks s (s.squash squashed_num) :=
  shrinks_squashLoop squashed_num s.storeList s

theorem Names.insertStore (h : Names P s) (pc : Addr) {seq : InstSeqNum} (hseq : P seq) :
    Names P (s.insertStore p pc seq) := by
  have hclear := h.shrink (shrinks_checkClear (p := p))
  unfold StoreSet.insertStore
  cases s.ssidOf p pc with
  | none => exact hclear
  | some ssid =>
    intro i hi
    by_cases heq : i = ssid.toNat
    · simpa [heq] using hseq
    · simp only [update_of_ne heq] at hi ⊢
      exact hclear i hi

end

end Gem5Core.O3.StoreSets
