import Mathlib.Algebra.GroupWithZero.Nat
import Gem5Core.O3.StoreSetSquash

/-! What a violation teaches the store set predictor: the load and the store get entries with one
set. The table is a cache, and the entry of the one is lost if that of the other takes its place. -/
namespace Gem5Core.O3.StoreSetLearning
open Pred.Branch Base.Cache StoreSets
open StoreSetSquash (Call)
open Lib.Protocol (run run_always)
open AssociativeCache StoreSet

variable {assoc : Nat} {p : Params assoc} {s : StoreSet assoc} {pc : Addr}

section

variable (p s)

def Holds (pc : Addr) (way : Fin assoc) : Prop :=
  (ssitEntry p).isMatch (s.SSIT.entries (p.extractSet pc) way) pc = true

def Sound : Prop :=
  ∀ set way, (s.SSIT.entries set way).valid = true →
    (s.SSIT.entries set way).ssid.toNat < p.LFSTSize

variable {p s}

theorem holds_iff {way : Fin assoc} :
    Holds p s pc way ↔ (s.SSIT.entries (p.extractSet pc) way).valid = true ∧
      (s.SSIT.entries (p.extractSet pc) way).tag = p.extractTag pc := by
  simp [Holds, ssitEntry]

theorem replaceEntry_entries (pc : Addr) (victim : Fin assoc) (ssid : SSID) (set : Nat)
    (way : Fin assoc) :
    (s.replaceEntry p pc victim ssid).SSIT.entries set way =
      if set = p.extractSet pc ∧ way = victim then ⟨true, p.extractTag pc, ssid⟩
      else s.SSIT.entries set way := by
  simp only [replaceEntry, setSSID, insertEntry,
    findVictim]
  by_cases hset : set = p.extractSet pc
  · subst hset
    by_cases hway : way = victim
    · subst hway
      simp [ssitEntry]
    · simp [hway, modify_way hway]
  · simp [hset, modify_set hset]

theorem setSSID_entries (pc : Addr) (way : Fin assoc) (ssid : SSID) (set : Nat)
    (way' : Fin assoc) :
    (s.setSSID p pc way ssid).SSIT.entries set way' =
      if set = p.extractSet pc ∧ way' = way then { s.SSIT.entries set way' with ssid }
      else s.SSIT.entries set way' := by
  simp only [setSSID]
  by_cases hset : set = p.extractSet pc
  · subst hset
    by_cases hway : way' = way
    · subst hway
      simp
    · simp [hway, modify_way hway]
  · simp [hset, modify_set hset]

theorem ssidOf_of_findEntry {way : Fin assoc} (h : s.findEntry p pc = some way) :
    s.ssidOf p pc = some (s.SSIT.entries (p.extractSet pc) way).ssid := by
  rw [ssidOf, h, Option.map_some]

theorem not_holds (h : s.findEntry p pc = none) (way : Fin assoc) : ¬Holds p s pc way :=
  Bool.eq_false_iff.mp (findEntry_eq_none.mp h way)

theorem ssidOf_eq (way : Fin assoc) {ssid : SSID} (hway : Holds p s pc way)
    (hall : ∀ way', Holds p s pc way' → (s.SSIT.entries (p.extractSet pc) way').ssid = ssid) :
    s.ssidOf p pc = some ssid := by
  cases hfound : s.findEntry p pc with
  | none => exact absurd hway (not_holds hfound way)
  | some way' =>
    rw [ssidOf_of_findEntry hfound, hall way' (findEntry_match hfound)]

end

theorem calcSSID_lt (hpos : 0 < p.LFSTSize) (hsize : p.LFSTSize < 2 ^ 31) (pc : Addr) :
    (calcSSID p pc).toNat < p.LFSTSize := by
  have hmod : p.LFSTSize % 2 ^ 64 = p.LFSTSize := Nat.mod_eq_of_lt (by omega)
  rw [calcSSID, BitVec.toNat_umod, BitVec.toNat_ofNat, hmod]
  exact Nat.mod_lt _ hpos

theorem Sound.replaceEntry (h : Sound p s) (pc : Addr) (victim : Fin assoc) {ssid : SSID}
    (hssid : ssid.toNat < p.LFSTSize) : Sound p (s.replaceEntry p pc victim ssid) := by
  intro set way
  rw [replaceEntry_entries]
  split
  · exact fun _ => hssid
  · exact h set way

theorem Sound.setSSID (h : Sound p s) (pc : Addr) (way : Fin assoc) {ssid : SSID}
    (hssid : ssid.toNat < p.LFSTSize) : Sound p (s.setSSID p pc way ssid) := by
  intro set way'
  rw [setSSID_entries]
  split
  · exact fun _ => hssid
  · exact h set way'

theorem Sound.found (h : Sound p s) {way : Fin assoc} (hfound : s.findEntry p pc = some way) :
    (s.SSIT.entries (p.extractSet pc) way).ssid.toNat < p.LFSTSize :=
  h _ _ (holds_iff.mp (findEntry_match hfound)).1

theorem Sound.violation (h : Sound p s) (hpos : 0 < p.LFSTSize) (hsize : p.LFSTSize < 2 ^ 31)
    (store_PC load_PC : Addr) (storeVictim loadVictim : Fin assoc) :
    Sound p (s.violation p store_PC load_PC storeVictim loadVictim) := by
  have hnew := calcSSID_lt hpos hsize load_PC
  unfold StoreSet.violation
  split
  · exact Sound.replaceEntry (Sound.replaceEntry h _ _ hnew) _ _ hnew
  next load hload hstore => exact Sound.replaceEntry h _ _ (h.found hload)
  next store hload hstore => exact Sound.replaceEntry h _ _ (h.found hstore)
  next load store hload hstore =>
    dsimp only
    split
    · exact Sound.setSSID h _ _ (h.found hload)
    · exact Sound.setSSID h _ _ (h.found hstore)

theorem sound_clear : Sound p s.clear := fun _ _ hvalid => nomatch hvalid

theorem Sound.checkClear (h : Sound p s) : Sound p (s.checkClear p) := by
  unfold StoreSet.checkClear
  split
  · exact sound_clear
  · exact h

theorem Sound.insertStore (h : Sound p s) (pc : Addr) (seq : InstSeqNum) :
    Sound p (s.insertStore p pc seq) := by
  unfold StoreSet.insertStore
  cases s.ssidOf p pc with
  | none => exact h.checkClear
  | some ssid => exact h.checkClear

theorem squashLoop_SSIT (n : InstSeqNum) (stores : List (InstSeqNum × Nat)) (s : StoreSet assoc) :
    (squashLoop n stores s).SSIT = s.SSIT := by
  induction stores generalizing s with
  | nil => rfl
  | cons store rest ih =>
    rw [squashLoop]
    split
    · rfl
    · dsimp only
      split
      · rw [ih]
      · split
        · rw [ih]
        · rfl

theorem Sound.issued (h : Sound p s) (pc : Addr) (seq : InstSeqNum) (is_store : Bool) :
    Sound p (s.issued p pc seq is_store) := by
  unfold StoreSet.issued
  split
  · dsimp only
    split <;> exact h
  · exact h

theorem sound_run (hpos : 0 < p.LFSTSize) (hsize : p.LFSTSize < 2 ^ 31)
    (calls : List (Call assoc)) : Sound p (run (StoreSetSquash.step p) {} calls).tables := by
  refine run_always (fun m : StoreSetSquash.Machine assoc => Sound p m.tables) (fun m c h => ?_)
    calls fun _ _ hvalid => nomatch hvalid
  cases c with
  | violation store_PC load_PC storeVictim loadVictim => exact h.violation hpos hsize _ _ _ _
  | insertLoad => exact h.checkClear
  | insertStore pc seq => exact h.insertStore pc seq
  | issued pc seq is_store => exact h.issued pc seq is_store
  | squash n => exact fun set way => squashLoop_SSIT n m.tables.storeList m.tables ▸ h set way
  | clear => exact sound_clear

section

variable (p s)

/-- The entry of the load or of the store is not the victim of the other; of two new ones, the
second does not take the place of the first. -/
def Keeps (store_PC load_PC : Addr) (storeVictim loadVictim : Fin assoc) : Prop :=
  p.extractSet load_PC ≠ p.extractSet store_PC ∨
    match s.findEntry p load_PC, s.findEntry p store_PC with
    | none, none => p.extractTag load_PC = p.extractTag store_PC ∨ loadVictim ≠ storeVictim
    | some load, none => load ≠ storeVictim
    | none, some store => store ≠ loadVictim
    | some _, some _ => True

def Joined (store_PC load_PC : Addr) (ssid : SSID) : Prop :=
  s.ssidOf p store_PC = some ssid ∧ s.ssidOf p load_PC = some ssid

variable {p s}

theorem joined_new {store_PC load_PC : Addr} {storeVictim loadVictim : Fin assoc} (ssid : SSID)
    (hload : s.findEntry p load_PC = none) (hstore : s.findEntry p store_PC = none)
    (hkeep : p.extractSet load_PC ≠ p.extractSet store_PC ∨
      p.extractTag load_PC = p.extractTag store_PC ∨ loadVictim ≠ storeVictim) :
    Joined p ((s.replaceEntry p load_PC loadVictim ssid).replaceEntry p store_PC storeVictim ssid)
      store_PC load_PC ssid := by
  have hentries := fun set way => (replaceEntry_entries (p := p)
    (s := s.replaceEntry p load_PC loadVictim ssid) store_PC storeVictim ssid set way).trans
      (congrArg _ (replaceEntry_entries load_PC loadVictim ssid set way))
  -- an address without an entry can only be held by one of the new ones
  have hall : ∀ pc, s.findEntry p pc = none → ∀ way,
      Holds p ((s.replaceEntry p load_PC loadVictim ssid).replaceEntry p store_PC storeVictim ssid)
        pc way →
      (((s.replaceEntry p load_PC loadVictim ssid).replaceEntry p store_PC storeVictim
        ssid).SSIT.entries (p.extractSet pc) way).ssid = ssid := by
    intro pc hpc way
    rw [holds_iff, hentries]
    split
    · exact fun _ => rfl
    · split
      · exact fun _ => rfl
      · exact fun h => absurd (holds_iff.mpr h) (not_holds hpc way)
  constructor
  · refine ssidOf_eq storeVictim (holds_iff.mpr ?_) (hall _ hstore)
    rw [hentries, if_pos ⟨rfl, rfl⟩]
    exact ⟨rfl, rfl⟩
  · refine ssidOf_eq loadVictim (holds_iff.mpr ?_) (hall _ hload)
    rw [hentries]
    by_cases hsame : p.extractSet load_PC = p.extractSet store_PC ∧ loadVictim = storeVictim
    · obtain hset | htag | hvictim := hkeep
      · exact absurd hsame.1 hset
      · rw [if_pos hsame]
        exact ⟨rfl, htag.symm⟩
      · exact absurd hsame.2 hvictim
    · rw [if_neg hsame, if_pos ⟨rfl, rfl⟩]
      exact ⟨rfl, rfl⟩

theorem joined_add {other : Addr} {way victim : Fin assoc} (hfound : s.findEntry p other = some way)
    (hpc : s.findEntry p pc = none) (hkeep : p.extractSet other ≠ p.extractSet pc ∨ way ≠ victim) :
    let ssid := (s.SSIT.entries (p.extractSet other) way).ssid
    (s.replaceEntry p pc victim ssid).ssidOf p pc = some ssid ∧
      (s.replaceEntry p pc victim ssid).ssidOf p other = some ssid := by
  intro ssid
  have hkept : ¬(p.extractSet other = p.extractSet pc ∧ way = victim) := by
    rintro ⟨hset, hway⟩
    exact hkeep.elim (· hset) (· hway)
  constructor
  · refine ssidOf_eq victim (holds_iff.mpr ?_) fun way' hway' => ?_
    · rw [replaceEntry_entries, if_pos ⟨rfl, rfl⟩]
      exact ⟨rfl, rfl⟩
    · rw [holds_iff] at hway'
      rw [replaceEntry_entries] at hway' ⊢
      split at hway'
      · next hnew => rw [if_pos hnew]
      · exact absurd (holds_iff.mpr hway') (not_holds hpc way')
  · have hmatch := findEntry_match hfound
    have hfound' : (s.replaceEntry p pc victim ssid).findEntry p other = some way := by
      refine findEntry_stable hfound ?_ fun way' hway' => ?_
      · rw [replaceEntry_entries, if_neg hkept]
        exact hmatch
      · rw [replaceEntry_entries] at hway'
        split at hway'
        next hnew =>
          -- with the same tag, the address would have had an entry
          have htag : p.extractTag pc = p.extractTag other := by simpa [ssitEntry] using hway'
          have hholds := holds_iff.mp hmatch
          rw [hnew.1, ← htag] at hholds
          exact absurd (holds_iff.mpr hholds) (not_holds hpc way)
        next => exact hway'
    rw [ssidOf_of_findEntry hfound', replaceEntry_entries, if_neg hkept]

theorem joined_move {other : Addr} {way way' : Fin assoc} (hpc : s.findEntry p pc = some way)
    (hother : s.findEntry p other = some way') :
    let ssid := (s.SSIT.entries (p.extractSet other) way').ssid
    (s.setSSID p pc way ssid).ssidOf p pc = some ssid ∧
      (s.setSSID p pc way ssid).ssidOf p other = some ssid := by
  intro ssid
  have hmatch : ∀ key w, (ssitEntry p).isMatch
      ((s.setSSID p pc way ssid).SSIT.entries (p.extractSet key) w) key =
        (ssitEntry p).isMatch (s.SSIT.entries (p.extractSet key) w) key := by
    intro key w
    rw [setSSID_entries]
    split <;> rfl
  have hfound : ∀ {key w}, s.findEntry p key = some w →
      (s.setSSID p pc way ssid).findEntry p key = some w := by
    intro key w h
    refine findEntry_stable h ?_ fun w' hw' => ?_
    · rw [hmatch]
      exact findEntry_match h
    · rwa [hmatch] at hw'
  constructor
  · rw [ssidOf_of_findEntry (hfound hpc), setSSID_entries, if_pos ⟨rfl, rfl⟩]
  · rw [ssidOf_of_findEntry (hfound hother), setSSID_entries]
    split <;> rfl

theorem joined_violation (hpos : 0 < p.LFSTSize) (hsize : p.LFSTSize < 2 ^ 31) (hs : Sound p s)
    {store_PC load_PC : Addr} {storeVictim loadVictim : Fin assoc}
    (hkeep : Keeps p s store_PC load_PC storeVictim loadVictim) :
    ∃ ssid, Joined p (s.violation p store_PC load_PC storeVictim loadVictim) store_PC load_PC
        ssid ∧ ssid.toNat < p.LFSTSize := by
  unfold Keeps at hkeep
  unfold violation
  cases hload : s.findEntry p load_PC with
  | none =>
    cases hstore : s.findEntry p store_PC with
    | none =>
      rw [hload, hstore] at hkeep
      exact ⟨_, joined_new (calcSSID p load_PC) hload hstore hkeep, calcSSID_lt hpos hsize _⟩
    | some store =>
      rw [hload, hstore] at hkeep
      obtain ⟨hl, hst⟩ := joined_add hstore hload (hkeep.imp_left Ne.symm)
      exact ⟨_, ⟨hst, hl⟩, hs.found hstore⟩
  | some load =>
    cases hstore : s.findEntry p store_PC with
    | none =>
      rw [hload, hstore] at hkeep
      obtain ⟨hst, hl⟩ := joined_add hload hstore hkeep
      exact ⟨_, ⟨hst, hl⟩, hs.found hload⟩
    | some store =>
      dsimp only
      split
      · obtain ⟨hst, hl⟩ := joined_move hstore hload
        exact ⟨_, ⟨hst, hl⟩, hs.found hload⟩
      · obtain ⟨hl, hst⟩ := joined_move hload hstore
        exact ⟨_, ⟨hst, hl⟩, hs.found hstore⟩

variable (p s) in
/-- No address is held by two ways. -/
def Distinct : Prop := ∀ pc way way', Holds p s pc way → Holds p s pc way' → way = way'

theorem lost_replace {other : Addr} {way : Fin assoc} (hdistinct : Distinct p s) (ssid : SSID)
    (hfound : s.findEntry p other = some way) (hpc : s.findEntry p pc = none)
    (hset : p.extractSet other = p.extractSet pc) :
    (s.replaceEntry p pc way ssid).ssidOf p other = none := by
  have hmatch := findEntry_match hfound
  have hnone : (s.replaceEntry p pc way ssid).findEntry p other = none := by
    refine findEntry_eq_none.mpr fun way' => Bool.eq_false_iff.mpr fun hway' => ?_
    rw [replaceEntry_entries] at hway'
    split at hway'
    next hnew =>
      have htag : p.extractTag pc = p.extractTag other := by simpa [ssitEntry] using hway'
      have hholds := holds_iff.mp hmatch
      rw [hset, ← htag] at hholds
      exact not_holds hpc way (holds_iff.mpr hholds)
    next hold => exact hold ⟨hset, hdistinct other way' way hway' hmatch⟩
  rw [ssidOf, hnone, Option.map_none]

theorem lost_new {store_PC load_PC : Addr} {victim : Fin assoc} (ssid : SSID)
    (hload : s.findEntry p load_PC = none) (hset : p.extractSet load_PC = p.extractSet store_PC)
    (htag : p.extractTag load_PC ≠ p.extractTag store_PC) :
    ((s.replaceEntry p load_PC victim ssid).replaceEntry p store_PC victim ssid).ssidOf p load_PC =
      none := by
  have hnone : ((s.replaceEntry p load_PC victim ssid).replaceEntry p store_PC victim
      ssid).findEntry p load_PC = none := by
    refine findEntry_eq_none.mpr fun way => Bool.eq_false_iff.mpr fun hway => ?_
    rw [replaceEntry_entries] at hway
    split at hway
    next =>
      have heq : p.extractTag store_PC = p.extractTag load_PC := by simpa [ssitEntry] using hway
      exact htag heq.symm
    next hold =>
      rw [replaceEntry_entries, if_neg (hset ▸ hold)] at hway
      exact not_holds hload way hway
  rw [ssidOf, hnone, Option.map_none]

theorem keeps_of_joined (hdistinct : Distinct p s) {store_PC load_PC : Addr}
    {storeVictim loadVictim : Fin assoc} {ssid : SSID}
    (h : Joined p (s.violation p store_PC load_PC storeVictim loadVictim) store_PC load_PC ssid) :
    Keeps p s store_PC load_PC storeVictim loadVictim := by
  by_cases hset : p.extractSet load_PC = p.extractSet store_PC
  · refine .inr ?_
    obtain ⟨hst, hl⟩ := h
    unfold violation at hst hl
    cases hload : s.findEntry p load_PC with
    | none =>
      cases hstore : s.findEntry p store_PC with
      | none =>
        rw [hload, hstore] at hl
        by_contra hkeep
        obtain ⟨htag, hvictim⟩ := not_or.mp hkeep
        obtain rfl := not_not.mp hvictim
        cases (lost_new _ hload hset htag).symm.trans hl
      | some store =>
        rw [hload, hstore] at hst
        rintro rfl
        cases (lost_replace hdistinct _ hstore hload hset.symm).symm.trans hst
    | some load =>
      cases hstore : s.findEntry p store_PC with
      | none =>
        rw [hload, hstore] at hl
        rintro rfl
        cases (lost_replace hdistinct _ hload hstore hset).symm.trans hl
      | some store => trivial
  · exact .inl hset

theorem Joined.checkInst {store_PC load_PC : Addr} {ssid : SSID}
    (h : Joined p s store_PC load_PC ssid) (hclear : s.memOpsPred + 1 ≤ p.clearPeriod)
    (seq : InstSeqNum) : (s.insertStore p store_PC seq).checkInst p load_PC = seq := by
  have hsame : s.checkClear p = { s with memOpsPred := s.memOpsPred + 1 } :=
    if_neg hclear.not_gt
  have hssid : (s.insertStore p store_PC seq).ssidOf p load_PC = some ssid := by
    rw [StoreSet.insertStore, h.1, hsame]
    exact h.2
  rw [StoreSet.checkInst, hssid, StoreSet.insertStore, h.1]
  simp

theorem memOpsPred_violation (store_PC load_PC : Addr) (storeVictim loadVictim : Fin assoc) :
    (s.violation p store_PC load_PC storeVictim loadVictim).memOpsPred = s.memOpsPred := by
  unfold violation
  split
  · rfl
  · rfl
  · rfl
  · dsimp only
    split <;> rfl

end

/-- In every state that calls reach, a violation joins the load and the store in one set,
unless the entry of the one takes the place of the other's; where no address is held by
two ways, one of them is then lost. The load depends on the next store at the
address, if the tables are not cleared before. -/
theorem violation_learned (p : Params assoc) (hpos : 0 < p.LFSTSize) (hsize : p.LFSTSize < 2 ^ 31)
    (calls : List (Call assoc)) (store_PC load_PC : Addr) (storeVictim loadVictim : Fin assoc) :
    let s := (run (StoreSetSquash.step p) {} calls).tables
    let s' := s.violation p store_PC load_PC storeVictim loadVictim
    let learned := (∃ ssid, s'.ssidOf p store_PC = some ssid ∧ s'.ssidOf p load_PC = some ssid ∧
        ssid.toNat < p.LFSTSize) ∧
      ∀ seq, s.memOpsPred + 1 ≤ p.clearPeriod →
        (s'.insertStore p store_PC seq).checkInst p load_PC = seq
    (Keeps p s store_PC load_PC storeVictim loadVictim → learned) ∧
    (Distinct p s → learned → Keeps p s store_PC load_PC storeVictim loadVictim) := by
  intro s s' learned
  constructor
  · intro hkeep
    obtain ⟨ssid, hjoined, hlt⟩ := joined_violation hpos hsize (sound_run hpos hsize calls) hkeep
    refine ⟨⟨ssid, hjoined.1, hjoined.2, hlt⟩, fun seq hclear => hjoined.checkInst ?_ seq⟩
    rwa [memOpsPred_violation]
  · rintro hdistinct ⟨⟨ssid, hst, hl, -⟩, -⟩
    exact keeps_of_joined hdistinct ⟨hst, hl⟩

/-- The defaults of `BaseO3CPU.py`, but for the associativity: 1024 sets, four bytes an entry. -/
def tableOf (assoc : Nat) : Params assoc where
  clearPeriod := 250000
  LFSTSize := 1024
  extractSet := fun addr => ((addr >>> 2) &&& 1023).toNat
  extractTag := fun addr => addr >>> 12

def shipped : Params 1 := tableOf 1

/-- A second store of the load, all three in one set of two ways. -/
theorem violation_learned_second :
    let s := (run (StoreSetSquash.step (tableOf 2)) {} [.violation 0x2000 0x1000 1 0]).tables
    let s' := s.violation (tableOf 2) 0x3000 0x1000 1 0
    s.ssidOf (tableOf 2) 0x2000 = s.ssidOf (tableOf 2) 0x1000 ∧
    (s'.insertStore (tableOf 2) 0x3000 7).checkInst (tableOf 2) 0x1000 = 7 := by
  have hkeep : (0 : Fin 2) ≠ 1 := by decide
  exact ⟨by decide +kernel, ((violation_learned (tableOf 2) (by decide) (by decide)
    [.violation 0x2000 0x1000 1 0] 0x3000 0x1000 1 0).1 (.inr hkeep)).2 7 (by decide +kernel)⟩

/-- Two addresses of one set of the shipped table: the entry of the store takes the place of
the load's, and the load does not find the store. -/
theorem violation_not_learned :
    let s' := ({} : StoreSet 1).violation shipped 0x2000 0x1000 0 0
    s'.ssidOf shipped 0x1000 = none ∧ s'.ssidOf shipped 0x2000 = some 4 ∧
      (s'.insertStore shipped 0x2000 7).checkInst shipped 0x1000 = 0 := by
  decide +kernel

end Gem5Core.O3.StoreSetLearning
