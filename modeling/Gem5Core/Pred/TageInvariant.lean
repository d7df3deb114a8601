import Mathlib.Data.Finset.Card
import Mathlib.Tactic.IntervalCases
import Gem5Core.Pred.TageTables

/-! What the tables of `TAGEBase` keep through any sequence of predictions and updates. The thread
history may be any at each prediction, and an update may come any time after its prediction. -/
namespace Gem5Core.Pred.TageInvariant
open Branch TageBase TageTables List

variable (p : TableParams)

/-- `init` accepts them, the tags fit a `uint16_t` and the counters an `int8_t`. In others the
shifts of the source are undefined. -/
structure Accepted : Prop where
  init : p.initAccepts = true
  tables_pos : 1 ≤ p.nHistoryTables
  tables_le : p.nHistoryTables ≤ 64
  tagWidth_le : ∀ bank, p.tagTableTagWidths bank ≤ 16
  counterBits_pos : 1 ≤ p.tagTableCounterBits
  counterBits_le : p.tagTableCounterBits ≤ 8

structure EntryOk (bank : Nat) (entry : TageEntry) : Prop where
  ctr_ge : -2 ^ (p.tagTableCounterBits - 1) ≤ entry.ctr
  ctr_le : entry.ctr ≤ 2 ^ (p.tagTableCounterBits - 1) - 1
  u_le : entry.u ≤ 2 ^ p.tagTableUBits - 1
  tag_lt : entry.tag.toNat < 2 ^ p.tagTableTagWidths bank

theorem EntryOk.inType {p : TableParams} {bank : Nat} {entry : TageEntry} (h : EntryOk p bank entry)
    (hp : Accepted p) : (-128 ≤ entry.ctr ∧ entry.ctr ≤ 127) ∧ entry.u ≤ 3 := by
  have hbits : (2 : Int) ^ (p.tagTableCounterBits - 1) ≤ 2 ^ 7 :=
    pow_le_pow_right₀ (by decide) (Nat.sub_le_sub_right hp.counterBits_le 1)
  have hinit := hp.init
  simp only [TableParams.initAccepts, Bool.and_eq_true, decide_eq_true_eq] at hinit
  have hubits : 2 ^ p.tagTableUBits ≤ 2 ^ 2 := Nat.pow_le_pow_right (by decide) (by omega)
  have hge := h.ctr_ge
  have hle := h.ctr_le
  have hu := h.u_le
  omega

def IsLongest (found : Nat → Bool) (bound bank : Nat) : Prop :=
  bank ≤ bound ∧ (0 < bank → found bank = true) ∧
    ∀ i, bank < i → i ≤ bound → found i = false

/-- The banks of a record are ordered, and the indices and tags it saved are
those of its tables. -/
structure RecordOk (bi : PredInfo) : Prop where
  banks : bi.hitBank = 0 ∧ bi.altBank = 0 ∨ bi.altBank < bi.hitBank
  hitBank_le : bi.hitBank ≤ p.nHistoryTables
  hitIndex : 0 < bi.hitBank → bi.hitBankIndex = bi.tableIndices bi.hitBank
  altIndex : 0 < bi.altBank → bi.altBankIndex = bi.tableIndices bi.altBank
  index_lt : ∀ i, 1 ≤ i → i ≤ p.nHistoryTables →
    (bi.tableIndices i).toNat < 2 ^ p.logTagTableSizes i
  tag_lt : ∀ i, 1 ≤ i → i ≤ p.nHistoryTables →
    (bi.tableTags i).toNat < 2 ^ p.tagTableTagWidths i

structure TablesOk (tables : Tables) : Prop where
  entry : ∀ bank index, EntryOk p bank (tables.gtable bank index)
  inBounds : tables.inBounds = true

variable (taken : Bool)

private theorem ctrUpdate_range {ctr : Int} {nbits : Nat} (hge : -2 ^ (nbits - 1) ≤ ctr)
    (hle : ctr ≤ 2 ^ (nbits - 1) - 1) :
    -2 ^ (nbits - 1) ≤ ctrUpdate ctr taken nbits ∧
      ctrUpdate ctr taken nbits ≤ 2 ^ (nbits - 1) - 1 := by
  unfold ctrUpdate
  split <;> split <;> omega

theorem unsignedCtrUpdate_le {ctr nbits : Nat} (up : Bool) (h : ctr ≤ 2 ^ nbits - 1) :
    unsignedCtrUpdate ctr up nbits ≤ 2 ^ nbits - 1 := by
  unfold unsignedCtrUpdate
  split
  · split <;> omega
  · omega

theorem searchDown_isLongest (found : Nat → Bool) (n : Nat) :
    IsLongest found n (searchDown found n) := by
  induction n with
  | zero => exact ⟨le_rfl, by simp [searchDown], by omega⟩
  | succ n ih =>
    obtain ⟨hle, hfound, habove⟩ := ih
    unfold searchDown
    split
    · rename_i h
      exact ⟨le_rfl, fun _ => h, by omega⟩
    · rename_i h
      refine ⟨by omega, hfound, fun i hlt hi => ?_⟩
      rcases Nat.lt_or_ge n i with hn | hn
      · have hi' : i = n + 1 := by omega
        simpa [hi'] using h
      · exact habove i hlt hn

theorem and_lowMask_lt (x : BitVec 32) (n : Nat) : (x &&& lowMask n).toNat < 2 ^ n := by
  have hmask : (lowMask n).toNat ≤ 2 ^ n - 1 := by
    unfold lowMask
    exact Nat.mod_le _ _
  have hand : (x &&& lowMask n).toNat ≤ (lowMask n).toNat := by
    exact Nat.and_le_right
  have hpos := Nat.two_pow_pos n
  omega

variable (t : ThreadHistory)

private theorem gindex_lt (pc : Addr) (bank : Nat) :
    (gindex p.toParams t pc bank).toNat < 2 ^ p.logTagTableSizes bank :=
  and_lowMask_lt _ _

private theorem gtag_lt (pc : Addr) (bank : Nat) :
    (gtag p.toParams t pc bank).toNat < 2 ^ p.tagTableTagWidths bank := by
  unfold gtag
  exact lt_of_le_of_lt (Nat.mod_le _ _) (and_lowMask_lt _ _)

def indexed (t : ThreadHistory) (pc : Addr) (bi : PredInfo) : PredInfo :=
  { bi with
    toBranchInfo := calculateIndicesAndTags p.toParams t pc bi.toBranchInfo
    bimodalIndex := bindex p pc }

variable (tables : Tables)

theorem tagePredict_cond (t : ThreadHistory) (pc : Addr) (bi : PredInfo) :
    (tagePredict p tables t pc true bi).2 =
      choosePrediction tables (findBanks p tables (indexed p t pc bi)) := rfl

theorem choosePrediction_frame (bi : PredInfo) :
    (choosePrediction tables bi).hitBank = bi.hitBank ∧
      (choosePrediction tables bi).altBank = bi.altBank ∧
      (choosePrediction tables bi).hitBankIndex = bi.hitBankIndex ∧
      (choosePrediction tables bi).altBankIndex = bi.altBankIndex ∧
      (choosePrediction tables bi).bimodalIndex = bi.bimodalIndex ∧
      (choosePrediction tables bi).toBranchInfo = bi.toBranchInfo := by
  unfold choosePrediction
  split
  · dsimp only
    split <;> exact ⟨rfl, rfl, rfl, rfl, rfl, rfl⟩
  · exact ⟨rfl, rfl, rfl, rfl, rfl, rfl⟩

theorem indexed_index (pc : Addr) (bi : PredInfo) {i : Nat} (hpos : 1 ≤ i)
    (hle : i ≤ p.nHistoryTables) :
    (indexed p t pc bi).tableIndices i = gindex p.toParams t pc i := by
  simp [indexed, calculateIndicesAndTags, forTables, hpos, hle]

private theorem indexed_tag (pc : Addr) (bi : PredInfo) {i : Nat} (hpos : 1 ≤ i)
    (hle : i ≤ p.nHistoryTables) : (indexed p t pc bi).tableTags i = gtag p.toParams t pc i := by
  simp [indexed, calculateIndicesAndTags, forTables, hpos, hle]

theorem tagePredict_recordOk (t : ThreadHistory) (pc : Addr) (bi : PredInfo) :
    RecordOk p (tagePredict p tables t pc true bi).2 := by
  rw [tagePredict_cond]
  obtain ⟨hhit, halt, hhitIndex, haltIndex, -, hinfo⟩ :=
    choosePrediction_frame tables (findBanks p tables (indexed p t pc bi))
  have hhitLe := (searchDown_isLongest (bankMatches p tables (indexed p t pc bi))
    p.nHistoryTables).1
  have haltLe := (searchDown_isLongest (bankMatches p tables (indexed p t pc bi))
    (findBanks p tables (indexed p t pc bi)).hitBank.pred).1
  have hinfo' : (findBanks p tables (indexed p t pc bi)).toBranchInfo =
    (indexed p t pc bi).toBranchInfo := rfl
  constructor
  case banks =>
    have hle : (findBanks p tables (indexed p t pc bi)).altBank ≤
      (findBanks p tables (indexed p t pc bi)).hitBank - 1 := haltLe
    omega
  case hitBank_le => rw [hhit]; exact hhitLe
  case hitIndex =>
    intro hpos
    rw [hhit] at hpos
    rw [hhitIndex, hhit, hinfo]
    exact if_pos hpos
  case altIndex =>
    intro hpos
    rw [halt] at hpos
    rw [haltIndex, halt, hinfo]
    exact if_pos hpos
  case index_lt =>
    intro i hpos hle
    rw [hinfo, hinfo', indexed_index p t pc bi hpos hle]
    exact gindex_lt p t pc i
  case tag_lt =>
    intro i hpos hle
    rw [hinfo, hinfo', indexed_tag p t pc bi hpos hle]
    exact gtag_lt p t pc i

private theorem tagePredict_isLongest (t : ThreadHistory) (pc : Addr) (bi : PredInfo) :
    IsLongest (bankMatches p tables (tagePredict p tables t pc true bi).2) p.nHistoryTables
        (tagePredict p tables t pc true bi).2.hitBank ∧
      IsLongest (bankMatches p tables (tagePredict p tables t pc true bi).2)
        ((tagePredict p tables t pc true bi).2.hitBank - 1)
        (tagePredict p tables t pc true bi).2.altBank := by
  rw [tagePredict_cond]
  obtain ⟨hhit, halt, -, -, -, hinfo⟩ :=
    choosePrediction_frame tables (findBanks p tables (indexed p t pc bi))
  have hmatches : bankMatches p tables
      (choosePrediction tables (findBanks p tables (indexed p t pc bi))) =
      bankMatches p tables (indexed p t pc bi) := by
    funext i
    simp only [bankMatches, entryOf, hinfo]
    rfl
  rw [hmatches, hhit, halt]
  exact ⟨searchDown_isLongest _ _, searchDown_isLongest _ _⟩

variable (banks : List Nat) (numAllocated : Nat) {bank : Nat}

section

theorem half_pos : (0 : Int) < 2 ^ (p.tagTableCounterBits - 1) := Int.pow_pos (by decide)

theorem init_ok : TablesOk p (Tables.init p) := by
  have hpow := half_pos p
  refine ⟨fun bank index => ⟨?_, ?_, Nat.zero_le _, ?_⟩, rfl⟩
  · change -2 ^ (p.tagTableCounterBits - 1) ≤ (0 : Int)
    omega
  · change (0 : Int) ≤ 2 ^ (p.tagTableCounterBits - 1) - 1
    omega
  · exact Nat.two_pow_pos _

theorem EntryOk.train {entry : TageEntry} (h : EntryOk p bank entry) (taken : Bool) :
    EntryOk p bank (trainCtr p taken entry) := by
  obtain ⟨hge, hle⟩ := ctrUpdate_range taken h.ctr_ge h.ctr_le
  exact ⟨hge, hle, h.u_le, h.tag_lt⟩

theorem EntryOk.setU {entry : TageEntry} (h : EntryOk p bank entry) {u : Nat}
    (hu : u ≤ 2 ^ p.tagTableUBits - 1) : EntryOk p bank { entry with u } :=
  ⟨h.ctr_ge, h.ctr_le, hu, h.tag_lt⟩

theorem EntryOk.allocated {entry : TageEntry} (h : EntryOk p bank entry) (taken : Bool)
    {tag : BitVec 16} (htag : tag.toNat < 2 ^ p.tagTableTagWidths bank) :
    EntryOk p bank (allocEntry taken tag entry) := by
  have hpow := half_pos p
  refine ⟨?_, ?_, h.u_le, htag⟩ <;> simp only [allocEntry] <;> split <;> omega

def InRange (bank : Nat) (index : BitVec 32) : Prop :=
  1 ≤ bank ∧ bank ≤ p.nHistoryTables ∧ index.toNat < 2 ^ p.logTagTableSizes bank

variable {p} {tables : Tables} {bi : PredInfo}

section

variable (h : TablesOk p tables)
include h

theorem TablesOk.access {index : BitVec 32} (hrange : InRange p bank index) :
    TablesOk p (tables.access p bank index) := by
  refine ⟨h.entry, ?_⟩
  unfold Tables.access
  rw [h.inBounds]
  exact decide_eq_true hrange

theorem TablesOk.modify {index : BitVec 32} (hrange : InRange p bank index)
    {f : TageEntry → TageEntry} (hf : ∀ entry, EntryOk p bank entry → EntryOk p bank (f entry)) :
    TablesOk p (tables.modify p bank index f) := by
  refine ⟨fun bank' index' => ?_, (h.access hrange).inBounds⟩
  unfold Tables.modify
  by_cases hbank : bank' = bank
  · subst hbank
    by_cases hindex : index' = index.toNat
    · subst hindex
      simpa using hf _ (h.entry bank' index.toNat)
    · simpa [Function.update_of_ne hindex] using h.entry bank' index'
  · simpa [Function.update_of_ne hbank] using h.entry bank' index'

theorem TablesOk.baseUpdate (taken : Bool) (bi : PredInfo) :
    TablesOk p (baseUpdate p tables taken bi) := { h with }

theorem TablesOk.trainUseAlt (taken : Bool) (bi : PredInfo) :
    TablesOk p (trainUseAlt p tables taken bi) := by
  unfold TageTables.trainUseAlt
  split <;> exact { h with }

end

theorem RecordOk.inRange (h : RecordOk p bi) {i : Nat} (hpos : 1 ≤ i)
    (hle : i ≤ p.nHistoryTables) : InRange p i (bi.tableIndices i) :=
  ⟨hpos, hle, h.index_lt i hpos hle⟩

private theorem mem_banksAbove {i : Nat} :
    i ∈ banksAbove p bi ↔ bi.hitBank < i ∧ i ≤ p.nHistoryTables := by
  unfold banksAbove
  rw [mem_reverse, mem_range'_1]
  omega

theorem minUseful_fold (tables : Tables) (min : Nat) (hok : TablesOk p tables)
    (hbanks : ∀ i ∈ banks, InRange p i (bi.tableIndices i)) :
    let result := banks.foldl
      (fun (tables, min) i =>
        let u := (entryOf tables bi i).u
        (tables.access p i (bi.tableIndices i), if u < min then u else min)) (tables, min)
    TablesOk p result.1 ∧ result.1.gtable = tables.gtable ∧ result.2 ≤ min ∧
      ∀ i ∈ banks, result.2 ≤ (entryOf tables bi i).u := by
  induction banks generalizing tables min with
  | nil => exact ⟨hok, rfl, le_rfl, by simp⟩
  | cons i rest ih =>
    obtain ⟨hi, hrest⟩ := forall_mem_cons.mp hbanks
    obtain ⟨hok', hgtable, hmin, hu⟩ := ih (tables.access p i (bi.tableIndices i))
      (if (entryOf tables bi i).u < min then (entryOf tables bi i).u else min)
      (hok.access hi) hrest
    refine ⟨hok', hgtable, ?_, forall_mem_cons.mpr ⟨?_, hu⟩⟩
    · apply le_trans hmin
      split <;> omega
    · apply le_trans hmin
      split <;> omega

theorem minUseful_ok (hok : TablesOk p tables) (hrec : RecordOk p bi) :
    TablesOk p (minUseful p tables bi).1 ∧ (minUseful p tables bi).1.gtable = tables.gtable ∧
      (0 < (minUseful p tables bi).2 →
        ∀ i, bi.hitBank < i → i ≤ p.nHistoryTables → 0 < (entryOf tables bi i).u) := by
  have hbanks : ∀ i ∈ banksAbove p bi, InRange p i (bi.tableIndices i) := by
    intro i hi
    rw [mem_banksAbove] at hi
    exact hrec.inRange (by omega) hi.2
  obtain ⟨hok', hgtable, -, hu⟩ := minUseful_fold (banksAbove p bi) tables 1 hok hbanks
  refine ⟨hok', hgtable, fun hpos i hlt hle => ?_⟩
  exact lt_of_lt_of_le hpos (hu i (mem_banksAbove.mpr ⟨hlt, hle⟩))

theorem startBank_range (hlt : bi.hitBank < p.nHistoryTables) (nrand : BitVec 32) :
    bi.hitBank < startBank p bi nrand ∧ startBank p bi nrand ≤ p.nHistoryTables := by
  have hbit : ∀ j k : Nat,
      ((nrand.signExtend 64 &&& lowMask64 k).setWidth 32).getLsbD j = true → j < k := by
    intro j k h
    rw [BitVec.getLsbD_setWidth, BitVec.getLsbD_and, Bool.and_eq_true, Bool.and_eq_true] at h
    have hmask := h.2.2
    unfold lowMask64 at hmask
    rw [BitVec.getLsbD_ofNat, Nat.testBit_two_pow_sub_one, Bool.and_eq_true] at hmask
    exact of_decide_eq_true hmask.2
  have h0 := hbit 0 (p.nHistoryTables - bi.hitBank - 1)
  have h1 := hbit 1 (p.nHistoryTables - bi.hitBank - 1)
  unfold startBank
  dsimp only
  split
  · have := h0 ‹_›
    split
    · have := h1 ‹_›
      omega
    · omega
  · omega

@[simp] theorem modify_self (bank : Nat) (index : BitVec 32) (f : TageEntry → TageEntry) :
    (tables.modify p bank index f).gtable bank index.toNat =
      f (tables.gtable bank index.toNat) := by
  simp [Tables.modify]

theorem modify_other {bank' index' : Nat} {index : BitVec 32} (f : TageEntry → TageEntry)
    (h : ¬(bank' = bank ∧ index' = index.toNat)) :
    (tables.modify p bank index f).gtable bank' index' = tables.gtable bank' index' := by
  unfold Tables.modify
  by_cases hbank : bank' = bank
  · subst hbank
    have hindex : index' ≠ index.toNat := fun heq => h ⟨rfl, heq⟩
    simp [Function.update_of_ne hindex]
  · simp [Function.update_of_ne hbank]

theorem allocLoop_ok (hrec : RecordOk p bi) (banks : List Nat) (numAllocated : Nat)
    (tables : Tables) (hok : TablesOk p tables) (hbanks : ∀ i ∈ banks, 1 ≤ i ∧ i ≤ p.nHistoryTables) :
    TablesOk p (allocLoop p taken bi banks numAllocated tables).1 := by
  induction banks generalizing numAllocated tables with
  | nil => exact hok
  | cons i rest ih =>
    obtain ⟨hi, hrest⟩ := forall_mem_cons.mp hbanks
    have hrange := hrec.inRange hi.1 hi.2
    have hnew := hok.modify hrange fun entry hentry =>
      hentry.allocated p taken (hrec.tag_lt i hi.1 hi.2)
    unfold allocLoop
    split
    · split
      · exact hnew
      · exact ih _ _ hnew hrest
    · exact ih _ _ (hok.access hrange) hrest

theorem allocLoop_sublist (tables : Tables) :
    (allocLoop p taken bi banks numAllocated tables).2.Sublist banks := by
  induction banks generalizing numAllocated tables with
  | nil => exact List.Sublist.slnil
  | cons i rest ih =>
    unfold allocLoop
    split
    · split
      · exact (nil_sublist rest).cons_cons i
      · exact (ih _ _).cons_cons i
    · exact (ih _ _).cons i

private theorem allocLoop_length (tables : Tables) (hlt : numAllocated < p.maxNumAlloc) :
    (allocLoop p taken bi banks numAllocated tables).2.length + numAllocated ≤
      p.maxNumAlloc := by
  induction banks generalizing numAllocated tables with
  | nil => simpa [allocLoop] using hlt.le
  | cons i rest ih =>
    unfold allocLoop
    split
    · split
      · simp only [length_singleton]
        omega
      · have h := ih (numAllocated + 1)
          (tables.modify p i (bi.tableIndices i) (allocEntry taken (bi.tableTags i))) (by omega)
        simp only [length_cons]
        omega
    · exact ih _ _ hlt

theorem allocLoop_frame (tables : Tables) (bank index : Nat)
    (hchanged : (allocLoop p taken bi banks numAllocated tables).1.gtable bank index ≠
      tables.gtable bank index) :
    bank ∈ (allocLoop p taken bi banks numAllocated tables).2 ∧
      index = (bi.tableIndices bank).toNat := by
  induction banks generalizing numAllocated tables with
  | nil => exact absurd rfl hchanged
  | cons i rest ih =>
    by_cases hu : (entryOf tables bi i).u = 0
    · by_cases hself : bank = i ∧ index = (bi.tableIndices i).toNat
      · obtain ⟨rfl, rfl⟩ := hself
        unfold allocLoop
        rw [if_pos hu]
        split <;> exact ⟨by simp, rfl⟩
      · unfold allocLoop at hchanged ⊢
        rw [if_pos hu] at hchanged ⊢
        have hother : (tables.modify p i (bi.tableIndices i)
            (allocEntry taken (bi.tableTags i))).gtable bank index = tables.gtable bank index :=
          modify_other _ hself
        split at hchanged
        · exact (hchanged hother).elim
        · rename_i hmax
          rw [← hother] at hchanged
          rw [if_neg hmax]
          exact ⟨mem_cons_of_mem _ (ih _ _ hchanged).1, (ih _ _ hchanged).2⟩
    · unfold allocLoop at hchanged ⊢
      rw [if_neg hu] at hchanged ⊢
      exact ih _ _ hchanged

theorem allocLoop_useful (tables : Tables) (huseful : ∀ i ∈ banks, 0 < (entryOf tables bi i).u) :
    (allocLoop p taken bi banks numAllocated tables).2 = [] := by
  induction banks generalizing numAllocated tables with
  | nil => rfl
  | cons i rest ih =>
    obtain ⟨hi, hrest⟩ := forall_mem_cons.mp huseful
    unfold allocLoop
    rw [if_neg (by omega)]
    exact ih _ _ hrest

private theorem allocLoop_forced (tables : Tables) (X n : Nat) (hfree : (entryOf tables bi X).u = 0)
    (huseful : ∀ i ∈ List.range' (X + 1) n, 0 < (entryOf tables bi i).u) :
    (allocLoop p taken bi (List.range' X (n + 1)) 0 tables).2 = [X] := by
  rw [range'_succ]
  unfold allocLoop
  rw [if_pos hfree]
  dsimp only
  split
  · rfl
  · rw [allocLoop_useful]
    intro i hi
    have hne : ¬(i = X ∧ (bi.tableIndices i).toNat = (bi.tableIndices X).toNat) := by
      rw [mem_range'_1] at hi
      omega
    unfold entryOf
    rw [modify_other _ hne]
    exact huseful i hi

structure AllocOk (p : TableParams) (bi : PredInfo) (tables : Tables)
    (result : Tables × List Nat) : Prop where
  ok : TablesOk p result.1
  above : ∀ bank ∈ result.2, bi.hitBank < bank ∧ bank ≤ p.nHistoryTables
  count : 1 ≤ p.maxNumAlloc → result.2.toFinset.card ≤ p.maxNumAlloc
  frame : ∀ bank index, result.1.gtable bank index ≠ tables.gtable bank index →
    bank ∈ result.2 ∧ index = (bi.tableIndices bank).toNat

theorem mem_banksFrom {X i : Nat} :
    i ∈ List.range' X (p.nHistoryTables + 1 - X) ↔ X ≤ i ∧ i ≤ p.nHistoryTables := by
  rw [mem_range'_1]
  omega

theorem allocLoop_allocOk (hok : TablesOk p tables) (hrec : RecordOk p bi) {X : Nat}
    (hX : bi.hitBank < X) :
    AllocOk p bi tables
      (allocLoop p taken bi (List.range' X (p.nHistoryTables + 1 - X)) 0 tables) := by
  have hmem : ∀ i ∈ List.range' X (p.nHistoryTables + 1 - X),
      1 ≤ i ∧ i ≤ p.nHistoryTables := by
    intro i hi
    rw [mem_banksFrom] at hi
    omega
  constructor
  case ok => exact allocLoop_ok taken hrec _ _ _ hok hmem
  case above =>
    intro bank hbank
    have hbank' := (allocLoop_sublist taken _ _ _).subset hbank
    rw [mem_banksFrom] at hbank'
    omega
  case count =>
    intro hpos
    have hlength : (allocLoop p taken bi (List.range' X (p.nHistoryTables + 1 - X)) 0
        tables).2.length + 0 ≤ p.maxNumAlloc := allocLoop_length taken _ 0 tables hpos
    exact le_trans (toFinset_card_le _) (by omega)
  case frame => exact allocLoop_frame taken _ _ _

theorem allocLoop_forced_allocOk (hok : TablesOk p tables) (hrec : RecordOk p bi) {X : Nat}
    (hX : bi.hitBank < X) (hXle : X ≤ p.nHistoryTables)
    (huseful : ∀ i, bi.hitBank < i → i ≤ p.nHistoryTables → 0 < (entryOf tables bi i).u) :
    let freed := tables.modify p X (bi.tableIndices X) fun entry => { entry with u := 0 }
    let result := allocLoop p taken bi (List.range' X (p.nHistoryTables + 1 - X)) 0 freed
    AllocOk p bi tables (result.1, X :: result.2) := by
  intro freed result
  have hfreed : TablesOk p freed := hok.modify (hrec.inRange (by omega) hXle) fun entry hentry =>
    hentry.setU p (Nat.zero_le _)
  have hloop : AllocOk p bi freed result := allocLoop_allocOk taken hfreed hrec hX
  have hwritten : result.2 = [X] := by
    obtain ⟨n, hn⟩ : ∃ n, p.nHistoryTables + 1 - X = n + 1 := ⟨p.nHistoryTables - X, by omega⟩
    simp only [result, hn]
    apply allocLoop_forced
    · simp [entryOf, freed]
    · intro i hi
      rw [mem_range'_1] at hi
      have hne : ¬(i = X ∧ (bi.tableIndices i).toNat = (bi.tableIndices X).toNat) := by omega
      unfold entryOf
      rw [modify_other _ hne]
      exact huseful i (by omega) (by omega)
  constructor
  case ok => exact hloop.ok
  case above =>
    simp only [hwritten, mem_cons, not_mem_nil, or_false, or_self]
    rintro bank rfl
    exact ⟨hX, hXle⟩
  case count =>
    intro hpos
    simpa [hwritten] using hpos
  case frame =>
    intro bank index hchanged
    by_cases hself : bank = X ∧ index = (bi.tableIndices X).toNat
    · obtain ⟨rfl, rfl⟩ := hself
      exact ⟨mem_cons_self, rfl⟩
    · have hother : freed.gtable bank index = tables.gtable bank index := modify_other _ hself
      rw [← hother] at hchanged
      obtain ⟨hmem, hindex⟩ := hloop.frame bank index hchanged
      exact ⟨mem_cons_of_mem _ hmem, hindex⟩

theorem allocate_ok (nrand : BitVec 32) (hok : TablesOk p tables) (hrec : RecordOk p bi)
    (hlt : bi.hitBank < p.nHistoryTables) :
    AllocOk p bi tables (allocate p tables taken bi nrand) := by
  obtain ⟨hmin, hgtable, huseful⟩ := minUseful_ok hok hrec
  obtain ⟨hX, hXle⟩ := startBank_range hlt nrand
  have huseful' : 0 < (minUseful p tables bi).2 → ∀ i, bi.hitBank < i → i ≤ p.nHistoryTables →
      0 < (entryOf (minUseful p tables bi).1 bi i).u := by
    intro hpos i
    unfold entryOf
    rw [hgtable]
    exact huseful hpos i
  have hresult : AllocOk p bi (minUseful p tables bi).1 (allocate p tables taken bi nrand) := by
    unfold allocate
    dsimp only
    split
    · rename_i hpos
      exact allocLoop_forced_allocOk taken hmin hrec hX hXle (huseful' hpos)
    · exact allocLoop_allocOk taken hmin hrec hX
  refine ⟨hresult.ok, hresult.above, hresult.count, ?_⟩
  rw [← hgtable]
  exact hresult.frame

theorem TablesOk.handleUReset (h : TablesOk p tables) : TablesOk p (handleUReset p tables) := by
  unfold TageTables.handleUReset
  split
  · refine ⟨fun bank index => ?_, h.inBounds⟩
    dsimp only
    have hentry := h.entry bank index
    split
    · apply hentry.setU
      have hle := hentry.u_le
      unfold resetUctr
      omega
    · exact hentry
  · exact h

theorem wantsAlloc_lt {taken : Bool} (h : wantsAlloc p taken bi = true) :
    bi.hitBank < p.nHistoryTables := by
  unfold wantsAlloc at h
  simp only [Bool.and_eq_true, decide_eq_true_eq] at h
  exact h.1.2

section

variable (h : TablesOk p tables)
include h

theorem TablesOk.handleAllocAndUReset (taken : Bool) (hrec : RecordOk p bi) (nrand : BitVec 32) :
    TablesOk p (handleAllocAndUReset p tables (wantsAlloc p taken bi) taken bi nrand) := by
  unfold TageTables.handleAllocAndUReset
  apply TablesOk.handleUReset
  split
  · rename_i halloc
    have hallocated := (allocate_ok taken nrand h hrec (wantsAlloc_lt halloc)).ok
    exact { hallocated with }
  · exact { h with }

theorem TablesOk.trainAlternate (taken : Bool) (hrec : RecordOk p bi) :
    TablesOk p (trainAlternate p tables taken bi) := by
  unfold TageTables.trainAlternate
  split
  · split
    · rename_i halt
      have hbanks := hrec.banks
      have hle := hrec.hitBank_le
      have hrange : InRange p bi.altBank bi.altBankIndex := by
        rw [hrec.altIndex halt]
        exact hrec.inRange halt (by omega)
      exact h.modify hrange fun entry hentry => hentry.train p taken
    · exact h.baseUpdate taken bi
  · exact h

theorem TablesOk.handleTAGEUpdate (taken : Bool) (hrec : RecordOk p bi) :
    TablesOk p (handleTAGEUpdate p tables taken bi) := by
  unfold TageTables.handleTAGEUpdate
  split
  · rename_i hpos
    have hrange : InRange p bi.hitBank bi.hitBankIndex := by
      rw [hrec.hitIndex hpos]
      exact hrec.inRange hpos hrec.hitBank_le
    have htrained := h.modify hrange fun entry hentry => hentry.train p taken
    have halternate := htrained.trainAlternate taken hrec
    dsimp only
    split
    · apply halternate.modify hrange
      intro entry hentry
      exact hentry.setU p (unsignedCtrUpdate_le _ hentry.u_le)
    · exact halternate
  · exact h.baseUpdate taken bi

theorem TablesOk.condBranchUpdate (taken : Bool) (hrec : RecordOk p bi) (nrand : BitVec 32) :
    TablesOk p (condBranchUpdate p tables taken bi nrand) :=
  ((h.trainUseAlt taken bi).handleAllocAndUReset taken hrec nrand).handleTAGEUpdate taken hrec

end

end

section

/-- `records` are those that `tagePredict` has filled, youngest first. -/
structure State where
  tables : Tables
  records : List PredInfo := []

/-- A prediction meets any thread history; an update is for any record filled
before. -/
inductive Event where
  | predict (t : ThreadHistory) (branch_pc : Addr) (cond_branch : Bool)
  | update (k : Nat) (taken : Bool) (nrand : BitVec 32)

def step (st : State) : Event → State
  | .predict t branch_pc cond_branch =>
      let (_, bi) := tagePredict p st.tables t branch_pc cond_branch
        (newPredInfo branch_pc cond_branch)
      -- the record of an unconditional branch is not filled
      if cond_branch then { st with records := bi :: st.records } else st
  | .update k taken nrand =>
      match st.records[k]? with
      | none => st
      | some bi => { st with tables := condBranchUpdate p st.tables taken bi nrand }

def run (events : List Event) : State :=
  events.foldl (step p) { tables := .init p }

structure Inv (st : State) : Prop where
  tables : TablesOk p st.tables
  records : ∀ bi ∈ st.records, RecordOk p bi

variable {p}

theorem step_inv {st : State} (h : Inv p st) (event : Event) : Inv p (step p st event) := by
  cases event with
  | predict t branch_pc cond_branch =>
    cases cond_branch with
    | false => exact h
    | true =>
      exact ⟨h.tables, forall_mem_cons.mpr
        ⟨tagePredict_recordOk p st.tables t branch_pc _, h.records⟩⟩
  | update k taken nrand =>
    unfold step
    dsimp only
    split
    · exact h
    · rename_i bi hbi
      have hrec := h.records bi (mem_of_getElem? hbi)
      exact ⟨h.tables.condBranchUpdate taken hrec nrand, h.records⟩

theorem run_inv (events : List Event) : Inv p (run p events) := by
  induction events using List.reverseRecOn with
  | nil => exact ⟨init_ok p, by simp [run]⟩
  | append_singleton events event ih =>
    simpa [run] using step_inv ih event

/-- In every state reached: the entries are in range, which is within the `int8_t` and `uint8_t`
that hold them, the next prediction finds the two longest matching banks, every filled record has
its banks in order, and the next update allocates above the hit only, at most `maxNumAlloc`
entries, and has so far indexed no bank outside the tables. -/
theorem tables_invariant (config : Accepted p) (events : List Event) :
    (∀ bank index, let entry := (run p events).tables.gtable bank index
      EntryOk p bank entry ∧ (-128 ≤ entry.ctr ∧ entry.ctr ≤ 127) ∧ entry.u ≤ 3) ∧
      (∀ t branch_pc,
        let bi := (tagePredict p (run p events).tables t branch_pc true
          (newPredInfo branch_pc true)).2
        IsLongest (bankMatches p (run p events).tables bi) p.nHistoryTables bi.hitBank ∧
          IsLongest (bankMatches p (run p events).tables bi) (bi.hitBank - 1) bi.altBank) ∧
      (∀ bi ∈ (run p events).records,
        (bi.hitBank = 0 ∧ bi.altBank = 0 ∨ bi.altBank < bi.hitBank) ∧
          bi.hitBank ≤ p.nHistoryTables ∧
          ∀ taken nrand, wantsAlloc p taken bi = true →
            AllocOk p bi (trainUseAlt p (run p events).tables taken bi)
              (allocate p (trainUseAlt p (run p events).tables taken bi) taken bi nrand)) ∧
      (run p events).tables.inBounds = true := by
  have hinv : Inv p (run p events) := run_inv events
  have hentry := hinv.tables.entry
  refine ⟨fun bank index => ⟨hentry bank index, (hentry bank index).inType config⟩, fun t branch_pc => tagePredict_isLongest p _ t branch_pc _,
    fun bi hbi => ?_, hinv.tables.inBounds⟩
  have hrec := hinv.records bi hbi
  refine ⟨hrec.banks, hrec.hitBank_le, fun taken nrand halloc => ?_⟩
  exact allocate_ok taken nrand (hinv.tables.trainUseAlt taken bi) hrec (wantsAlloc_lt halloc)

private theorem defaults_accepted : Accepted .defaults where
  init := by decide
  tables_pos := by decide
  tables_le := by decide
  tagWidth_le := by
    intro bank
    rcases Nat.lt_or_ge bank 8 with h | h
    · interval_cases bank <;> decide
    · have hnone : ([0, 9, 9, 10, 10, 11, 11, 12] : List Nat)[bank]? = none := by simpa using h
      simp [TableParams.defaults, Params.defaults, hnone]
  counterBits_pos := by decide
  counterBits_le := by decide

/-- A wrong prediction of the defaults: the branch is not found, is predicted
not taken, and its update allocates. -/
def wrongOnce : List Event :=
  [.predict (.init (Params.defaults false)) 0x1004 true, .update 0 true 3]

theorem tables_invariant_wrongOnce :
    let s := run .defaults wrongOnce
    (∀ bank index, EntryOk .defaults bank (s.tables.gtable bank index)) ∧
      (∃ bi ∈ s.records, bi.hitBank ≤ 7 ∧ wantsAlloc .defaults true bi = true ∧
        let trained := trainUseAlt .defaults s.tables true bi
        AllocOk .defaults bi trained (allocate .defaults trained true bi 3)) ∧
      s.tables.inBounds = true := by
  intro s
  obtain ⟨hentry, -, hrecord, hbounds⟩ := tables_invariant defaults_accepted wrongOnce
  obtain ⟨bi, hbi, hwants⟩ : ∃ bi ∈ s.records, wantsAlloc .defaults true bi = true := by decide
  obtain ⟨-, hhit, halloc⟩ := hrecord bi hbi
  exact ⟨fun bank index => (hentry bank index).1, ⟨bi, hbi, hhit, hwants, halloc true 3 hwants⟩,
    hbounds⟩

end

end Gem5Core.Pred.TageInvariant
