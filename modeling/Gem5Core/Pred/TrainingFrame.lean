import Gem5Core.Pred.LoopPredictor
import Gem5Core.Pred.TageInvariant

/-! Which entries the training functions of `TAGEBase` and `LoopPredictor` write:
those that the indices of the record name, and no others. -/
namespace Gem5Core.Pred.TrainingFrame
open Branch TageBase TageTables TageInvariant

section

variable (tp : TableParams)

def aged (tables : Tables) : Tables :=
  handleUReset tp { tables with tCounter := tables.tCounter + 1 }

/-- Only the bimodal entry `base`, its hysteresis bit and the entry `index bank`
of each bank may differ. -/
structure TablesFrame (base : Nat) (index : Nat → Nat) (before after : Tables) : Prop where
  prediction : ∀ i, i ≠ base → after.btablePrediction i = before.btablePrediction i
  hysteresis : ∀ i, i ≠ base >>> tp.logRatioBiModalHystEntries →
    after.btableHysteresis i = before.btableHysteresis i
  tagged : ∀ bank i, ¬(1 ≤ bank ∧ bank ≤ tp.nHistoryTables ∧ i = index bank) →
    after.gtable bank i = before.gtable bank i
  tCounter : after.tCounter = before.tCounter

variable {tp} {base : Nat} {index : Nat → Nat} {tables tables' tables'' : Tables}

theorem TablesFrame.refl : TablesFrame tp base index tables tables :=
  ⟨fun _ _ => rfl, fun _ _ => rfl, fun _ _ _ => rfl, rfl⟩

theorem TablesFrame.trans (h : TablesFrame tp base index tables tables')
    (h' : TablesFrame tp base index tables' tables'') :
    TablesFrame tp base index tables tables'' where
  prediction := fun i hi => (h'.prediction i hi).trans (h.prediction i hi)
  hysteresis := fun i hi => (h'.hysteresis i hi).trans (h.hysteresis i hi)
  tagged := fun bank i hi => (h'.tagged bank i hi).trans (h.tagged bank i hi)
  tCounter := h'.tCounter.trans h.tCounter

theorem TablesFrame.access (bank : Nat) (i : BitVec 32) :
    TablesFrame tp base index tables (tables.access tp bank i) :=
  ⟨fun _ _ => rfl, fun _ _ => rfl, fun _ _ _ => rfl, rfl⟩

theorem TablesFrame.modify {bank : Nat} {i : BitVec 32} (hpos : 1 ≤ bank)
    (hle : bank ≤ tp.nHistoryTables) (hindex : i.toNat = index bank)
    (f : TageEntry → TageEntry) : TablesFrame tp base index tables (tables.modify tp bank i f) := by
  refine ⟨fun _ _ => rfl, fun _ _ => rfl, fun bank' i' hother => ?_, rfl⟩
  apply modify_other
  rintro ⟨rfl, rfl⟩
  exact hother ⟨hpos, hle, hindex⟩

variable {bi : PredInfo}

theorem TablesFrame.baseUpdate (hbase : bi.bimodalIndex.toNat = base) (taken : Bool) :
    TablesFrame tp base index tables (baseUpdate tp tables taken bi) := by
  subst hbase
  exact ⟨fun i hi => Function.update_of_ne hi _ _, fun i hi => Function.update_of_ne hi _ _,
    fun _ _ _ => rfl, rfl⟩

theorem TablesFrame.trainUseAlt (taken : Bool) (bi : PredInfo) :
    TablesFrame tp base index tables (trainUseAlt tp tables taken bi) := by
  unfold TageTables.trainUseAlt
  split
  · exact ⟨fun _ _ => rfl, fun _ _ => rfl, fun _ _ _ => rfl, rfl⟩
  · exact .refl

theorem handleUReset_base (tp : TableParams) (tables : Tables) :
    (handleUReset tp tables).btablePrediction = tables.btablePrediction ∧
      (handleUReset tp tables).btableHysteresis = tables.btableHysteresis ∧
      (handleUReset tp tables).tCounter = tables.tCounter := by
  unfold handleUReset
  split <;> exact ⟨rfl, rfl, rfl⟩

theorem TablesFrame.aged (h : TablesFrame tp base index tables tables') :
    TablesFrame tp base index (aged tp tables) (aged tp tables') := by
  unfold TrainingFrame.aged
  obtain ⟨hpred, hhyst, hcounter⟩ :=
    handleUReset_base tp { tables with tCounter := tables.tCounter + 1 }
  obtain ⟨hpred', hhyst', hcounter'⟩ :=
    handleUReset_base tp { tables' with tCounter := tables'.tCounter + 1 }
  refine ⟨?_, ?_, ?_, ?_⟩
  · rw [hpred, hpred']
    exact h.prediction
  · rw [hhyst, hhyst']
    exact h.hysteresis
  · intro bank i hi
    unfold TageTables.handleUReset
    simp only [h.tCounter]
    split
    · simp only [h.tagged bank i hi]
    · exact h.tagged bank i hi
  · rw [hcounter, hcounter', h.tCounter]

theorem TablesFrame.minUseful (bi : PredInfo) :
    TablesFrame tp base index tables (minUseful tp tables bi).1 := by
  unfold TageTables.minUseful
  -- the loop only reads
  suffices h : ∀ (banks : List Nat) (tables : Tables) (min : Nat),
      TablesFrame tp base index tables
        (banks.foldl
          (fun (found : Tables × Nat) i =>
            let u := (entryOf found.1 bi i).u
            (found.1.access tp i (bi.tableIndices i), if u < found.2 then u else found.2))
          (tables, min)).1 from h _ tables 1
  intro banks
  induction banks with
  | nil => exact fun _ _ => .refl
  | cons i rest ih =>
    intro tables min
    exact (TablesFrame.access i (bi.tableIndices i)).trans (ih _ _)

theorem TablesFrame.allocLoop (taken : Bool) (banks : List Nat)
    (hbanks : ∀ i ∈ banks, 1 ≤ i ∧ i ≤ tp.nHistoryTables ∧ (bi.tableIndices i).toNat = index i)
    (numAllocated : Nat) (tables : Tables) :
    TablesFrame tp base index tables (allocLoop tp taken bi banks numAllocated tables).1 := by
  induction banks generalizing numAllocated tables with
  | nil => exact .refl
  | cons i rest ih =>
    obtain ⟨hpos, hle, hindex⟩ := hbanks i List.mem_cons_self
    have hrest := ih fun j hj => hbanks j (List.mem_cons_of_mem _ hj)
    unfold TageTables.allocLoop
    split
    · have hwrite : TablesFrame tp base index tables
          (tables.modify tp i (bi.tableIndices i) (allocEntry taken (bi.tableTags i))) :=
        .modify hpos hle hindex _
      split
      · exact hwrite
      · exact hwrite.trans (hrest _ _)
    · exact (TablesFrame.access i (bi.tableIndices i)).trans (hrest _ _)

theorem TablesFrame.allocate (taken : Bool) (nrand : BitVec 32)
    (hlt : bi.hitBank < tp.nHistoryTables)
    (hindex : ∀ i, 1 ≤ i → i ≤ tp.nHistoryTables → (bi.tableIndices i).toNat = index i) :
    TablesFrame tp base index tables (allocate tp tables taken bi nrand).1 := by
  obtain ⟨hX, hXle⟩ := startBank_range hlt nrand
  have hbanks : ∀ i ∈ List.range' (startBank tp bi nrand)
      (tp.nHistoryTables + 1 - startBank tp bi nrand),
      1 ≤ i ∧ i ≤ tp.nHistoryTables ∧ (bi.tableIndices i).toNat = index i := by
    intro i hi
    obtain ⟨hge, hle⟩ := mem_banksFrom.mp hi
    exact ⟨by omega, hle, hindex i (by omega) hle⟩
  have hsearch : TablesFrame tp base index tables (TageTables.minUseful tp tables bi).1 :=
    .minUseful bi
  unfold TageTables.allocate
  dsimp only
  split
  · exact (hsearch.trans (.modify (by omega) hXle (hindex _ (by omega) hXle) _)).trans
      (.allocLoop taken _ hbanks 0 _)
  · exact hsearch.trans (.allocLoop taken _ hbanks 0 _)

structure Trains (tp : TableParams) (base : Nat) (index : Nat → Nat) (taken : Bool)
    (bi : PredInfo) : Prop where
  bimodal : bi.bimodalIndex.toNat = base
  hit : 0 < bi.hitBank → bi.hitBank ≤ tp.nHistoryTables ∧ bi.hitBankIndex.toNat = index bi.hitBank
  alt : 0 < bi.altBank → bi.altBank ≤ tp.nHistoryTables ∧ bi.altBankIndex.toNat = index bi.altBank
  alloc : wantsAlloc tp taken bi = true →
    ∀ i, 1 ≤ i → i ≤ tp.nHistoryTables → (bi.tableIndices i).toNat = index i

variable {taken : Bool}

theorem TablesFrame.handleTAGEUpdate (h : Trains tp base index taken bi) :
    TablesFrame tp base index tables (handleTAGEUpdate tp tables taken bi) := by
  unfold TageTables.handleTAGEUpdate
  split
  · rename_i hpos
    obtain ⟨hle, hindex⟩ := h.hit hpos
    have halt : ∀ tables : Tables,
        TablesFrame tp base index tables (trainAlternate tp tables taken bi) := by
      intro tables
      unfold trainAlternate
      split
      · split
        · rename_i haltPos
          exact .modify haltPos (h.alt haltPos).1 (h.alt haltPos).2 _
        · exact .baseUpdate h.bimodal taken
      · exact .refl
    have hprovider : TablesFrame tp base index tables
        (tables.modify tp bi.hitBank bi.hitBankIndex (trainCtr tp taken)) :=
      .modify hpos hle hindex _
    have htrained := hprovider.trans (halt _)
    dsimp only
    split
    · exact htrained.trans (.modify hpos hle hindex _)
    · exact htrained
  · exact .baseUpdate h.bimodal taken

theorem TablesFrame.handleAllocAndUReset (nrand : BitVec 32)
    (hindex : wantsAlloc tp taken bi = true →
      ∀ i, 1 ≤ i → i ≤ tp.nHistoryTables → (bi.tableIndices i).toNat = index i) :
    TablesFrame tp base index (TrainingFrame.aged tp tables)
      (handleAllocAndUReset tp (TageTables.trainUseAlt tp tables taken bi)
        (wantsAlloc tp taken bi) taken bi nrand) := by
  have halloc : TablesFrame tp base index tables
      (if wantsAlloc tp taken bi then
        (TageTables.allocate tp (TageTables.trainUseAlt tp tables taken bi) taken bi nrand).1
      else TageTables.trainUseAlt tp tables taken bi) := by
    refine (TablesFrame.trainUseAlt taken bi).trans ?_
    split
    · rename_i hwants
      exact .allocate taken nrand (wantsAlloc_lt hwants) (hindex hwants)
    · exact .refl
  exact halloc.aged

theorem TablesFrame.condBranchUpdate (nrand : BitVec 32) (h : Trains tp base index taken bi) :
    TablesFrame tp base index (TrainingFrame.aged tp tables)
      (condBranchUpdate tp tables taken bi nrand) :=
  (TablesFrame.handleAllocAndUReset nrand h.alloc).trans (.handleTAGEUpdate h)

end

section
open LoopPredictor

variable (lp : LoopPredictor.Params) (instShiftAmt : Nat) (pc : Addr)

def loopSet : List Nat :=
  (List.range (2 ^ lp.logLoopTableAssoc)).map
    (finallindex lp (lindex lp pc instShiftAmt) (indexB lp pc 0))

structure Located (bi : LoopPredictor.BranchInfo) : Prop where
  index : ∀ way, finallindex lp bi.loopIndex bi.loopIndexB way =
    finallindex lp (lindex lp pc instShiftAmt) (indexB lp pc 0) way
  way : bi.loopHit.toNat < 2 ^ lp.logLoopTableAssoc

variable {lp instShiftAmt pc}

variable {bi : LoopPredictor.BranchInfo}

theorem Located.mem (h : Located lp instShiftAmt pc bi) {way : Nat}
    (hway : way < 2 ^ lp.logLoopTableAssoc) :
    finallindex lp bi.loopIndex bi.loopIndexB way ∈ loopSet lp instShiftAmt pc := by
  rw [h.index]
  exact List.mem_map_of_mem (List.mem_range.mpr hway)

theorem getLoop_located (s : LoopPredictor.State) (bi : LoopPredictor.BranchInfo)
    (speculative : Bool) :
    Located lp instShiftAmt pc (getLoop lp s pc bi speculative instShiftAmt).2 := by
  have hindex : ∀ way, finallindex lp (lindex lp pc instShiftAmt) (indexB lp pc bi.loopIndexB) way =
      finallindex lp (lindex lp pc instShiftAmt) (indexB lp pc 0) way := by
    intro way
    unfold finallindex indexB
    cases lp.useHashing <;> rfl
  unfold getLoop
  dsimp only
  split
  · exact ⟨hindex, Nat.two_pow_pos _⟩
  · rename_i way hfound
    exact ⟨hindex, List.mem_range.mp (List.mem_of_find?_eq_some hfound)⟩

variable {i : Nat}

theorem allocate_other (taken : Bool) (h : Located lp instShiftAmt pc bi) (nrand : BitVec 32)
    (steps : List Nat) (s : LoopPredictor.State) (hi : i ∉ loopSet lp instShiftAmt pc) :
    (LoopPredictor.allocate lp taken bi nrand steps s).ltable i = s.ltable i := by
  induction steps generalizing s with
  | nil => rfl
  | cons step rest ih =>
    have hne : i ≠ finallindex lp bi.loopIndex bi.loopIndexB
        ((nrand + BitVec.ofNat 32 step) &&& lowMask lp.logLoopTableAssoc).toNat := by
      rintro rfl
      exact hi (h.mem (and_lowMask_lt _ _))
    unfold LoopPredictor.allocate
    dsimp only
    split
    · exact modify_ltable_other _ hne
    · split
      · exact modify_ltable_other _ hne
      · rw [ih]
        exact modify_ltable_other _ hne

variable {s : LoopPredictor.State}

theorem loopUpdate_other (taken : Bool) (h : Located lp instShiftAmt pc bi) (tage_pred : Bool)
    (choice nrand : BitVec 32) (hi : i ∉ loopSet lp instShiftAmt pc) :
    (loopUpdate lp s taken bi tage_pred choice nrand).ltable i = s.ltable i := by
  unfold loopUpdate
  split
  · apply modify_ltable_other
    rintro rfl
    exact hi (h.mem h.way)
  · split
    · exact allocate_other taken h nrand _ s hi
    · rfl

private theorem commitInfo_located (h : lp.useSpeculation = true ∨ Located lp instShiftAmt pc bi) :
    Located lp instShiftAmt pc (commitInfo lp s pc bi instShiftAmt) := by
  unfold commitInfo
  split
  · have hloc : Located lp instShiftAmt pc (getLoop lp s pc bi false instShiftAmt).2 :=
      getLoop_located s bi false
    exact { hloc with }
  · rename_i hspec
    exact h.resolve_left hspec

theorem condBranchUpdate_other (taken tage_pred : Bool)
    (h : lp.useSpeculation = true ∨ Located lp instShiftAmt pc bi) (choice nrand : BitVec 32)
    (hi : i ∉ loopSet lp instShiftAmt pc) :
    (LoopPredictor.condBranchUpdate lp s pc taken tage_pred bi instShiftAmt choice nrand).ltable i =
      s.ltable i := by
  unfold LoopPredictor.condBranchUpdate
  rw [loopUpdate_other taken (commitInfo_located h) tage_pred choice nrand hi, countUse_ltable]

end

end Gem5Core.Pred.TrainingFrame
