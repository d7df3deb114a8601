import Mathlib.Data.Nat.ModEq
import Gem5Core.Pred.TageScl

/-! The enabled tables of a group take the banks of its array in turn, so that no two tables of one
lookup meet in an entry, as long as an `int` can count the entries of the arrays. -/
namespace Gem5Core.Pred.TageScl
open Branch TageBase Function List
open TageTables (TageEntry)
open Base.IntMath (ones)
open BitVec hiding not_or

variable (p : SclParams)

def inUse (g : Group) : List Nat := (tablesOf p g).filter (enabled p)

def Used (i : Nat) : Prop := 1 ≤ i ∧ i ≤ p.nHistoryTables ∧ enabled p i

instance (i : Nat) : Decidable (Used p i) := inferInstanceAs (Decidable (_ ∧ _ ∧ _))

/-- The factors are `unsigned`, and the code shifts an `int` by `logTagTableSize`
and an address by `instShiftAmt`. -/
structure Sized : Prop where
  factor_lt : ∀ g, factor p g < 2 ^ 32
  log_lt : p.logTagTableSize < 32
  shift_le : p.instShiftAmt ≤ 32

/-- An `int` can hold the index of every entry of the arrays that are in use. -/
def Addressable : Prop := ∀ i, Used p i → factor p (group p i) * 2 ^ p.logTagTableSize ≤ 2 ^ 31

/-- The indices of the enabled tables, which are `int`s, lie inside the arrays,
and no two tables share an entry. -/
structure Apart (indices : Nat → BitVec 32) : Prop where
  inside : ∀ i, Used p i → 0 ≤ (indices i).toInt ∧
    (indices i).toInt < factor p (group p i) * 2 ^ p.logTagTableSize
  distinct : ∀ i j, Used p i → Used p j → i ≠ j → (group p i, indices i) ≠ (group p j, indices j)

/-- An update changes nothing but the useful bits of the entry that hit. -/
def HitKept (l : Lookup) (bi : BranchInfo) : Prop :=
  ∀ predicted e alloc taken rand, hitBank p predicted l p.nHistoryTables ≠ 0 →
    let hit := hitBank p predicted l p.nHistoryTables
    let old := e.gtable (group p hit) (l.tableIndices hit).toNat
    let new := (handleAllocAndUReset p e alloc taken bi hit rand).gtable (group p hit)
      (l.tableIndices hit).toNat
    new = old ∨ new = { old with u := resetUctr p old.u }

section

variable {p} {i : Nat}

theorem mem_tablesOf_short : i ∈ tablesOf p .short ↔ 1 ≤ i ∧ i < p.firstLongTagTable := by
  simp only [tablesOf, mem_range'_1]
  omega

theorem mem_tablesOf_long :
    i ∈ tablesOf p .long ↔ p.firstLongTagTable ≤ i ∧ i ≤ p.nHistoryTables := by
  simp only [tablesOf, mem_range'_1]
  omega

private theorem mem_tablesOf_group (h1 : 1 ≤ i) (hn : i ≤ p.nHistoryTables) :
    i ∈ tablesOf p (group p i) := by
  unfold group
  split
  · exact mem_tablesOf_short.mpr ⟨h1, ‹_›⟩
  · exact mem_tablesOf_long.mpr ⟨by omega, hn⟩

private theorem nodup_inUse (g : Group) : (inUse p g).Nodup := by
  cases g <;> exact List.Nodup.filter _ nodup_range'

theorem Used.mem (h : Used p i) : i ∈ inUse p (group p i) :=
  mem_filter.mpr ⟨mem_tablesOf_group h.1 h.2.1, h.2.2⟩

end

section

variable {p}

private theorem lowMask_toNat_lt (k : Nat) : (lowMask k).toNat < 2 ^ k := by
  have hpos := Nat.two_pow_pos k
  simp only [lowMask, toNat_ofNat]
  omega

private theorem ones_toNat_lt {k : Nat} (hk : k < 32) : (ones k).toNat < 2 ^ k := by
  have hcount : ((k : Int) % 32).toNat = k := by omega
  have hpos := Nat.two_pow_pos k
  simp only [ones, hcount, toNat_sub, toNat_shiftLeft, Nat.shiftLeft_eq]
  have hone : (1#32).toNat = 1 := rfl
  have hlit : (1 : BitVec 32).toNat = 1 := rfl
  rw [hone, hlit]
  omega

theorem and_toNat_lt {w k : Nat} (a : BitVec w) {b : BitVec w} (hb : b.toNat < 2 ^ k) :
    (a &&& b).toNat < 2 ^ k := by
  exact Nat.and_le_right.trans_lt hb

theorem gindex_lt (t : ThreadHistory) (pc : Addr) (bank : Nat) :
    (gindex p t pc bank).toNat < 2 ^ p.logTagTableSize :=
  and_toNat_lt _ (lowMask_toNat_lt _)

private theorem twin_lt (hlog : p.logTagTableSize < 32) (t : ThreadHistory) (pc : Addr) (bank : Nat)
    (tag : BitVec 32) :
    (gindex p t pc bank ^^^ (tag &&& ones p.logTagTableSize)).toNat < 2 ^ p.logTagTableSize := by
  exact Nat.xor_lt_two_pow (gindex_lt t pc bank) (and_toNat_lt _ (ones_toNat_lt hlog))

theorem indexPairs_lt (hlog : p.logTagTableSize < 32) (t : ThreadHistory) (pc : Addr) (l : Lookup)
    {i : Nat} (h1 : 1 ≤ i) (hn : i ≤ p.nHistoryTables) :
    ((indexPairs p t pc l).tableIndices i).toNat < 2 ^ p.logTagTableSize := by
  have hrounds : ∀ k i, 1 ≤ i → i ≤ 2 * k →
      (((List.range k).foldl (fun l k => indexPair p t pc l (2 * k + 1)) l).tableIndices i).toNat <
        2 ^ p.logTagTableSize := by
    intro k
    induction k with
    | zero =>
      intro i h1 hi
      omega
    | succ k ih =>
      intro i h1 hi
      rw [range_succ, foldl_append]
      simp only [foldl_cons, foldl_nil, indexPair, update_apply]
      -- the last round has written a table and its twin
      split
      · exact twin_lt hlog t pc _ _
      · split
        · exact gindex_lt t pc _
        · exact ih i h1 (by omega)
  exact hrounds _ i h1 (by omega)

end

section

def takeBank (g : Group) (s : (Nat → BitVec 32) × BitVec 64) (i : Nat) :
    (Nat → BitVec 32) × BitVec 64 :=
  (Function.update s.1 i (s.1 i + (s.2 <<< p.logTagTableSize).setWidth 32),
    (s.2 + 1) % BitVec.ofNat 64 (factor p g))

variable {p}

theorem assignBanks_eq (t : ThreadHistory) (pc : Addr) (g : Group) (indices : Nat → BitVec 32) :
    assignBanks p t pc g indices =
      ((inUse p g).foldl (takeBank p g) (indices, firstBank p t pc g)).1 := by
  rw [inUse, foldl_filter]
  rfl

theorem takeBanks_notMem (g : Group) (tables : List Nat) {i : Nat} (hi : i ∉ tables) :
    ∀ s, (tables.foldl (takeBank p g) s).1 i = s.1 i := by
  induction tables with
  | nil =>
    intro s
    rfl
  | cons table tables ih =>
    intro s
    rw [mem_cons, not_or] at hi
    rw [foldl_cons, ih hi.2]
    exact update_of_ne hi.1 _ _

theorem nextBank_toNat {f : Nat} {bank : BitVec 64} (hf : f < 2 ^ 64) (hbank : bank.toNat < f) :
    ((bank + 1) % BitVec.ofNat 64 f).toNat = (bank.toNat + 1) % f := by
  have hone : (1 : BitVec 64).toNat = 1 := rfl
  rw [toNat_umod, toNat_add, toNat_ofNat, hone, Nat.mod_eq_of_lt hf,
    Nat.mod_eq_of_lt (by omega : bank.toNat + 1 < 2 ^ 64)]

theorem takeBanks_mem (g : Group) (hf : factor p g < 2 ^ 64) {i : Nat} (tables : List Nat)
    (hnodup : tables.Nodup) (hi : i ∈ tables) :
    ∀ s : (Nat → BitVec 32) × BitVec 64, s.2.toNat < factor p g →
      (tables.foldl (takeBank p g) s).1 i =
        s.1 i + BitVec.ofNat 32
          ((s.2.toNat + tables.idxOf i) % factor p g * 2 ^ p.logTagTableSize) := by
  induction tables with
  | nil => cases hi
  | cons table tables ih =>
    intro s hs
    rw [nodup_cons] at hnodup
    rw [foldl_cons]
    by_cases htable : table = i
    · subst htable
      rw [takeBanks_notMem g tables hnodup.1, idxOf_cons_self, Nat.add_zero, Nat.mod_eq_of_lt hs]
      simp only [takeBank, update_self]
      congr 1
      apply eq_of_toNat_eq
      rw [toNat_setWidth, toNat_shiftLeft, Nat.shiftLeft_eq]
      exact Nat.mod_mod_of_dvd _ ⟨2 ^ 32, by decide⟩
    · have hmem : i ∈ tables := (mem_cons.mp hi).resolve_left (Ne.symm htable)
      have hnext := nextBank_toNat hf hs
      have hbound : (takeBank p g s table).2.toNat < factor p g := by
        rw [takeBank, hnext]
        exact Nat.mod_lt _ (by omega)
      rw [ih hnodup.2 hmem _ hbound]
      have hold : (takeBank p g s table).1 i = s.1 i :=
        update_of_ne (Ne.symm htable) _ _
      have hbank : (takeBank p g s table).2.toNat = (s.2.toNat + 1) % factor p g := hnext
      rw [hold, hbank, idxOf_cons_ne _ htable, Nat.mod_add_mod, Nat.add_assoc,
        Nat.add_comm 1]

private theorem firstBank_lt (t : ThreadHistory) (pc : Addr) (g : Group) (hpos : 0 < factor p g)
    (hf : factor p g < 2 ^ 64) : (firstBank p t pc g).toNat < factor p g := by
  simp only [firstBank]
  rw [toNat_umod, toNat_ofNat, Nat.mod_eq_of_lt hf]
  exact Nat.mod_lt _ hpos

private theorem turns_ne {f first a b : Nat} (ha : a < f) (hb : b < f) (hab : a ≠ b) :
    (first + a) % f ≠ (first + b) % f := by
  intro heq
  have hmod : a % f = b % f := Nat.ModEq.add_left_cancel' first heq
  rw [Nat.mod_eq_of_lt ha, Nat.mod_eq_of_lt hb] at hmod
  exact hab hmod

end

section

def bankOf (t : ThreadHistory) (pc : Addr) (i : Nat) : Nat :=
  ((firstBank p t pc (group p i)).toNat + (inUse p (group p i)).idxOf i) % factor p (group p i)

variable {p}

variable {i : Nat} (t : ThreadHistory) (pc : Addr)

private theorem assignBanks_notMem {g : Group} (indices : Nat → BitVec 32) (hi : i ∉ tablesOf p g) :
    assignBanks p t pc g indices i = indices i := by
  rw [assignBanks_eq]
  exact takeBanks_notMem g _ (fun hmem => hi (mem_filter.mp hmem).1) _

private theorem assignBanks_mem (h : Sized p) (t : ThreadHistory) (pc : Addr)
    (indices : Nat → BitVec 32) (hpos : 0 < factor p (group p i)) (hi : i ∈ inUse p (group p i)) :
    assignBanks p t pc (group p i) indices i =
      indices i + BitVec.ofNat 32 (bankOf p t pc i * 2 ^ p.logTagTableSize) := by
  have hf : factor p (group p i) < 2 ^ 64 := (h.factor_lt _).trans (by decide)
  rw [assignBanks_eq]
  exact takeBanks_mem _ hf _ (nodup_inUse _) hi _ (firstBank_lt t pc _ hpos hf)

private theorem bankOf_ne {j : Nat} (hi : i ∈ inUse p (group p i)) (hj : j ∈ inUse p (group p j))
    (hcount : (inUse p (group p i)).length ≤ factor p (group p i)) (hgroup : group p i = group p j)
    (hij : i ≠ j) : bankOf p t pc i ≠ bankOf p t pc j := by
  unfold bankOf
  rw [← hgroup] at hj ⊢
  have hturn : (inUse p (group p i)).idxOf i ≠ (inUse p (group p i)).idxOf j := fun heq =>
    hij ((idxOf_inj hi).mp heq)
  have hlast_i := idxOf_lt_length_of_mem hi
  have hlast_j := idxOf_lt_length_of_mem hj
  exact turns_ne (by omega) (by omega) hturn

section

variable (h : Sized p) (l : Lookup) (hi : Used p i)
  (hcount : (inUse p (group p i)).length ≤ factor p (group p i))
include h hi hcount

theorem lookup_index :
    bankOf p t pc i < factor p (group p i) ∧
      ∃ offset, offset < 2 ^ p.logTagTableSize ∧
        (lookup p t pc l).tableIndices i =
          BitVec.ofNat 32 (offset + bankOf p t pc i * 2 ^ p.logTagTableSize) := by
  have hpos : 0 < factor p (group p i) := (length_pos_of_mem hi.mem).trans_le hcount
  refine ⟨Nat.mod_lt _ hpos, _, indexPairs_lt h.log_lt t pc l hi.1 hi.2.1, ?_⟩
  rw [ofNat_add, ofNat_toNat, setWidth_eq]
  simp only [lookup]
  -- the loop over the other group leaves the index alone
  by_cases hshort : i < p.firstLongTagTable
  · have hgroup : group p i = .short := if_pos hshort
    have hlong : i ∉ tablesOf p .long := fun hi => by
      have hfirst := (mem_tablesOf_long.mp hi).1
      omega
    rw [← hgroup, assignBanks_mem h t pc _ hpos hi.mem, assignBanks_notMem t pc _ hlong]
  · have hgroup : group p i = .long := if_neg hshort
    have hnot : i ∉ tablesOf p .short := fun hi => hshort (mem_tablesOf_short.mp hi).2
    rw [assignBanks_notMem t pc _ hnot, ← hgroup, assignBanks_mem h t pc _ hpos hi.mem]

theorem lookup_toNat (hfit : Addressable p) :
    bankOf p t pc i < factor p (group p i) ∧
      ∃ offset, offset < 2 ^ p.logTagTableSize ∧
        ((lookup p t pc l).tableIndices i).toNat =
          offset + bankOf p t pc i * 2 ^ p.logTagTableSize := by
  obtain ⟨hbank, offset, hoffset, hindex⟩ := lookup_index t pc h l hi hcount
  -- the sum stays below the end of the array, so nothing wraps around
  have hend : (bankOf p t pc i + 1) * 2 ^ p.logTagTableSize ≤ 2 ^ 31 :=
    (Nat.mul_le_mul_right _ hbank).trans (hfit i hi)
  rw [Nat.add_mul] at hend
  refine ⟨hbank, offset, hoffset, ?_⟩
  rw [hindex, toNat_ofNat, Nat.mod_eq_of_lt (by omega)]

private theorem lookup_inside (hfit : Addressable p) :
    0 ≤ ((lookup p t pc l).tableIndices i).toInt ∧
      ((lookup p t pc l).tableIndices i).toInt <
        factor p (group p i) * 2 ^ p.logTagTableSize := by
  obtain ⟨hbank, offset, hoffset, hindex⟩ := lookup_toNat t pc h l hi hcount hfit
  have hlt : ((lookup p t pc l).tableIndices i).toNat <
      factor p (group p i) * 2 ^ p.logTagTableSize := by
    rw [hindex]
    calc offset + bankOf p t pc i * 2 ^ p.logTagTableSize
        < (bankOf p t pc i + 1) * 2 ^ p.logTagTableSize := by
          rw [Nat.add_mul]
          omega
      _ ≤ factor p (group p i) * 2 ^ p.logTagTableSize := Nat.mul_le_mul_right _ hbank
  have hint := hfit i hi
  rw [toInt_eq_toNat_of_lt (by omega)]
  exact ⟨Int.natCast_nonneg _, by exact_mod_cast hlt⟩

end

theorem lookup_ne (h : Sized p) (hfit : Addressable p) (t : ThreadHistory) (pc : Addr) (l : Lookup)
    (hcount : ∀ g, (inUse p g).length ≤ factor p g) {j : Nat} (hi : Used p i) (hj : Used p j)
    (hgroup : group p i = group p j) (hij : i ≠ j) :
    ((lookup p t pc l).tableIndices i).toNat ≠ ((lookup p t pc l).tableIndices j).toNat := by
  obtain ⟨-, offset_i, hoffset_i, hindex_i⟩ := lookup_toNat t pc h l hi (hcount _) hfit
  obtain ⟨-, offset_j, hoffset_j, hindex_j⟩ := lookup_toNat t pc h l hj (hcount _) hfit
  have hbanks := bankOf_ne t pc hi.mem hj.mem (hcount _) hgroup hij
  intro heq
  -- the bank is the quotient of the index by the size of a bank
  have hquot := congrArg (· / 2 ^ p.logTagTableSize) heq
  simp only [hindex_i, hindex_j, Nat.add_mul_div_right _ _ (Nat.two_pow_pos p.logTagTableSize),
    Nat.div_eq_of_lt hoffset_i, Nat.div_eq_of_lt hoffset_j, Nat.zero_add] at hquot
  exact hbanks hquot

theorem exists_firstBank (h : Sized p) {t : ThreadHistory} (ht : t.pathHist = 0#32) {g : Group}
    {first : Nat} (hfirst : first < factor p g) : ∃ pc, (firstBank p t pc g).toNat = first := by
  have hf := h.factor_lt g
  have hs := h.shift_le
  have hpow : 2 ^ p.instShiftAmt ≤ 2 ^ 32 := Nat.pow_le_pow_right (by omega) hs
  have hbig : first * 2 ^ p.instShiftAmt < 2 ^ 64 := calc
    first * 2 ^ p.instShiftAmt ≤ first * 2 ^ 32 := Nat.mul_le_mul_left _ hpow
    _ < 2 ^ 32 * 2 ^ 32 := Nat.mul_lt_mul_of_pos_right (by omega) (by decide)
  refine ⟨BitVec.ofNat 64 (first * 2 ^ p.instShiftAmt), ?_⟩
  have hshifted : BitVec.ofNat 64 (first * 2 ^ p.instShiftAmt) >>> p.instShiftAmt =
      BitVec.ofNat 64 first := by
    apply eq_of_toNat_eq
    rw [toNat_ushiftRight, toNat_ofNat, toNat_ofNat, Nat.mod_eq_of_lt hbig,
      Nat.shiftRight_eq_div_pow, Nat.mul_div_cancel _ (Nat.two_pow_pos _),
      Nat.mod_eq_of_lt (by omega)]
  have hpath : (0#32).signExtend 64 = 0#64 := by decide
  simp only [firstBank, ht, hshifted, zero_and, hpath]
  rw [xor_zero, toNat_umod, toNat_ofNat,
    toNat_ofNat, Nat.mod_eq_of_lt (by omega : first < 2 ^ 64),
    Nat.mod_eq_of_lt (by omega : factor p g < 2 ^ 64), Nat.mod_eq_of_lt hfirst]

/-- Some branch gives the table the bank that starts at `2 ^ 31`. -/
theorem exists_negative (h : Sized p) {t : ThreadHistory} (ht : t.pathHist = 0#32) (l : Lookup)
    (hi : Used p i)
    (hcount : (inUse p (group p i)).length ≤ factor p (group p i))
    (hbig : 2 ^ 31 < factor p (group p i) * 2 ^ p.logTagTableSize) :
    ∃ pc, ((lookup p t pc l).tableIndices i).toInt < 0 := by
  have hlog := h.log_lt
  have hsplit : 2 ^ 31 = 2 ^ (31 - p.logTagTableSize) * 2 ^ p.logTagTableSize := by
    rw [← Nat.pow_add, Nat.sub_add_cancel (by omega)]
  rw [hsplit] at hbig
  have hbank := Nat.lt_of_mul_lt_mul_right hbig
  have hturn := (idxOf_lt_length_of_mem hi.mem).trans_le hcount
  generalize hB : 2 ^ (31 - p.logTagTableSize) = B at *
  generalize hk : (inUse p (group p i)).idxOf i = k at *
  obtain ⟨pc, hpc⟩ := exists_firstBank h ht
    (Nat.mod_lt (B + (factor p (group p i) - k)) (by omega : 0 < factor p (group p i)))
  have hbankOf : bankOf p t pc i = B := by
    rw [bankOf, hpc, hk, Nat.mod_add_mod, Nat.add_assoc, Nat.sub_add_cancel hturn.le,
      Nat.add_mod_right, Nat.mod_eq_of_lt hbank]
  obtain ⟨-, offset, hoffset, hindex⟩ := lookup_index t pc h l hi hcount
  have hsmall : 2 ^ p.logTagTableSize ≤ 2 ^ 31 := Nat.pow_le_pow_right (by omega) (by omega)
  refine ⟨pc, ?_⟩
  rw [hindex, hbankOf, ← hsplit, toInt_eq_toNat_cond, toNat_ofNat, if_neg (by omega)]
  omega

theorem calculated_index (l : Lookup) (bi : BranchInfo) (hi : Used p i) :
    (calculateIndicesAndTags p t pc l bi).2.tableIndices i = (lookup p t pc l).tableIndices i := by
  obtain ⟨h1, hn, he⟩ := hi
  have hlisted : (tablesOf p .long ++ tablesOf p .short).contains i = true := by
    rw [contains_iff_mem, mem_append, mem_tablesOf_long, mem_tablesOf_short]
    omega
  simp only [calculateIndicesAndTags, hlisted, he, Bool.and_self, ↓reduceIte]

theorem calculated_apart_iff (h : Sized p) (hcount : ∀ g, (inUse p g).length ≤ factor p g) :
    (∀ t pc l bi, Apart p (calculateIndicesAndTags p t pc l bi).2.tableIndices) ↔
      Addressable p := by
  constructor
  · intro hall i hi
    by_contra hbig
    obtain ⟨pc, hneg⟩ := exists_negative h (t := .init (.defaults false)) rfl {} hi (hcount _)
      (by omega)
    have hpos := ((hall (.init (.defaults false)) pc {} (makeBranchInfo pc true)).inside i hi).1
    rw [calculated_index _ _ _ _ hi] at hpos
    omega
  · intro hfit t pc l bi
    refine ⟨fun i hi => ?_, fun i j hi hj hij heq => ?_⟩
    · rw [calculated_index t pc l bi hi]
      exact lookup_inside t pc h l hi (hcount _) hfit
    · obtain ⟨hgroup, hsame⟩ := Prod.mk.inj heq
      rw [calculated_index t pc l bi hi, calculated_index t pc l bi hj] at hsame
      exact lookup_ne h hfit t pc l hcount hi hj hgroup hij (congrArg BitVec.toNat hsame)

end

section

variable {p}

theorem Entries.modify_of_ne (e : Entries) {g g' : Group} {index : BitVec 32} {k : Nat}
    (f : TageEntry → TageEntry) (hne : g' = g → index.toNat ≠ k) :
    (e.modify g index f).gtable g' k = e.gtable g' k := by
  simp only [Entries.modify, update_apply]
  split
  · have hk : k ≠ index.toNat := (hne ‹_›).symm
    subst_vars
    exact update_of_ne hk _ _
  · rfl

theorem tryTable_frame (taken : Bool) (bi : BranchInfo) (s : Alloc) {i : Nat} {g : Group} {k : Nat}
    (hne : enabled p i → (p.variant = .kb8 → i ≤ p.nHistoryTables) → g = group p i →
      (bi.tableIndices i).toNat ≠ k) :
    (tryTable p taken bi s i).1.entries.gtable g k = s.entries.gtable g k := by
  cases hv : p.variant with
  | kb64 =>
    simp only [tryTable, hv, tryTable64KB]
    by_cases he : enabled p i = true
    · have hother := hne he (fun h => by rw [hv] at h; cases h)
      simp only [he, ↓reduceIte]
      split
      · split <;> (dsimp only; exact s.entries.modify_of_ne _ hother)
      · rfl
    · rw [if_neg he]
  | kb8 =>
    simp only [tryTable, hv, tryTable8KB]
    by_cases hi : i > p.nHistoryTables
    · rw [if_pos hi]
    · rw [if_neg hi]
      by_cases he : enabled p i = true
      · have hother := hne he (fun _ => by omega)
        simp only [he, ↓reduceIte, Alloc.draw]
        split
        · by_cases hmax : s.numAllocated + 1 = p.maxNumAlloc
          · simp only [hmax, ↓reduceIte]
            exact s.entries.modify_of_ne _ hother
          · simp only [hmax, ↓reduceIte]
            exact s.entries.modify_of_ne _ hother
        · split
          · by_cases hzero : s.rand.headD 0 &&& 7 = 0
            · simp only [hzero, ↓reduceIte]
              exact s.entries.modify_of_ne _ hother
            · simp only [hzero, ↓reduceIte]
          · rfl
      · rw [if_neg he]

private theorem tryTable_I (taken : Bool) (bi : BranchInfo) (s : Alloc) (i : Nat) :
    (tryTable p taken bi s i).1.I = s.I ∨
      (tryTable p taken bi s i).1.I = s.I + 2 ∧
        (p.variant = .kb64 → (tryTable p taken bi s i).2 = true) := by
  cases hv : p.variant with
  | kb64 =>
    simp only [tryTable, hv, tryTable64KB]
    repeat' split
    all_goals simp
  | kb8 =>
    simp only [tryTable, hv, tryTable8KB, Alloc.draw]
    by_cases hmax : s.numAllocated + 1 = p.maxNumAlloc <;>
      by_cases hzero : s.rand.headD 0 &&& 7 = 0 <;>
      simp only [hmax, hzero, ↓reduceIte] <;> repeat' split
    all_goals simp

private theorem xor_one_div_two (x : Nat) : (x ^^^ 1) / 2 = x / 2 := by
  rw [Nat.xor_div_two]
  exact Nat.xor_zero _

variable {bi : BranchInfo} {hit : Nat} {g : Group} {k : Nat}

private theorem le_calcDep (first second : BitVec 32) (hhit : hit ≤ 4092) :
    hit ≤ 2 * (calcDep hit first second / 2) := by
  have hbit : (second &&& 1).toNat / 2 = 0 := by
    have hle : (second &&& 1).toNat ≤ 1 := by
      exact Nat.and_le_right
    omega
  have hmask : ∀ x, x < 4096 → (x &&& 0xffe) / 2 = x / 2 := by
    intro x hx
    rw [Nat.and_div_two]
    exact (Nat.and_two_pow_sub_one_eq_mod _ 11).trans (Nat.mod_eq_of_lt (by omega))
  unfold calcDep
  rw [Nat.xor_div_two, hbit, Nat.xor_zero]
  split
  · rw [hmask _ (by omega)]
    omega
  · rw [hmask _ (by omega)]
    omega

private theorem handleUReset_entry (e : Entries) (g : Group) (k : Nat) :
    (handleUReset p e).gtable g k = e.gtable g k ∨
      (handleUReset p e).gtable g k = { e.gtable g k with u := resetUctr p (e.gtable g k).u } := by
  have hclamp : (if e.tCounter < 0 then { e with tCounter := 0 } else e).gtable = e.gtable := by
    split <;> rfl
  unfold handleUReset
  dsimp only
  generalize (if e.tCounter < 0 then { e with tCounter := 0 } else e) = clamped at hclamp ⊢
  rw [← hclamp]
  split
  · dsimp only
    split
    · exact .inr rfl
    · exact .inl rfl
  · exact .inl rfl

section

variable (heven : p.nHistoryTables % 2 = 0)
  (hne : ∀ i, hit < i → i ≤ p.nHistoryTables → enabled p i → g = group p i →
    (bi.tableIndices i).toNat ≠ k)
include heven hne

theorem tryPair_frame (taken : Bool) (s : Alloc) (hI : s.I < p.nHistoryTables)
    (hhit : hit ≤ 2 * (s.I / 2)) :
    (tryPair p taken bi s).entries.gtable g k = s.entries.gtable g k ∧
      s.I ≤ (tryPair p taken bi s).I := by
  have hfirst : (tryTable p taken bi s (s.I + 1)).1.entries.gtable g k = s.entries.gtable g k :=
    tryTable_frame taken bi s fun he _ => hne _ (by omega) (by omega) he
  have hmoved := tryTable_I (p := p) taken bi s (s.I + 1)
  unfold tryPair
  cases hr : tryTable p taken bi s (s.I + 1) with
  | mk next left =>
    rw [hr] at hfirst hmoved
    dsimp only at hfirst hmoved ⊢
    cases left with
    | true =>
      refine ⟨hfirst, ?_⟩
      simp only [↓reduceIte]
      omega
    | false =>
      simp only [Bool.false_eq_true, ↓reduceIte]
      have htwin := xor_one_div_two next.I
      have hpast := tryTable_I (p := p) taken bi next ((next.I ^^^ 1) + 1)
      refine ⟨?_, by omega⟩
      rw [tryTable_frame taken bi next, hfirst]
      intro he hguard
      refine hne _ (by omega) ?_ he
      cases hv : p.variant with
      | kb64 =>
        -- the first attempt has not moved on
        have hsame : next.I = s.I := hmoved.resolve_right fun h => by
          have hleft := h.2 hv
          cases hleft
        omega
      | kb8 => exact hguard hv

private theorem allocLoop_frame (taken : Bool) (rounds : Nat) :
    ∀ s : Alloc, hit ≤ 2 * (s.I / 2) →
      (allocLoop p taken bi rounds s).entries.gtable g k = s.entries.gtable g k := by
  induction rounds with
  | zero =>
    intro s _
    rfl
  | succ rounds ih =>
    intro s hhit
    rw [allocLoop]
    by_cases hI : s.I < p.nHistoryTables
    · obtain ⟨hkept, hmoved⟩ := tryPair_frame heven hne taken s hI hhit
      rw [if_pos hI]
      dsimp only
      split
      · exact hkept
      · rw [ih]
        · exact hkept
        · dsimp only
          omega
    · rw [if_neg hI]

private theorem handleAllocAndUReset_entry (hhit : hit ≤ 4092) (e : Entries) (alloc taken : Bool)
    (rand : List (BitVec 32)) :
    (handleAllocAndUReset p e alloc taken bi hit rand).gtable g k = e.gtable g k ∨
      (handleAllocAndUReset p e alloc taken bi hit rand).gtable g k =
        { e.gtable g k with u := resetUctr p (e.gtable g k).u } := by
  unfold handleAllocAndUReset
  split
  · exact .inl rfl
  · have hloop := allocLoop_frame heven hne taken p.nHistoryTables
      { entries := e, I := calcDep hit (rand.getD 0 0) (rand.getD 1 0), rand := rand.drop 2 }
      (le_calcDep _ _ hhit)
    rw [← hloop]
    exact handleUReset_entry _ g k

end

private theorem hitBank_used (e : Entries) (l : Lookup) (n : Nat) (hn : n ≤ p.nHistoryTables)
    (hsome : hitBank p e l n ≠ 0) : Used p (hitBank p e l n) := by
  induction n with
  | zero => exact absurd rfl hsome
  | succ n ih =>
    rw [hitBank] at hsome ⊢
    split
    · rename_i hmatch
      exact ⟨by omega, hn, (Bool.and_eq_true_iff.mp hmatch).1⟩
    · rename_i hmiss
      rw [if_neg hmiss] at hsome
      exact ih (by omega) hsome

private theorem calculated_hitKept (h : Sized p) (hcount : ∀ g, (inUse p g).length ≤ factor p g)
    (heven : p.nHistoryTables % 2 = 0) (htables : p.nHistoryTables ≤ 4092) (hfit : Addressable p)
    (t : ThreadHistory) (pc : Addr) (l : Lookup) (bi : BranchInfo) :
    HitKept p (calculateIndicesAndTags p t pc l bi).1 (calculateIndicesAndTags p t pc l bi).2 := by
  intro predicted e alloc taken rand hsome hit old new
  have hused := hitBank_used predicted _ p.nHistoryTables le_rfl hsome
  have hhit : hit ≤ p.nHistoryTables := hused.2.1
  refine handleAllocAndUReset_entry heven ?_ (hhit.trans htables) e alloc taken rand
  intro i hbehind hn he hgroup
  have hi : Used p i := ⟨by omega, hn, he⟩
  rw [calculated_index t pc l bi hi]
  exact lookup_ne h hfit t pc l hcount hi hused hgroup.symm (by omega)

end

/-- Every lookup gives the enabled tables indices inside the arrays, no two of them
the same entry, exactly if an `int` can hold the indices of the arrays in use. With
an even number of tables, few enough for the mask `0xffe` of `calcDep`, it is then
also true, and only then, that an update never allocates the entry that hit. -/
theorem tables_disjoint (hsized : Sized p)
    (hshort : (inUse p .short).length ≤ p.shortTagsTageFactor)
    (hlong : (inUse p .long).length ≤ p.longTagsTageFactor) :
    ((∀ t pc l bi, Apart p (calculateIndicesAndTags p t pc l bi).2.tableIndices) ↔
      Addressable p) ∧
    (p.nHistoryTables % 2 = 0 → p.nHistoryTables ≤ 4092 →
      ((∀ t pc l bi, Apart p (calculateIndicesAndTags p t pc l bi).2.tableIndices ∧
          HitKept p (calculateIndicesAndTags p t pc l bi).1
            (calculateIndicesAndTags p t pc l bi).2) ↔
        Addressable p)) := by
  have hcount : ∀ g, (inUse p g).length ≤ factor p g := by
    intro g
    cases g
    · exact hshort
    · exact hlong
  have hapart := calculated_apart_iff hsized hcount
  refine ⟨hapart, fun heven htables => ⟨fun hall => ?_, fun hfit t pc l bi => ?_⟩⟩
  · exact hapart.mp fun t pc l bi => (hall t pc l bi).1
  · exact ⟨hapart.mpr hfit t pc l bi,
      calculated_hitKept hsized hcount heven htables hfit t pc l bi⟩

def oneBit : ThreadHistory where
  pathHist := 0
  nonSpecPathHist := 0
  globalHist := fun _ => false
  ptGhist := 0
  computeIndices := fun i =>
    { comp := if i = 25 then 1 else 0, compLength := 0, origLength := 0, outpoint := 0 }
  computeTags0 := fun i =>
    { comp := if i = 25 then 1 else 0, compLength := 0, origLength := 0, outpoint := 0 }
  computeTags1 := fun _ => { comp := 0, compLength := 0, origLength := 0, outpoint := 0 }

private theorem addressable_of_le (hshort : p.shortTagsTageFactor * 2 ^ p.logTagTableSize ≤ 2 ^ 31)
    (hlong : p.longTagsTageFactor * 2 ^ p.logTagTableSize ≤ 2 ^ 31) : Addressable p := by
  intro i _
  cases group p i
  · exact hshort
  · exact hlong

/-- Both predictors as they are shipped, for every branch. -/
theorem tables_disjoint_shipped :
    let Disjoint := fun p : SclParams => ∀ t pc l bi,
      Apart p (calculateIndicesAndTags p t pc l bi).2.tableIndices ∧
        HitKept p (calculateIndicesAndTags p t pc l bi).1 (calculateIndicesAndTags p t pc l bi).2
    Disjoint .defaults64KB ∧ Disjoint .defaults8KB := by
  constructor
  · have hsized : Sized .defaults64KB := ⟨by rintro (_ | _) <;> decide, by decide, by decide⟩
    exact ((tables_disjoint .defaults64KB hsized (by decide) (by decide)).2 (by decide)
      (by decide)).mpr (addressable_of_le _ (by decide) (by decide))
  · have hsized : Sized .defaults8KB := ⟨by rintro (_ | _) <;> decide, by decide, by decide⟩
    exact ((tables_disjoint .defaults8KB hsized (by decide) (by decide)).2 (by decide)
      (by decide)).mpr (addressable_of_le _ (by decide) (by decide))

/-- The sixteen banks that an `int` can tell apart are fewer than the twenty that the tables with
long tags may use. -/
def wideBanks : SclParams := { SclParams.defaults64KB with logTagTableSize := 28 }

/-- For the branch at 40 the tables 20 and 26 share the entry 2^28. Table 20 hits
there, and the update allocates the entry for table 26. -/
theorem tables_shared :
    (inUse wideBanks .short).length ≤ wideBanks.shortTagsTageFactor ∧
    (inUse wideBanks .long).length ≤ wideBanks.longTagsTageFactor ∧
    let r := calculateIndicesAndTags wideBanks oneBit 40 {} (makeBranchInfo 40 true)
    let e : Entries := { gtable := fun g j =>
      if g = .long ∧ j = 2 ^ 28 then { ctr := 1, tag := 10 }
      else if g = .long ∧ j = 0 then { u := 1 }
      else {} }
    enabled wideBanks 20 ∧ enabled wideBanks 26 ∧ group wideBanks 20 = .long ∧
    group wideBanks 26 = .long ∧ r.2.tableIndices 20 = 268435456#32 ∧
    r.2.tableIndices 26 = 268435456#32 ∧ hitBank wideBanks e r.1 36 = 20 ∧
    (handleAllocAndUReset wideBanks e true false r.2 20 [0, 0]).gtable .long (2 ^ 28) =
      { ctr := -1, tag := 11 } := by
  decide +kernel

end Gem5Core.Pred.TageScl
