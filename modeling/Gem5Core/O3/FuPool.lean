import Mathlib.Data.List.GetD
import Mathlib.Data.List.Nodup
import Gem5Core.Lib.Protocol
import Gem5Core.Lib.RoundRobin

/-! The pool of functional units (`cpu/o3/fu_pool.cc`). Each capability has its own queue of
the units that have it, read around from where the last search ended. -/
namespace Gem5Core.O3.FuPool
open Lib.Protocol Lib.RoundRobin List Function

structure OpDesc (C : Type) where
  opClass : C
  opLat : Nat := 1
  pipelined : Bool := true

structure FUDesc (C : Type) where
  opDescList : List (OpDesc C)
  number : Nat

structure FuncUnit (C : Type) where
  capabilityList : C → Bool := fun _ => false

structure FUIdxQueue where
  idx : Nat := 0
  size : Nat := 0
  funcUnitsIdx : List Nat := []

def FUIdxQueue.addFU (q : FUIdxQueue) (fu_idx : Nat) : FUIdxQueue :=
  { q with funcUnitsIdx := q.funcUnitsIdx ++ [fu_idx], size := q.size + 1 }

def FUIdxQueue.getFU (q : FUIdxQueue) : Option (Nat × FUIdxQueue) :=
  q.funcUnitsIdx[q.idx]?.map fun retval =>
    (retval, { q with idx := if q.idx + 1 = q.size then 0 else q.idx + 1 })

/-- The back of `unitsToBeFreed` is the head of the list. -/
structure FUPool (C : Type) where
  maxOpLatencies : C → Nat := fun _ => 0
  pipelined : C → Bool := fun _ => true
  capabilityList : C → Bool := fun _ => false
  unitBusy : List Bool := []
  unitsToBeFreed : List Nat := []
  fuPerCapList : C → FUIdxQueue := fun _ => {}
  numFU : Nat := 0
  funcUnits : List (FuncUnit C) := []

inductive Grant
  | unit (fu_idx : Nat)
  | noFreeFU
  | noCapableFU
deriving DecidableEq

variable {C : Type} [DecidableEq C]

def FuncUnit.addCapability (fu : FuncUnit C) (cap : C) (oplat : Nat) : Option (FuncUnit C) :=
  if oplat = 0 then none
  else some { capabilityList := update fu.capabilityList cap true }

def FuncUnit.provides (fu : FuncUnit C) (capability : C) : Bool := fu.capabilityList capability

namespace FUPool

def addOp (number : Nat) (s : FUPool C × FuncUnit C) (j : OpDesc C) :
    Option (FUPool C × FuncUnit C) :=
  let pool := s.1
  let q := (range number).foldl (fun q k => q.addFU (pool.numFU + k))
    (pool.fuPerCapList j.opClass)
  (s.2.addCapability j.opClass j.opLat).map fun fu =>
    ({ pool with
        capabilityList := update pool.capabilityList j.opClass true
        fuPerCapList := update pool.fuPerCapList j.opClass q
        maxOpLatencies := update pool.maxOpLatencies j.opClass
          (max (pool.maxOpLatencies j.opClass) j.opLat)
        pipelined := update pool.pipelined j.opClass
          (pool.pipelined j.opClass && j.pipelined) }, fu)

def addDesc (pool : FUPool C) (i : FUDesc C) : Option (FUPool C) :=
  if i.number = 0 then some pool
  else (i.opDescList.foldlM (addOp i.number) (pool, {})).map fun (pool, fu) =>
    { pool with
      numFU := pool.numFU + i.number
      funcUnits := pool.funcUnits ++ replicate i.number fu }

def construct (FUList : List (FUDesc C)) : Option (FUPool C) :=
  (FUList.foldlM addDesc {}).map fun pool =>
    { pool with unitBusy := replicate pool.numFU false }

/-- The loop of `getUnit`: the unit, or `none` for `NoFreeFU`. -/
def search (unitBusy : List Bool) (start_idx : Nat) :
    (fuel : Nat) → FUIdxQueue → (fu_idx : Nat) → Option (Option Nat × FUIdxQueue)
  | 0, _, _ => none
  | fuel + 1, q, fu_idx =>
      unitBusy[fu_idx]?.bind fun busy =>
        if busy then
          q.getFU.bind fun (fu_idx, q) =>
            if fu_idx = start_idx then some (none, q) else search unitBusy start_idx fuel q fu_idx
        else some (some fu_idx, q)

/-- `none` where an assertion fails, a vector is read out of range or the loop does not end. -/
def getUnit (pool : FUPool C) (capability : C) : Option (Grant × FUPool C) :=
  if pool.capabilityList capability then do
    let (start_idx, q) ← (pool.fuPerCapList capability).getFU
    let (found, q) ← search pool.unitBusy start_idx q.size q start_idx
    let pool := { pool with fuPerCapList := update pool.fuPerCapList capability q }
    match found with
    | none => some (.noFreeFU, pool)
    | some fu_idx =>
        if fu_idx < pool.numFU then
          some (.unit fu_idx, { pool with unitBusy := pool.unitBusy.set fu_idx true })
        else none
  else some (.noCapableFU, pool)

def freeUnitNextCycle (pool : FUPool C) (fu_idx : Nat) : Option (FUPool C) :=
  if pool.unitBusy[fu_idx]? = some true then
    some { pool with unitsToBeFreed := fu_idx :: pool.unitsToBeFreed }
  else none

def freeUnits (unitBusy : List Bool) : List Nat → Option (List Bool)
  | [] => some unitBusy
  | fu_idx :: rest =>
      if unitBusy[fu_idx]? = some true then freeUnits (unitBusy.set fu_idx false) rest else none

def processFreeUnits (pool : FUPool C) : Option (FUPool C) :=
  (freeUnits pool.unitBusy pool.unitsToBeFreed).map fun unitBusy =>
    { pool with unitBusy, unitsToBeFreed := [] }

def Capable (pool : FUPool C) (c : C) (u : Nat) : Prop :=
  ∃ fu, pool.funcUnits[u]? = some fu ∧ fu.provides c = true

def Free (pool : FUPool C) (u : Nat) : Prop := pool.unitBusy[u]? = some false

/-- A request ends, and it is granted a unit, free and capable, exactly if there is one; it is
refused for now exactly if all capable units are busy. -/
def Serves (pool : FUPool C) (c : C) : Prop :=
  ∃ r pool', pool.getUnit c = some (r, pool') ∧
    (∀ u, r = .unit u → pool.Capable c u ∧ pool.Free u) ∧
    ((∃ u, r = .unit u) ↔ ∃ u, pool.Capable c u ∧ pool.Free u) ∧
    (r = .noFreeFU ↔ (∃ u, pool.Capable c u) ∧ ∀ u, pool.Capable c u → ¬ pool.Free u)

end FUPool

section

def FUDesc.listings (d : FUDesc C) (c : C) : Nat := d.opDescList.countP (·.opClass = c)

def FUDesc.funcUnit (d : FUDesc C) : FuncUnit C := ⟨fun c => decide (0 < d.listings c)⟩

def units (FUList : List (FUDesc C)) : List (FuncUnit C) :=
  FUList.flatMap fun d => replicate d.number d.funcUnit

@[simp] theorem units_nil : units ([] : List (FUDesc C)) = [] := rfl

@[simp] theorem units_cons (d : FUDesc C) (FUList : List (FUDesc C)) :
    units (d :: FUList) = replicate d.number d.funcUnit ++ units FUList :=
  flatMap_cons

def blocks (k a m : Nat) : List Nat := (replicate k (range' a m)).flatten

def queueOf (c : C) : List (FUDesc C) → Nat → List Nat
  | [], _ => []
  | d :: FUList, n => blocks (d.listings c) n d.number ++ queueOf c FUList (n + d.number)

def FUIdxQueue.extend (q : FUIdxQueue) (l : List Nat) : FUIdxQueue :=
  { q with funcUnitsIdx := q.funcUnitsIdx ++ l, size := q.size + l.length }

@[simp] theorem FUIdxQueue.extend_nil (q : FUIdxQueue) : q.extend [] = q := by
  simp [FUIdxQueue.extend]

@[simp] theorem FUIdxQueue.extend_extend (q : FUIdxQueue) (l l' : List Nat) :
    (q.extend l).extend l' = q.extend (l ++ l') := by
  simp [FUIdxQueue.extend, Nat.add_assoc]

private theorem foldl_addFU (q : FUIdxQueue) (n m : Nat) :
    (range m).foldl (fun q k => q.addFU (n + k)) q = q.extend (range' n m) := by
  induction m with
  | zero => simp
  | succ m ih =>
    rw [range_succ, foldl_append, ih, foldl_cons,
      range'_concat, Nat.one_mul, ← FUIdxQueue.extend_extend]
    rfl

theorem blocks_succ (k a m : Nat) : blocks (k + 1) a m = range' a m ++ blocks k a m := by
  rw [blocks, replicate_succ, flatten_cons, blocks]

theorem length_blocks (k a m : Nat) : (blocks k a m).length = k * m := by
  rw [blocks, length_flatten, map_replicate, sum_replicate_nat, length_range']

theorem blocks_eq_nil {k a m : Nat} : blocks k a m = [] ↔ k = 0 ∨ m = 0 := by
  rw [← length_eq_zero_iff, length_blocks, Nat.mul_eq_zero]

structure Extends (pool pool' : FUPool C) (added : C → List Nat) (has : C → Bool) : Prop where
  unitsToBeFreed : pool'.unitsToBeFreed = pool.unitsToBeFreed
  queue : ∀ c, pool'.fuPerCapList c = (pool.fuPerCapList c).extend (added c)
  capability : ∀ c, pool'.capabilityList c = (pool.capabilityList c || has c)

theorem addOp_spec {number : Nat} {pool pool' : FUPool C} {fu fu' : FuncUnit C} {j : OpDesc C}
    (h : FUPool.addOp number (pool, fu) j = some (pool', fu')) :
    Extends pool pool' (fun c => if j.opClass = c then range' pool.numFU number else [])
        (fun c => decide (j.opClass = c)) ∧
      pool'.numFU = pool.numFU ∧ pool'.funcUnits = pool.funcUnits ∧
      ∀ c, fu'.capabilityList c = (fu.capabilityList c || decide (j.opClass = c)) := by
  simp only [FUPool.addOp, FuncUnit.addCapability, foldl_addFU] at h
  split at h
  · cases h
  · cases h
    refine ⟨⟨rfl, fun c => ?_, fun c => ?_⟩, rfl, rfl, fun c => ?_⟩
    all_goals
      by_cases hc : j.opClass = c
      · subst hc
        simp
      · simp [hc, update_of_ne (Ne.symm hc)]

theorem addOps_spec {number : Nat} {ops : List (OpDesc C)} {pool pool' : FUPool C}
    {fu fu' : FuncUnit C} (h : ops.foldlM (FUPool.addOp number) (pool, fu) = some (pool', fu')) :
    Extends pool pool' (fun c => blocks (ops.countP (·.opClass = c)) pool.numFU number)
        (fun c => decide (0 < ops.countP (·.opClass = c))) ∧
      pool'.numFU = pool.numFU ∧ pool'.funcUnits = pool.funcUnits ∧
      ∀ c, fu'.capabilityList c =
        (fu.capabilityList c || decide (0 < ops.countP (·.opClass = c))) := by
  induction ops generalizing pool fu with
  | nil =>
    cases h
    exact ⟨⟨rfl, fun c => by simp [blocks], fun c => by simp⟩, rfl, rfl, fun c => by simp⟩
  | cons j ops ih =>
    obtain ⟨⟨pool₁, fu₁⟩, hop, hrest⟩ := Option.bind_eq_some_iff.mp h
    obtain ⟨hext₁, hnum₁, hunits₁, hfu₁⟩ := addOp_spec hop
    obtain ⟨hext, hnum, hunits, hfu⟩ := ih hrest
    refine ⟨⟨hext.unitsToBeFreed.trans hext₁.unitsToBeFreed, fun c => ?_, fun c => ?_⟩,
      hnum.trans hnum₁, hunits.trans hunits₁, fun c => ?_⟩
    · rw [hext.queue, hext₁.queue, hnum₁]
      by_cases hc : j.opClass = c <;> simp [hc, blocks_succ]
    · rw [hext.capability, hext₁.capability]
      by_cases hc : j.opClass = c <;> simp [hc]
    · rw [hfu, hfu₁]
      by_cases hc : j.opClass = c <;> simp [hc]

theorem addDesc_spec {pool pool' : FUPool C} {d : FUDesc C} (h : pool.addDesc d = some pool') :
    Extends pool pool' (fun c => blocks (d.listings c) pool.numFU d.number)
        (fun c => decide (d.number ≠ 0 ∧ 0 < d.listings c)) ∧
      pool'.numFU = pool.numFU + d.number ∧
      pool'.funcUnits = pool.funcUnits ++ replicate d.number d.funcUnit := by
  rw [FUPool.addDesc] at h
  split at h
  next hzero =>
    cases h
    exact ⟨⟨rfl, fun c => by simp [hzero, blocks], fun c => by simp [hzero]⟩, by simp [hzero],
      by simp [hzero]⟩
  next hpos =>
    obtain ⟨⟨pool₁, fu⟩, hops, rfl⟩ := Option.map_eq_some_iff.mp h
    obtain ⟨hext, hnum, hunits, hfu⟩ := addOps_spec hops
    have hunit : fu = d.funcUnit := by
      cases fu
      exact congrArg FuncUnit.mk (funext fun c => by simpa [FUDesc.listings] using hfu c)
    refine ⟨⟨hext.unitsToBeFreed, hext.queue, fun c => ?_⟩, ?_, ?_⟩
    · simpa [hpos, FUDesc.listings] using hext.capability c
    · simp [hnum]
    · simp [hunits, hunit]

variable {FUList : List (FUDesc C)}

theorem addDescs_spec {pool pool' : FUPool C} (h : FUList.foldlM FUPool.addDesc pool = some pool') :
    Extends pool pool' (fun c => queueOf c FUList pool.numFU)
        (fun c => decide (queueOf c FUList pool.numFU ≠ [])) ∧
      pool'.numFU = pool.numFU + (units FUList).length ∧
      pool'.funcUnits = pool.funcUnits ++ units FUList := by
  induction FUList generalizing pool with
  | nil =>
    cases h
    exact ⟨⟨rfl, fun c => by simp [queueOf], fun c => by simp [queueOf]⟩, rfl, by simp⟩
  | cons d FUList ih =>
    obtain ⟨pool₁, hdesc, hrest⟩ := Option.bind_eq_some_iff.mp h
    obtain ⟨hext₁, hnum₁, hunits₁⟩ := addDesc_spec hdesc
    obtain ⟨hext, hnum, hunits⟩ := ih hrest
    refine ⟨⟨hext.unitsToBeFreed.trans hext₁.unitsToBeFreed, fun c => ?_, fun c => ?_⟩, ?_, ?_⟩
    · rw [hext.queue, hext₁.queue, FUIdxQueue.extend_extend, hnum₁, queueOf]
    · rw [hext.capability, hext₁.capability, hnum₁, queueOf, Bool.or_assoc, ← Bool.decide_or]
      congr 2
      rw [ne_eq (_ ++ _), append_eq_nil_iff, not_and_or, blocks_eq_nil, not_or, and_comm,
        Nat.pos_iff_ne_zero]
    · rw [hnum, hnum₁]
      simp [Nat.add_assoc]
    · rw [hunits, hunits₁]
      simp

private theorem mem_blocks {k a m u : Nat} : u ∈ blocks k a m ↔ k ≠ 0 ∧ a ≤ u ∧ u < a + m := by
  simp [blocks, mem_replicate, mem_range'_1]

variable {c : C}

theorem mem_queueOf {n u : Nat} : u ∈ queueOf c FUList n ↔
      n ≤ u ∧ ∃ fu, (units FUList)[u - n]? = some fu ∧ fu.provides c = true := by
  induction FUList generalizing n with
  | nil => simp [queueOf]
  | cons d FUList ih =>
    rw [queueOf, mem_append, mem_blocks, ih, units_cons]
    by_cases hlt : u < n + d.number
    · by_cases hge : n ≤ u
      · have hin : u - n < (replicate d.number d.funcUnit).length := by
          rw [length_replicate]
          omega
        rw [getElem?_append_left hin, getElem?_replicate_of_lt (by omega)]
        simp [FuncUnit.provides, FUDesc.funcUnit, Nat.pos_iff_ne_zero, hge, hlt]
      · omega
    · have hge : n ≤ u := by omega
      have hout : (replicate d.number d.funcUnit).length ≤ u - n := by
        rw [length_replicate]
        omega
      rw [getElem?_append_right hout, Nat.sub_sub]
      simp [hge, hlt]
      omega

/-- No description lists a class twice, or one description has all units of it. -/
def Unambiguous (FUList : List (FUDesc C)) : Prop :=
  ∀ c, (∀ d ∈ FUList, d.number ≠ 0 → d.listings c ≤ 1) ∨
    (FUList.filter fun d => d.number ≠ 0 ∧ d.listings c ≠ 0).length ≤ 1

private theorem queueOf_sublist (n : Nat) (honce : ∀ d ∈ FUList, d.number ≠ 0 → d.listings c ≤ 1) :
    (queueOf c FUList n).Sublist (range' n (units FUList).length) := by
  induction FUList generalizing n with
  | nil => exact Sublist.refl _
  | cons d FUList ih =>
    have hrest := ih (n + d.number) fun d' hd' => honce d' (mem_cons_of_mem _ hd')
    have hblock : (blocks (d.listings c) n d.number).Sublist (range' n d.number) := by
      by_cases hnil : blocks (d.listings c) n d.number = []
      · rw [hnil]
        exact nil_sublist _
      · rw [blocks_eq_nil, not_or] at hnil
        have hone : d.listings c = 1 := by
          have hle := honce d mem_cons_self hnil.2
          omega
        rw [hone, blocks]
        simp
    have hlength : (units (d :: FUList)).length = d.number + (units FUList).length := by
      simp
    rw [hlength, ← range'_append_1]
    exact hblock.append hrest

theorem queueOf_eq_nil (n : Nat) (hnone : ∀ d ∈ FUList, ¬ (d.number ≠ 0 ∧ d.listings c ≠ 0)) :
    queueOf c FUList n = [] := by
  induction FUList generalizing n with
  | nil => rfl
  | cons d FUList ih =>
    have hblock : blocks (d.listings c) n d.number = [] := by
      rw [blocks_eq_nil]
      have hd := hnone d mem_cons_self
      omega
    rw [queueOf, hblock, nil_append, ih _ fun d' hd' => hnone d' (mem_cons_of_mem _ hd')]

theorem queueOf_blocks (n : Nat)
    (hone : (FUList.filter fun d => d.number ≠ 0 ∧ d.listings c ≠ 0).length ≤ 1) :
    ∃ k a m, queueOf c FUList n = blocks k a m := by
  induction FUList generalizing n with
  | nil => exact ⟨0, 0, 0, rfl⟩
  | cons d FUList ih =>
    by_cases hlists : d.number ≠ 0 ∧ d.listings c ≠ 0
    · rw [filter_cons_of_pos (by simpa using hlists), length_cons] at hone
      have hnil : FUList.filter (fun d => d.number ≠ 0 ∧ d.listings c ≠ 0) = [] :=
        length_eq_zero_iff.mp (by omega)
      have hrest : queueOf c FUList (n + d.number) = [] :=
        queueOf_eq_nil _ fun d' hd' => by simpa using filter_eq_nil_iff.mp hnil d' hd'
      exact ⟨_, _, _, by rw [queueOf, hrest, append_nil]⟩
    · have hblock : blocks (d.listings c) n d.number = [] := by
        rw [blocks_eq_nil]
        omega
      rw [filter_cons_of_neg (by simpa using hlists)] at hone
      rw [queueOf, hblock]
      exact ih _ hone

end

section

variable {l : List Nat}

def around (l : List Nat) (i : Nat) : Nat := l.getD (i % l.length) 0

theorem around_mem (hl : l ≠ []) (i : Nat) : around l i ∈ l := by
  have hlt : i % l.length < l.length := Nat.mod_lt _ (length_pos_iff.mpr hl)
  rw [around, getD_eq_getElem _ _ hlt]
  exact getElem_mem hlt

private theorem exists_around {u : Nat} (hu : u ∈ l) : ∃ i, around l i = u := by
  obtain ⟨i, hi, rfl⟩ := mem_iff_getElem.mp hu
  exact ⟨i, by rw [around, Nat.mod_eq_of_lt hi, getD_eq_getElem _ _ hi]⟩

theorem regular_of_nodup (hl : l ≠ []) (hnodup : l.Nodup) : Regular (around l) l.length := by
  intro i j
  have hpos := length_pos_iff.mpr hl
  rw [around, around, getD_eq_getElem _ _ (Nat.mod_lt i hpos),
    getD_eq_getElem _ _ (Nat.mod_lt j hpos), hnodup.getElem_inj_iff]

theorem getD_blocks {k a m i : Nat} (hi : i < k * m) : (blocks k a m).getD i 0 = a + i % m := by
  induction k generalizing i with
  | zero => omega
  | succ k ih =>
    rw [Nat.succ_mul] at hi
    rw [blocks_succ]
    by_cases hlt : i < m
    · rw [getD_append _ _ _ _ (by rwa [length_range']),
        getD_eq_getElem _ _ (by rwa [length_range']), getElem_range',
        Nat.mod_eq_of_lt hlt, Nat.one_mul]
    · rw [getD_append_right _ _ _ _ (by rw [length_range']; omega), length_range',
        ih (by omega), Nat.mod_eq_sub_mod (Nat.le_of_not_lt hlt)]

theorem regular_blocks {k a m : Nat} (hl : blocks k a m ≠ []) : Regular (around (blocks k a m)) m := by
  intro i j
  have hpos : 0 < k * m := by
    rw [← length_blocks k a m]
    exact length_pos_iff.mpr hl
  rw [around, around, length_blocks, getD_blocks (Nat.mod_lt i hpos),
    getD_blocks (Nat.mod_lt j hpos), Nat.mod_mul_left_mod, Nat.mod_mul_left_mod]
  omega

theorem Unambiguous.regular {FUList : List (FUDesc C)} (h : Unambiguous FUList) {c : C}
    (hl : queueOf c FUList 0 ≠ []) : ∃ n, 0 < n ∧ Regular (around (queueOf c FUList 0)) n := by
  rcases h c with honce | hone
  · have hnodup := (queueOf_sublist 0 honce).nodup nodup_range'
    exact ⟨_, length_pos_iff.mpr hl, regular_of_nodup hl hnodup⟩
  · obtain ⟨k, a, m, hblocks⟩ := queueOf_blocks 0 hone
    rw [hblocks] at hl ⊢
    refine ⟨m, Nat.pos_of_ne_zero fun hm => hl ?_, regular_blocks hl⟩
    rw [blocks_eq_nil]
    exact .inr hm

theorem getFU_eq {q : FUIdxQueue} {i : Nat} (hl : q.funcUnitsIdx ≠ [])
    (hsize : q.size = q.funcUnitsIdx.length) (hidx : q.idx = i % q.funcUnitsIdx.length) :
    q.getFU = some (around q.funcUnitsIdx i, { q with idx := (i + 1) % q.funcUnitsIdx.length }) := by
  have hlt : i % q.funcUnitsIdx.length < q.funcUnitsIdx.length :=
    Nat.mod_lt _ (length_pos_iff.mpr hl)
  have hnext : (i + 1) % q.funcUnitsIdx.length =
      if q.idx + 1 = q.size then 0 else q.idx + 1 := by
    rw [← Nat.mod_add_mod, hsize, ← hidx]
    split
    next hend => rw [hend, Nat.mod_self]
    next hend => exact Nat.mod_eq_of_lt (by omega)
  rw [FUIdxQueue.getFU, hnext, around, getD_eq_getElem _ _ hlt, hidx,
    getElem?_eq_getElem hlt]
  rfl

theorem search_eq {unitBusy : List Bool} {start_idx : Nat} {q : FUIdxQueue} (fuel i : Nat)
    (hl : q.funcUnitsIdx ≠ []) (hsize : q.size = q.funcUnitsIdx.length)
    (hidx : q.idx = (i + 1) % q.funcUnitsIdx.length)
    (hin : ∀ u ∈ q.funcUnitsIdx, u < unitBusy.length) :
    FUPool.search unitBusy start_idx fuel q (around q.funcUnitsIdx i) =
      (scan (around q.funcUnitsIdx) (unitBusy.getD · false) start_idx fuel i).map fun r =>
        (r.1, { q with idx := r.2 % q.funcUnitsIdx.length }) := by
  induction fuel generalizing q i with
  | zero => rfl
  | succ fuel ih =>
    have hlt := hin _ (around_mem hl i)
    rw [FUPool.search, scan, getElem?_eq_getElem hlt, Option.bind_some,
      getD_eq_getElem _ _ hlt]
    cases unitBusy[around q.funcUnitsIdx i] with
    | false => simp [← hidx]
    | true =>
      rw [if_pos rfl, getFU_eq hl hsize hidx, Option.bind_some]
      dsimp only
      split
      · rfl
      · exact ih (i + 1) hl hsize rfl hin

end

section

structure State (C : Type) where
  pool : FUPool C
  granted : List Nat := []

inductive Event (C : Type)
  | getUnit (c : C)
  | freeUnitNextCycle (fu_idx : Nat)
  | processFreeUnits

def call (s : State C) : Event C → Option (State C)
  | .getUnit c => (s.pool.getUnit c).map fun (r, pool) =>
      match r with
      | .unit u => ⟨pool, u :: s.granted⟩
      | .noFreeFU => ⟨pool, s.granted⟩
      | .noCapableFU => ⟨pool, s.granted⟩
  | .freeUnitNextCycle u => (s.pool.freeUnitNextCycle u).map fun pool => ⟨pool, s.granted.erase u⟩
  | .processFreeUnits => s.pool.processFreeUnits.map fun pool => ⟨pool, s.granted⟩

def step (s : State C) (e : Event C) : State C := (call s e).getD s

/-- A unit is given back once. -/
def Allowed (s : State C) : Event C → Prop
  | .getUnit _ => True
  | .freeUnitNextCycle u => u ∈ s.granted
  | .processFreeUnits => True

instance (s : State C) (e : Event C) : Decidable (Allowed s e) := by
  cases e <;> dsimp only [Allowed] <;> infer_instance

structure Wf (FUList : List (FUDesc C)) (s : State C) : Prop where
  numFU : s.pool.numFU = (units FUList).length
  funcUnits : s.pool.funcUnits = units FUList
  unitBusy : s.pool.unitBusy.length = (units FUList).length
  capability : ∀ c, s.pool.capabilityList c = decide (queueOf c FUList 0 ≠ [])
  queue : ∀ c, ∃ idx,
    s.pool.fuPerCapList c = ⟨idx, (queueOf c FUList 0).length, queueOf c FUList 0⟩ ∧
      (queueOf c FUList 0 ≠ [] → idx < (queueOf c FUList 0).length)
  busy : ∀ u, s.pool.unitBusy[u]? = some true ↔ u ∈ s.granted ++ s.pool.unitsToBeFreed
  nodup : (s.granted ++ s.pool.unitsToBeFreed).Nodup

variable {FUList : List (FUDesc C)} {s : State C}

private theorem wf_construct {pool : FUPool C} (hpool : FUPool.construct FUList = some pool) :
    Wf FUList ⟨pool, []⟩ := by
  obtain ⟨pool₁, hdescs, rfl⟩ := Option.map_eq_some_iff.mp hpool
  obtain ⟨hext, hnum, hunits⟩ := addDescs_spec hdescs
  have hqueue : ∀ c, pool₁.fuPerCapList c = ⟨0, (queueOf c FUList 0).length, queueOf c FUList 0⟩ := by
    intro c
    rw [hext.queue c]
    simp [FUIdxQueue.extend]
  have hnum' : pool₁.numFU = (units FUList).length := by simpa using hnum
  constructor
  case numFU => exact hnum'
  case funcUnits => simpa using hunits
  case unitBusy => simp [hnum']
  case capability => intro c; simpa using hext.capability c
  case queue => exact fun c => ⟨0, hqueue c, length_pos_iff.mpr⟩
  case busy => intro u; simp [hext.unitsToBeFreed, getElem?_replicate]
  case nodup => simp [hext.unitsToBeFreed]

variable {c : C} {u : Nat}

theorem Wf.capable_iff (h : Wf FUList s) : s.pool.Capable c u ↔ u ∈ queueOf c FUList 0 := by
  rw [mem_queueOf, FUPool.Capable, h.funcUnits]
  simp

theorem Wf.lt_of_mem_queueOf (h : Wf FUList s) (hu : u ∈ queueOf c FUList 0) :
    u < s.pool.unitBusy.length ∧ u < s.pool.numFU := by
  obtain ⟨-, fu, hfu, -⟩ := mem_queueOf.mp hu
  have hlt := (List.getElem?_eq_some_iff.mp hfu).1
  rw [h.unitBusy, h.numFU]
  exact ⟨hlt, hlt⟩

def searched (pool : FUPool C) (c : C) (q : FUIdxQueue) : Option Nat → Grant × FUPool C
  | none => (.noFreeFU, { pool with fuPerCapList := update pool.fuPerCapList c q })
  | some u =>
      (.unit u, { pool with
        fuPerCapList := update pool.fuPerCapList c q
        unitBusy := pool.unitBusy.set u true })

section

variable (h : Wf FUList s)
include h

theorem Wf.getUnit_eq (hl : queueOf c FUList 0 ≠ []) :
    ∃ found, ∃ idx < (queueOf c FUList 0).length,
      s.pool.getUnit c = some (searched s.pool c
        ⟨idx, (queueOf c FUList 0).length, queueOf c FUList 0⟩ found) ∧
      ∃ p, Found (around (queueOf c FUList 0)) (s.pool.unitBusy.getD · false) p found := by
  have hcap : s.pool.capabilityList c = true := by
    rw [h.capability c]
    exact decide_eq_true hl
  have hpos := length_pos_iff.mpr hl
  have hin : ∀ u ∈ queueOf c FUList 0, u < s.pool.unitBusy.length :=
    fun u hu => (h.lt_of_mem_queueOf hu).1
  obtain ⟨p, hqueue, hp⟩ := h.queue c
  have hidx := hp hl
  set l := queueOf c FUList 0
  have hrecurs : around l (p + l.length) = around l p := by rw [around, Nat.add_mod_right, around]
  obtain ⟨found, i, hscan, hfound⟩ : ∃ found i, scan (around l) (s.pool.unitBusy.getD · false)
      (around l p) l.length p = some (found, i) ∧ Found _ _ p found :=
    scan_spec hpos hrecurs (Nat.le_refl l.length)
  refine ⟨found, i % l.length, Nat.mod_lt i hpos, ?_, p, hfound⟩
  rw [FUPool.getUnit, if_pos hcap, hqueue, getFU_eq hl rfl (Nat.mod_eq_of_lt hidx).symm]
  simp only [Option.bind_eq_bind, Option.bind_some]
  rw [search_eq l.length p hl rfl rfl hin, hscan]
  cases hfound with
  | free e hfree =>
    exact if_pos (h.lt_of_mem_queueOf (around_mem hl _)).2
  | recurs e hpos hsame hbusy => rfl

theorem Wf.getUnit_nil (hl : queueOf c FUList 0 = []) :
    s.pool.getUnit c = some (.noCapableFU, s.pool) := by
  have hcap : ¬ s.pool.capabilityList c = true := by
    rw [h.capability c]
    simpa using hl
  rw [FUPool.getUnit, if_neg hcap]

theorem Wf.searched_queue {idx : Nat} (hidx : idx < (queueOf c FUList 0).length) (c' : C) :
    ∃ idx', update s.pool.fuPerCapList c
        ⟨idx, (queueOf c FUList 0).length, queueOf c FUList 0⟩ c' =
          ⟨idx', (queueOf c' FUList 0).length, queueOf c' FUList 0⟩ ∧
      (queueOf c' FUList 0 ≠ [] → idx' < (queueOf c' FUList 0).length) := by
  by_cases hc : c' = c
  · subst hc
    exact ⟨idx, update_self .., fun _ => hidx⟩
  · rw [update_of_ne hc]
    exact h.queue c'

theorem Wf.free_of_found {p : Nat} (hl : queueOf c FUList 0 ≠ [])
    (hfound : Found (around (queueOf c FUList 0)) (s.pool.unitBusy.getD · false) p (some u)) :
    u ∈ queueOf c FUList 0 ∧ s.pool.Free u := by
  cases hfound with
  | free e hfree =>
    have hmem := around_mem hl (p + e)
    have hlt := (h.lt_of_mem_queueOf hmem).1
    rw [getD_eq_getElem _ _ hlt] at hfree
    exact ⟨hmem, by rw [FUPool.Free, getElem?_eq_getElem hlt, hfree]⟩

theorem Wf.getUnit (c : C) : ∃ s', call s (.getUnit c) = some s' ∧ Wf FUList s' := by
  by_cases hl : queueOf c FUList 0 = []
  · exact ⟨s, by rw [call, h.getUnit_nil hl]; rfl, h⟩
  · obtain ⟨found, idx, hidx, heq, p, hfound⟩ := h.getUnit_eq hl
    rw [call, heq]
    cases found with
    | none => exact ⟨_, rfl, { h with queue := h.searched_queue hidx }⟩
    | some u =>
      obtain ⟨hmem, hfree⟩ := h.free_of_found hl hfound
      have hlt := (h.lt_of_mem_queueOf hmem).1
      have hnew : u ∉ s.granted ++ s.pool.unitsToBeFreed := by
        rw [← h.busy u, hfree]
        simp
      refine ⟨_, rfl, { h with
        queue := h.searched_queue hidx, unitBusy := ?_, busy := ?_, nodup := ?_ }⟩
      · exact length_set.trans h.unitBusy
      · intro u'
        dsimp only [searched]
        rw [cons_append, mem_cons, ← h.busy u']
        by_cases hu : u = u'
        · subst hu
          simp [hlt]
        · rw [getElem?_set_ne hu]
          simp [Ne.symm hu]
      · exact nodup_cons.mpr ⟨hnew, h.nodup⟩

theorem Wf.freeUnitNextCycle (hu : u ∈ s.granted) :
    ∃ s', call s (.freeUnitNextCycle u) = some s' ∧ Wf FUList s' := by
  have hbusy : s.pool.unitBusy[u]? = some true := (h.busy u).mpr (mem_append_left _ hu)
  have hperm : (s.granted.erase u ++ u :: s.pool.unitsToBeFreed).Perm
      (s.granted ++ s.pool.unitsToBeFreed) :=
    perm_middle.trans ((perm_cons_erase hu).symm.append_right _)
  rw [call, FUPool.freeUnitNextCycle, if_pos hbusy]
  refine ⟨_, rfl, { h with busy := ?_, nodup := hperm.nodup_iff.mpr h.nodup }⟩
  intro u'
  rw [hperm.mem_iff]
  exact h.busy u'

end

theorem freeUnits_spec {unitBusy : List Bool} {pending : List Nat} (hnodup : pending.Nodup)
    (hbusy : ∀ u ∈ pending, unitBusy[u]? = some true) :
    ∃ unitBusy', FUPool.freeUnits unitBusy pending = some unitBusy' ∧
      unitBusy'.length = unitBusy.length ∧
      ∀ u, unitBusy'[u]? = some true ↔ unitBusy[u]? = some true ∧ u ∉ pending := by
  induction pending generalizing unitBusy with
  | nil => exact ⟨unitBusy, rfl, rfl, by simp⟩
  | cons u pending ih =>
    obtain ⟨hnot, hnodup'⟩ := nodup_cons.mp hnodup
    have hrest : ∀ u' ∈ pending, (unitBusy.set u false)[u']? = some true := by
      intro u' hu'
      have hne : u ≠ u' := fun heq => hnot (heq ▸ hu')
      rw [getElem?_set_ne hne]
      exact hbusy u' (mem_cons_of_mem _ hu')
    obtain ⟨unitBusy', hfree, hlength, hiff⟩ := ih hnodup' hrest
    refine ⟨unitBusy', ?_, by rw [hlength, length_set], ?_⟩
    · rw [FUPool.freeUnits, if_pos (hbusy u mem_cons_self), hfree]
    · intro u'
      rw [hiff u', mem_cons]
      by_cases hu : u = u'
      · subst hu
        simp [getElem?_set]
      · rw [getElem?_set_ne hu]
        simp [Ne.symm hu]

theorem Wf.processFreeUnits (h : Wf FUList s) :
    ∃ s', call s .processFreeUnits = some s' ∧ Wf FUList s' := by
  obtain ⟨unitBusy', hfree, hlength, hiff⟩ := freeUnits_spec (nodup_append.mp h.nodup).2.1
    fun u hu => (h.busy u).mpr (mem_append_right _ hu)
  rw [call, FUPool.processFreeUnits, hfree]
  refine ⟨_, rfl, { h with unitBusy := hlength.trans h.unitBusy, busy := ?_, nodup := ?_ }⟩
  · intro u
    rw [hiff u, h.busy u, mem_append]
    have hdisjoint := (nodup_append.mp h.nodup).2.2
    grind
  · rw [append_nil]
    exact (nodup_append.mp h.nodup).1

theorem Wf.call {e : Event C} (h : Wf FUList s) (hallowed : Allowed s e) :
    ∃ s', FuPool.call s e = some s' ∧ Wf FUList s' := by
  cases e with
  | getUnit c => exact h.getUnit c
  | freeUnitNextCycle u => exact h.freeUnitNextCycle hallowed
  | processFreeUnits => exact h.processFreeUnits

theorem wf_step (s : State C) (e : Event C) (h : Wf FUList s) (hallowed : Allowed s e) :
    Wf FUList (step s e) := by
  obtain ⟨s', hcall, h'⟩ := h.call hallowed
  rw [step, hcall]
  exact h'

theorem Wf.serves (h : Wf FUList s) (hlists : Unambiguous FUList) (c : C) : s.pool.Serves c := by
  by_cases hl : queueOf c FUList 0 = []
  · have hnone : ¬ ∃ u, s.pool.Capable c u := by
      rintro ⟨u, hu⟩
      rw [h.capable_iff, hl] at hu
      cases hu
    refine ⟨_, _, h.getUnit_nil hl, ?_, ?_, ?_⟩
    · intro u hu
      cases hu
    · exact ⟨fun ⟨u, hu⟩ => (by cases hu), fun ⟨u, hu, _⟩ => absurd ⟨u, hu⟩ hnone⟩
    · exact ⟨fun hr => (by cases hr), fun ⟨hu, _⟩ => absurd hu hnone⟩
  · obtain ⟨found, idx, hidx, heq, p, hfound⟩ := h.getUnit_eq hl
    cases found with
    | none =>
      obtain ⟨n, hn, hregular⟩ := hlists.regular hl
      have hbusy : ∀ u, s.pool.Capable c u → ¬ s.pool.Free u := by
        intro u hu hfree
        obtain ⟨i, rfl⟩ := exists_around (h.capable_iff.mp hu)
        have htrue := hfound.forall_busy hregular hn i
        rw [getD_eq_getElem?_getD, hfree] at htrue
        cases htrue
      have hsome : ∃ u, s.pool.Capable c u := by
        obtain ⟨u, hu⟩ := exists_mem_of_ne_nil _ hl
        exact ⟨u, h.capable_iff.mpr hu⟩
      refine ⟨_, _, heq, ?_, ?_, ?_⟩
      · intro u hu
        cases hu
      · exact ⟨fun ⟨u, hu⟩ => (by cases hu), fun ⟨u, hu, hfree⟩ => absurd hfree (hbusy u hu)⟩
      · exact ⟨fun _ => ⟨hsome, hbusy⟩, fun _ => rfl⟩
    | some u =>
      obtain ⟨hmem, hfree⟩ := h.free_of_found hl hfound
      have hcapable := h.capable_iff.mpr hmem
      refine ⟨_, _, heq, ?_, ?_, ?_⟩
      · intro u' hu'
        cases hu'
        exact ⟨hcapable, hfree⟩
      · exact ⟨fun _ => ⟨u, hcapable, hfree⟩, fun _ => ⟨u, rfl⟩⟩
      · exact ⟨fun hr => (by cases hr), fun ⟨_, hall⟩ => absurd hfree (hall u hcapable)⟩

theorem pool_serves {pool : FUPool C} (hpool : FUPool.construct FUList = some pool)
    (hlists : Unambiguous FUList) {events : List (Event C)}
    (hlegal : Legal step Allowed ⟨pool, []⟩ events) :
    let s := run step ⟨pool, []⟩ events
    (∀ c, s.pool.Serves c) ∧ ∀ e, Allowed s e → ∃ s', call s e = some s' := by
  have h : Wf FUList (run step ⟨pool, []⟩ events) := run_inv _ wf_step _ (wf_construct hpool) hlegal
  refine ⟨h.serves hlists, fun e hallowed => ?_⟩
  obtain ⟨s', hcall, -⟩ := h.call hallowed
  exact ⟨s', hcall⟩

/-- A description with two units next to another, as in the default pool. -/
theorem pool_serves_two_descs :
    ∃ pool, FUPool.construct [⟨[⟨true, 1, true⟩, ⟨false, 3, true⟩], 2⟩, ⟨[⟨true, 1, true⟩], 1⟩] =
        some pool ∧
      (run step ⟨pool, []⟩ [.getUnit false, .getUnit true, .freeUnitNextCycle 0]).pool.Serves true := by
  have hlists : Unambiguous (C := Bool)
      [⟨[⟨true, 1, true⟩, ⟨false, 3, true⟩], 2⟩, ⟨[⟨true, 1, true⟩], 1⟩] := by
    intro c
    refine .inl ?_
    cases c <;> simp [FUDesc.listings]
  refine ⟨_, rfl, (pool_serves rfl hlists ?_).1 true⟩
  decide

/-- The first description lists its class twice, and the search meets unit 0 again before it
comes to unit 1. -/
theorem pool_not_serving :
    ∃ pool, FUPool.construct [⟨[⟨true, 1, true⟩, ⟨true, 1, true⟩], 1⟩, ⟨[⟨true, 1, true⟩], 1⟩] =
        some pool ∧
      let events := [.getUnit true, .getUnit true, .freeUnitNextCycle 1, .processFreeUnits]
      Legal step Allowed ⟨pool, []⟩ events ∧
      let s := run step ⟨pool, []⟩ events
      (s.pool.getUnit true).map Prod.fst = some .noFreeFU ∧ s.pool.Capable true 1 ∧ s.pool.Free 1 ∧
        ¬ s.pool.Serves true := by
  refine ⟨_, rfl, by decide, rfl, ⟨_, rfl, rfl⟩, rfl, ?_⟩
  rintro ⟨r, pool', hget, -, -, hrefused⟩
  have hr : r = .noFreeFU := by
    cases hget
    rfl
  exact (hrefused.mp hr).2 1 ⟨_, rfl, rfl⟩ rfl

end

end Gem5Core.O3.FuPool
