import Gem5Core.Lib.RingHistory
import Gem5Core.Lib.RotateMix
import Gem5Core.ValuePred.MarkovLVP

/-! The context hash as a function of the strides it mixes in. At the depths of the sweep in
`jobs.py` the rotations repeat, and strides 64 places apart can be exchanged or cancel. -/
namespace Gem5Core.ValuePred.ContextHash
open Base.IntMath MarkovLVP Lib.RingHistory Lib.RotateMix BitVec

def visited (depth writePtr : Nat) (strides : List Word) (i : Nat) : Word :=
  strides.getD (contextSlot depth writePtr i) 0

def newest (depth writePtr : Nat) (strides : List Word) (i : Nat) : Word :=
  strides.getD (slot depth writePtr i) 0

def strideHash (depth : Nat) (pc : Addr) (s : Nat → Word) : Word :=
  mix 5 (fun i => s i * 2654435761#64) (pc ^^^ (pc >>> 32)) depth

theorem contextHash_eq_strideHash (depth writePtr : Nat) (strides : List Word) (pc : Addr) :
    contextHash depth writePtr strides pc =
      strideHash depth pc (visited depth writePtr strides) := rfl

theorem contextSlot_eq_slot {depth writePtr : Nat} (h : writePtr + depth ≤ 2 ^ 32) (i : Nat)
    (hpos : 0 < depth) : contextSlot depth writePtr i = slot depth writePtr i := by
  unfold contextSlot slot
  rw [Nat.mod_eq_of_lt (b := 2 ^ 32) (by omega)]

theorem contextSlot_eq {depth writePtr i : Nat} (hd : depth < 2 ^ 32) (hw : writePtr < depth)
    (hi : i < depth) :
    contextSlot depth writePtr i =
      if i + 2 ^ 32 < writePtr + depth then writePtr + depth - 1 - i - 2 ^ 32
      else slot depth writePtr i := by
  unfold contextSlot slot
  split
  · have hrest : (writePtr + depth - 1 - i) % 2 ^ 32 = writePtr + depth - 1 - i - 2 ^ 32 := by omega
    rw [hrest, Nat.mod_eq_of_lt (by omega)]
  · rw [Nat.mod_eq_of_lt (b := 2 ^ 32) (by omega)]

/-- When the sum wraps, the slot of the newest stride is passed over. -/
theorem contextSlot_ne_newest {depth writePtr i : Nat} (hd : depth < 2 ^ 32)
    (hw : writePtr < depth) (hwrap : 2 ^ 32 < writePtr + depth) (hi : i < depth) :
    contextSlot depth writePtr i ≠ slot depth writePtr 0 := by
  have hnewest : slot depth writePtr 0 = writePtr - 1 := by
    rw [slot_eq hw (by omega), if_pos (by omega), Nat.sub_zero]
  rw [contextSlot_eq hd hw hi, slot_eq hw hi]
  split
  · omega
  · split <;> omega

theorem visited_eq_newest {depth writePtr : Nat} (h : writePtr + depth ≤ 2 ^ 32)
    (hpos : 0 < depth) (strides : List Word) :
    visited depth writePtr strides = newest depth writePtr strides := by
  funext i
  rw [visited, newest, contextSlot_eq_slot h i hpos]

theorem no_wrap {depth writePtr : Nat} (hd : depth ≤ 2 ^ 31) (hw : writePtr < depth) :
    writePtr + depth ≤ 2 ^ 32 := by
  omega

theorem strideHash_congr (depth : Nat) (pc : Addr) {s t : Nat → Word}
    (h : ∀ i < depth, s i = t i) : strideHash depth pc s = strideHash depth pc t := by
  apply List.foldl_ext
  intro x i hi
  dsimp only
  rw [h i (List.mem_range.mp hi)]

def contribution (depth : Nat) (s : Nat → Word) (i : Nat) : Word :=
  (s i * 2654435761#64).rotateLeft (5 * (depth - i) % 64)

theorem strideHash_eq (depth : Nat) (pc : Addr) (s : Nat → Word) :
    strideHash depth pc s =
      (pc ^^^ (pc >>> 32)).rotateLeft (5 * depth % 64) ^^^ xorSum (contribution depth s) depth := by
  rw [strideHash, mix_eq_xorSum, rotateLeft_mod_eq_rotateLeft]
  congr 1
  apply xorSum_congr
  intro i _
  rw [contribution, rotateLeft_mod_eq_rotateLeft]

theorem multiplier_injective {x y : Word} (h : x * 2654435761#64 = y * 2654435761#64) : x = y := by
  have hinv : (2654435761#64) * 14962265741255716689#64 = 1#64 := by decide
  have hback := congrArg (· * 14962265741255716689#64) h
  simpa only [BitVec.mul_assoc, hinv, BitVec.mul_one] using hback

private theorem contribution_injective {depth i : Nat} {s t : Nat → Word}
    (h : contribution depth s i = contribution depth t i) : s i = t i :=
  multiplier_injective (rotateLeft_injective _ h)

variable (pc : Addr)

theorem strideHash_replace {depth i : Nat} {s t : Nat → Word} (hi : i < depth)
    (h : ∀ j < depth, j ≠ i → t j = s j) :
    strideHash depth pc t =
      strideHash depth pc s ^^^ (contribution depth s i ^^^ contribution depth t i) := by
  have hsum : xorSum (contribution depth t) depth =
      xorSum (contribution depth s) depth ^^^ (contribution depth s i ^^^ contribution depth t i) :=
    xorSum_replace hi fun j hj hji => by rw [contribution, contribution, h j hj hji]
  rw [strideHash_eq, strideHash_eq, hsum, xor_assoc]

theorem strideHash_change {depth i : Nat} {s t : Nat → Word} (hi : i < depth) (hne : t i ≠ s i)
    (h : ∀ j < depth, j ≠ i → t j = s j) : strideHash depth pc t ≠ strideHash depth pc s := by
  intro heq
  rw [strideHash_replace pc hi h] at heq
  have hzero : contribution depth s i ^^^ contribution depth t i = 0#64 := by
    have hcancel := congrArg (strideHash depth pc s ^^^ ·) heq
    simpa [← xor_assoc] using hcancel
  exact hne (contribution_injective (BitVec.xor_eq_zero_iff.mp hzero)).symm

theorem strideHash_exchange {depth i j : Nat} {s t : Nat → Word} (hi : i < depth) (hj : j < depth)
    (hmod : i ≡ j [MOD 64]) (hij : t i = s j) (hji : t j = s i)
    (h : ∀ k < depth, k ≠ i → k ≠ j → t k = s k) :
    strideHash depth pc t = strideHash depth pc s := by
  have hround : 5 * (depth - i) % 64 = 5 * (depth - j) % 64 := by
    unfold Nat.ModEq at hmod
    omega
  have hsum : xorSum (contribution depth t) depth = xorSum (contribution depth s) depth := by
    apply xorSum_exchange hi hj
    · rw [contribution, contribution, hij, hround]
    · rw [contribution, contribution, hji, hround]
    · intro k hk hki hkj
      rw [contribution, contribution, h k hk hki hkj]
  rw [strideHash_eq, strideHash_eq, hsum]

private theorem strideHash_constant {depth : Nat} (hdvd : 128 ∣ depth) (x : Word) :
    strideHash depth pc (fun _ => x) = (pc ^^^ (pc >>> 32)).rotateLeft (5 * depth % 64) := by
  obtain ⟨m, rfl⟩ := hdvd
  have hzero : xorSum (contribution (128 * m) fun _ => x) (128 * m) = 0#64 := by
    apply xorSum_cancel 64 m
    intro i hi
    unfold contribution
    congr 1
    omega
  rw [strideHash_eq, hzero, xor_zero]

def rawHash (p : Params) (pc : Addr) (e : VHTEntry) : Word :=
  contextHash p.depth e.writePtr e.strides pc

def context (p : Params) (e : VHTEntry) : Nat → Word := newest p.depth e.writePtr e.strides

theorem hashContext_eq_rawHash (p : Params) (pc : Addr) (e : VHTEntry) :
    hashContext p pc e = ((rawHash p pc e).truncate 32 &&& (p.tableSize - 1)).toNat := rfl

theorem rawHash_eq_strideHash {p : Params} {e : VHTEntry} (hwrap : e.writePtr + p.depth ≤ 2 ^ 32) :
    rawHash p pc e = strideHash p.depth pc (context p e) := by
  rw [rawHash, contextHash_eq_strideHash, visited_eq_newest hwrap p.contextDepth_pos, context]

/-- The closed form of the context hash over the strides of the ring, newest
first, and three consequences: one changed stride always shows, strides 64 places
apart can be exchanged, and at depths divisible by 128 a constant stride does
not show at all. The consequences are symmetric in the two entries. -/
structure ClosedForm (p : Params) (pc : Addr) (e : VHTEntry) : Prop where
  form : rawHash p pc e = (pc ^^^ (pc >>> 32)).rotateLeft (5 * p.depth % 64) ^^^
    xorSum (fun i => (context p e i * 2654435761#64).rotateLeft (5 * (p.depth - i) % 64)) p.depth
  change : ∀ e' : VHTEntry, e'.writePtr ≤ e.writePtr →
    ∀ i < p.depth, context p e' i ≠ context p e i →
      (∀ j < p.depth, j ≠ i → context p e' j = context p e j) → rawHash p pc e' ≠ rawHash p pc e
  exchange : ∀ e' : VHTEntry, e'.writePtr ≤ e.writePtr →
    ∀ i < p.depth, ∀ j < p.depth, i ≡ j [MOD 64] →
      context p e' i = context p e j → context p e' j = context p e i →
      (∀ k < p.depth, k ≠ i → k ≠ j → context p e' k = context p e k) →
      rawHash p pc e' = rawHash p pc e
  constant : ∀ e' : VHTEntry, e'.writePtr ≤ e.writePtr → 128 ∣ p.depth → ∀ x x' : Word,
    (∀ i < p.depth, context p e i = x) → (∀ i < p.depth, context p e' i = x') →
    rawHash p pc e' = rawHash p pc e

private theorem closedForm {p : Params} {e : VHTEntry} (hwrap : e.writePtr + p.depth ≤ 2 ^ 32) :
    ClosedForm p pc e := by
  have hhash (e' : VHTEntry) (hle : e'.writePtr ≤ e.writePtr) :
      rawHash p pc e' = strideHash p.depth pc (context p e') :=
    rawHash_eq_strideHash pc (by omega)
  have hself := hhash e le_rfl
  constructor
  · rw [hself]
    exact strideHash_eq p.depth pc (context p e)
  · intro e' hle i hi hne h
    rw [hself, hhash e' hle]
    exact strideHash_change pc hi hne h
  · intro e' hle i hi j hj hmod hij hji h
    rw [hself, hhash e' hle]
    exact strideHash_exchange pc hi hj hmod hij hji h
  · intro e' hle hdvd x x' hx hx'
    rw [hself, hhash e' hle, strideHash_congr p.depth pc hx, strideHash_congr p.depth pc hx',
      strideHash_constant pc hdvd, strideHash_constant pc hdvd]

def setNewest (p : Params) (e : VHTEntry) (x : Word) : VHTEntry :=
  { e with strides := e.strides.set (slot p.depth e.writePtr 0) x }

section

variable {p : Params} {e : VHTEntry}

theorem getD_setNewest (x : Word) {k : Nat} (hk : k ≠ slot p.depth e.writePtr 0) :
    (setNewest p e x).strides.getD k 0 = e.strides.getD k 0 := by
  rw [setNewest, List.getD_eq_getElem?_getD, List.getElem?_set_ne hk.symm,
    List.getD_eq_getElem?_getD]

variable (hw : e.writePtr < p.depth)
include hw

theorem context_setNewest_zero (hlen : e.strides.length = p.depth) (x : Word) :
    context p (setNewest p e x) 0 = x := by
  rw [context, newest, setNewest, List.getD_eq_getElem _ _ (by
    rw [List.length_set, hlen]
    exact slot_lt hw 0), List.getElem_set_self]

theorem context_setNewest_ne (x : Word) {j : Nat} (hj : j < p.depth) (h0 : j ≠ 0) :
    context p (setNewest p e x) j = context p e j :=
  getD_setNewest x fun h => h0 (slot_injective hw hj (by omega) h)

theorem rawHash_setNewest (hwrap : 2 ^ 32 < e.writePtr + p.depth) (x : Word) (pc : Addr) :
    rawHash p pc (setNewest p e x) = rawHash p pc e := by
  apply strideHash_congr
  intro i hi
  exact getD_setNewest x (contextSlot_ne_newest p.depth_lt hw hwrap hi)

end

/-- The closed form holds of a ring exactly when the sum of its write pointer and the depth does not
wrap. -/
theorem hash_closed_form (p : Params) (pc : Addr) (e : VHTEntry)
    (hlen : e.strides.length = p.depth) (hw : e.writePtr < p.depth) :
    ClosedForm p pc e ↔ e.writePtr + p.depth ≤ 2 ^ 32 := by
  refine ⟨fun h => ?_, closedForm pc⟩
  by_contra hwrap
  -- the newest stride is not read, so that a change of it does not show
  refine h.change (setNewest p e (context p e 0 + 1)) le_rfl 0 (by omega) ?_ ?_
    (rawHash_setNewest hw (by omega) _ pc)
  · rw [context_setNewest_zero hw hlen]
    simp
  · intro j hj h0
    exact context_setNewest_ne hw _ hj h0

/-- Two rings of two strides that differ in the newest one, and two constant rings of 128. -/
theorem hash_closed_form_rings :
    let two := Params.defaults.withDepth 2 (by decide)
    let many := Params.defaults.withDepth 128 (by decide)
    rawHash two 64 { strides := [8, 3], writePtr := 1 } ≠
      rawHash two 64 { strides := [7, 3], writePtr := 1 } ∧
    rawHash many 64 { strides := List.replicate 128 5, writePtr := 9 } =
      rawHash many 64 { strides := List.replicate 128 4, writePtr := 70 } := by
  refine ⟨?_, ?_⟩
  · exact ((hash_closed_form _ 64 _ (by decide) (by decide)).mpr (by decide)).change _ le_rfl 0
      (by decide) (by decide) (by decide)
  · exact ((hash_closed_form _ 64 _ List.length_replicate (by decide)).mpr (by decide)).constant _
      (by decide) (by decide) 4 5 (by decide +kernel) (by decide +kernel)

/-- A depth at which the `unsigned` sum wraps, once in each turn of the ring. -/
def deep : Params where
  tableSize := 2
  contextDepth := 2147483649
  confThreshold := 1
  maxConf := 1
  tableSize_pow := by decide
  contextDepth_pos := by decide

theorem deep_depth : deep.depth = 2 ^ 31 + 1 := rfl

theorem contextSlot_deep {i : Nat} (hi : i < 2 ^ 31 + 1) :
    contextSlot (2 ^ 31 + 1) (2 ^ 31) i = if i = 0 then 0 else slot (2 ^ 31 + 1) (2 ^ 31) i := by
  rw [contextSlot_eq (by omega) (by omega) hi]
  split <;> split <;> omega

/-- Two rings that differ in the newest stride only, and hash alike. -/
theorem newest_stride_not_hashed :
    ∃ e e' : VHTEntry, e.strides.length = deep.depth ∧ e'.strides.length = deep.depth ∧
      e.writePtr < deep.depth ∧ e'.writePtr < deep.depth ∧
      context deep e' 0 ≠ context deep e 0 ∧
      (∀ j < deep.depth, j ≠ 0 → context deep e' j = context deep e j) ∧
      ∀ pc, rawHash deep pc e' = rawHash deep pc e := by
  let zeros : VHTEntry := { strides := List.replicate deep.depth 0, writePtr := 2 ^ 31 }
  have hlen : zeros.strides.length = deep.depth := List.length_replicate
  have hw : zeros.writePtr < deep.depth := by decide
  have hwrap : 2 ^ 32 < zeros.writePtr + deep.depth := by decide
  have hset : (setNewest deep zeros 1).strides.length = deep.depth := by
    rw [setNewest, List.length_set, hlen]
  refine ⟨zeros, setNewest deep zeros 1, hlen, hset, hw, hw, ?_,
    fun j hj h0 => context_setNewest_ne hw 1 hj h0, rawHash_setNewest hw hwrap 1⟩
  have hzero : context deep zeros 0 = 0 := by
    rw [context, newest, List.getD_replicate _ (slot_lt hw 0)]
  rw [context_setNewest_zero hw hlen, hzero]
  decide

end Gem5Core.ValuePred.ContextHash
