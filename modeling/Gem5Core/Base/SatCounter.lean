import Mathlib.Algebra.Group.Int.Defs
import Mathlib.Algebra.GroupWithZero.Nat
import Mathlib.Order.Lattice
import Gem5Core.Lib.Protocol

/-! The saturating counters of `base/sat_counter.hh`. The container `T` is an unsigned
type of `w` bits; its operators run in the types that the language promotes to. -/
namespace Gem5Core.Base.SatCounter
open Lib.Protocol BitVec

structure GenericSatCounter (w : Nat) where
  initialVal : BitVec w
  maxVal : BitVec w
  counter : BitVec w
deriving DecidableEq

/-- `none` where the constructor is fatal. `1ULL << 64` is undefined; the machine takes the count
modulo 64. -/
def construct {w : Nat} (bits : Nat) (initial_val : BitVec w) : Option (GenericSatCounter w) :=
  let maxVal := ((1#64 <<< (bits % 64)) - 1).setWidth w
  if bits > w then none
  else if initial_val > maxVal then none
  else some { initialVal := initial_val, maxVal, counter := initial_val }

/-- A difference of two `T`s, taken on `int` where `T` is narrower. -/
def minus {w : Nat} (a b : BitVec w) : Int :=
  if w < 32 then (a.toNat : Int) - b.toNat else (a - b).toNat

/-- What a `long long` is compared as with a `T`: unsigned where `T` is as wide. -/
def besides (w : Nat) (value : Int) : Int := if w = 64 then value % 2 ^ 64 else value

namespace GenericSatCounter

variable {w : Nat} (c : GenericSatCounter w)

def increment : GenericSatCounter w :=
  if c.counter < c.maxVal then { c with counter := c.counter + 1 } else c

def decrement : GenericSatCounter w :=
  if c.counter > 0 then { c with counter := c.counter - 1 } else c

def shiftRight (shift : Nat) : GenericSatCounter w := { c with counter := c.counter >>> shift }

def shiftLeft (shift : Nat) : GenericSatCounter w :=
  let c := { c with counter := c.counter <<< shift }
  if c.counter > c.maxVal then { c with counter := c.maxVal } else c

def addNonneg (value : Int) : GenericSatCounter w :=
  if minus c.maxVal c.counter ≥ besides w value then
    { c with counter := c.counter + BitVec.ofInt w value }
  else { c with counter := c.maxVal }

def subNonneg (value : Int) : GenericSatCounter w :=
  if (c.counter.toNat : Int) > besides w value then
    { c with counter := c.counter - BitVec.ofInt w value }
  else { c with counter := 0 }

def addAssign (value : Int) : GenericSatCounter w :=
  if value ≥ 0 then c.addNonneg value else c.subNonneg (-value)

def subAssign (value : Int) : GenericSatCounter w :=
  if value ≥ 0 then c.subNonneg value else c.addNonneg (-value)

end GenericSatCounter

inductive Op where
  | inc
  | dec
  | add (value : Int)
  | sub (value : Int)
  | shl (shift : Nat)
  | shr (shift : Nat)

/-- The arguments of an operator: a `long long` that can be negated, or a shift below the width. -/
def Op.InRange (w : Nat) : Op → Prop
  | .inc | .dec => True
  | .add value | .sub value => -2 ^ 63 < value ∧ value < 2 ^ 63
  | .shl shift | .shr shift => shift < w

def step {w : Nat} (c : GenericSatCounter w) : Op → GenericSatCounter w
  | .inc => c.increment
  | .dec => c.decrement
  | .add value => c.addAssign value
  | .sub value => c.subAssign value
  | .shl shift => c.shiftLeft shift
  | .shr shift => c.shiftRight shift

def clamp (bits : Nat) (x : Int) : Int := max 0 (min x (2 ^ bits - 1))

def unbounded (x : Int) : Op → Int
  | .inc => x + 1
  | .dec => x - 1
  | .add value => x + value
  | .sub value => x - value
  | .shl shift => x * 2 ^ shift
  | .shr shift => x / 2 ^ shift

def saturating (bits : Nat) (x : Int) (op : Op) : Int := clamp bits (unbounded x op)

/-- A shift to the left loses no bit of the container, or those that are left still
saturate the counter. -/
def Keeps {w : Nat} (c : GenericSatCounter w) : Op → Prop
  | .shl shift => c.counter.toNat * 2 ^ shift < 2 ^ w ∨
      c.maxVal.toNat ≤ c.counter.toNat * 2 ^ shift % 2 ^ w
  | _ => True

structure Holds {w : Nat} (bits : Nat) (c : GenericSatCounter w) : Prop where
  fits : bits ≤ w
  maxVal : c.maxVal.toNat = 2 ^ bits - 1
  counter : c.counter.toNat ≤ 2 ^ bits - 1

section
variable {bits : Nat} {x : Int}

theorem clamp_of_le (hlow : 0 ≤ x) (hhigh : x ≤ 2 ^ bits - 1) : clamp bits x = x := by
  rw [clamp, min_eq_left hhigh, max_eq_right hlow]

theorem clamp_of_nonpos (h : x ≤ 0) : clamp bits x = 0 :=
  max_eq_left (le_trans (min_le_left _ _) h)

theorem clamp_of_ge (h : 2 ^ bits - 1 ≤ x) : clamp bits x = 2 ^ bits - 1 := by
  have hpos : (0 : Int) < 2 ^ bits := Int.pow_pos (by decide)
  rw [clamp, min_eq_right h, max_eq_right (by omega)]

end

variable {value : Int}

section
variable {w bits : Nat} {c : GenericSatCounter w}

theorem besides_of_nonneg (hlow : 0 ≤ value) (hhigh : value < 2 ^ 63) :
    besides w value = value := by
  unfold besides
  split
  · exact Int.emod_eq_of_lt hlow (by omega)
  · rfl

theorem toNat_ofInt_of_lt (hlow : 0 ≤ value) (hhigh : value.toNat < 2 ^ w) :
    (BitVec.ofInt w value).toNat = value.toNat := by
  have hcast : value < ((2 ^ w : Nat) : Int) := by omega
  rw [toNat_ofInt, Int.emod_eq_of_lt hlow hcast]

namespace Holds

section

variable (h : Holds bits c)
include h

theorem max_eq : (c.maxVal.toNat : Int) = 2 ^ bits - 1 := by
  have hpos := Nat.two_pow_pos bits
  have hcast : ((2 ^ bits : Nat) : Int) = 2 ^ bits := by simp
  have hmax := h.maxVal
  omega

theorem minus_eq : minus c.maxVal c.counter = (c.maxVal.toNat : Int) - c.counter.toNat := by
  unfold minus
  split
  · rfl
  · have hle : c.counter ≤ c.maxVal := by
      rw [le_def, h.maxVal]
      exact h.counter
    rw [toNat_sub_of_le hle]
    have := le_def.mp hle
    omega

theorem increment : (c.increment.counter.toNat : Int) = clamp bits (c.counter.toNat + 1) := by
  have hmax := h.max_eq
  unfold GenericSatCounter.increment
  split
  · rename_i hlt
    have hlt' : c.counter.toNat < c.maxVal.toNat := hlt
    rw [clamp_of_le (by omega) (by omega)]
    simp only [toNat_add, ofNat_eq_ofNat, toNat_ofNat, Nat.add_mod_mod]
    rw [Nat.mod_eq_of_lt (by omega)]
    rfl
  · rename_i hge
    have hge' : ¬c.counter.toNat < c.maxVal.toNat := hge
    have hle := h.counter
    rw [← h.maxVal] at hle
    rw [clamp_of_ge (by omega)]
    omega

theorem decrement : (c.decrement.counter.toNat : Int) = clamp bits (c.counter.toNat - 1) := by
  have hmax := h.max_eq
  have hle := h.counter
  rw [← h.maxVal] at hle
  unfold GenericSatCounter.decrement
  split
  · rename_i hpos
    have hpos' : (0#w).toNat < c.counter.toNat := hpos
    have hone : (1#w).toNat = 1 := by
      exact Nat.mod_eq_of_lt (by omega)
    have hle' : 1#w ≤ c.counter := by
      rw [le_def, hone]
      exact hpos'
    rw [clamp_of_le (by omega) (by omega)]
    simp only [ofNat_eq_ofNat]
    rw [toNat_sub_of_le hle']
    omega
  · rename_i hzero
    have hzero' : ¬(0#w).toNat < c.counter.toNat := hzero
    rw [toNat_ofNat, Nat.zero_mod] at hzero'
    rw [clamp_of_nonpos (by omega)]
    omega

theorem addNonneg (hlow : 0 ≤ value) (hhigh : value < 2 ^ 63) :
    ((c.addNonneg value).counter.toNat : Int) = clamp bits (c.counter.toNat + value) := by
  have hmax := h.max_eq
  unfold GenericSatCounter.addNonneg
  rw [h.minus_eq, besides_of_nonneg hlow hhigh]
  split
  · rename_i hfits
    have hvalue := toNat_ofInt_of_lt hlow (w := w) (by omega)
    rw [clamp_of_le (by omega) (by omega)]
    rw [toNat_add, Nat.mod_eq_of_lt (by omega)]
    omega
  · rw [clamp_of_ge (by omega)]
    exact hmax

theorem subNonneg (hlow : 0 ≤ value) (hhigh : value < 2 ^ 63) :
    ((c.subNonneg value).counter.toNat : Int) = clamp bits (c.counter.toNat - value) := by
  have hmax := h.max_eq
  have hle := h.counter
  rw [← h.maxVal] at hle
  unfold GenericSatCounter.subNonneg
  rw [besides_of_nonneg hlow hhigh]
  split
  · rename_i hgt
    have hvalue := toNat_ofInt_of_lt hlow (w := w) (by omega)
    rw [clamp_of_le (by omega) (by omega)]
    rw [toNat_sub_of_le]
    · omega
    · rw [le_def]
      omega
  · rw [clamp_of_nonpos (by omega)]
    simp

private theorem addAssign (hlow : -2 ^ 63 < value) (hhigh : value < 2 ^ 63) :
    ((c.addAssign value).counter.toNat : Int) = clamp bits (c.counter.toNat + value) := by
  unfold GenericSatCounter.addAssign
  split
  · exact h.addNonneg (by omega) hhigh
  · rw [h.subNonneg (by omega) (by omega), Int.sub_neg]

private theorem subAssign (hlow : -2 ^ 63 < value) (hhigh : value < 2 ^ 63) :
    ((c.subAssign value).counter.toNat : Int) = clamp bits (c.counter.toNat - value) := by
  unfold GenericSatCounter.subAssign
  split
  · exact h.subNonneg (by omega) hhigh
  · rw [h.addNonneg (by omega) (by omega), ← Int.sub_eq_add_neg]

private theorem shiftRight (shift : Nat) :
    ((c.shiftRight shift).counter.toNat : Int) = clamp bits (c.counter.toNat / 2 ^ shift) := by
  have hmax := h.max_eq
  have hle := h.counter
  rw [← h.maxVal] at hle
  have hdiv : ((c.counter.toNat / 2 ^ shift : Nat) : Int) ≤ c.maxVal.toNat :=
    Int.ofNat_le.mpr ((Nat.div_le_self _ _).trans hle)
  have hcast : (c.counter.toNat : Int) / 2 ^ shift = (c.counter.toNat / 2 ^ shift : Nat) := by simp
  rw [hcast, clamp_of_le (Int.natCast_nonneg _) (hmax ▸ hdiv), GenericSatCounter.shiftRight]
  simp [Nat.shiftRight_eq_div_pow]

end

theorem toNat_shiftLeft (c : GenericSatCounter w) (shift : Nat) :
    (c.shiftLeft shift).counter.toNat =
      min (c.counter.toNat * 2 ^ shift % 2 ^ w) c.maxVal.toNat := by
  have hshift : (c.counter <<< shift).toNat = c.counter.toNat * 2 ^ shift % 2 ^ w := by
    rw [BitVec.toNat_shiftLeft, Nat.shiftLeft_eq]
  unfold GenericSatCounter.shiftLeft
  dsimp only
  split
  · rename_i hgt
    have hgt' : c.maxVal.toNat < (c.counter <<< shift).toNat := hgt
    rw [min_eq_right (by omega)]
  · rename_i hle
    have hle' : ¬c.maxVal.toNat < (c.counter <<< shift).toNat := hle
    rw [min_eq_left (by omega), hshift]

theorem shiftLeft_iff (h : Holds bits c) (shift : Nat) :
    ((c.shiftLeft shift).counter.toNat : Int) = clamp bits (c.counter.toNat * 2 ^ shift) ↔
      Keeps c (.shl shift) := by
  have hmax := h.max_eq
  have hcast : (c.counter.toNat : Int) * 2 ^ shift = (c.counter.toNat * 2 ^ shift : Nat) := by simp
  rw [toNat_shiftLeft, hcast, Keeps]
  generalize c.counter.toNat * 2 ^ shift = x
  by_cases hlt : x < 2 ^ w
  · rw [Nat.mod_eq_of_lt hlt]
    refine iff_of_true ?_ (.inl hlt)
    by_cases hle : x ≤ c.maxVal.toNat
    · rw [min_eq_left hle, clamp_of_le (by omega) (by omega)]
    · rw [min_eq_right (by omega), clamp_of_ge (by omega), hmax]
  · rw [clamp_of_ge (by omega)]
    constructor
    · intro heq
      right
      omega
    · intro hkeeps
      rcases hkeeps with hkeeps | hkeeps
      · exact absurd hkeeps hlt
      · rw [min_eq_right hkeeps, hmax]

theorem step_iff (h : Holds bits c) {op : Op} (hop : op.InRange w) :
    ((step c op).counter.toNat : Int) = saturating bits c.counter.toNat op ↔ Keeps c op := by
  cases op with
  | inc => exact iff_of_true h.increment trivial
  | dec => exact iff_of_true h.decrement trivial
  | add value => exact iff_of_true (h.addAssign hop.1 hop.2) trivial
  | sub value => exact iff_of_true (h.subAssign hop.1 hop.2) trivial
  | shl shift => exact h.shiftLeft_iff shift
  | shr shift => exact iff_of_true (h.shiftRight shift) trivial

theorem step_maxVal (c : GenericSatCounter w) (op : Op) : (step c op).maxVal = c.maxVal := by
  cases op with
  | inc => rw [step, GenericSatCounter.increment]; split <;> rfl
  | dec => rw [step, GenericSatCounter.decrement]; split <;> rfl
  | add value =>
    rw [step, GenericSatCounter.addAssign, GenericSatCounter.addNonneg,
      GenericSatCounter.subNonneg]
    repeat' split
    all_goals rfl
  | sub value =>
    rw [step, GenericSatCounter.subAssign, GenericSatCounter.addNonneg,
      GenericSatCounter.subNonneg]
    repeat' split
    all_goals rfl
  | shl shift => rw [step, GenericSatCounter.shiftLeft]; dsimp only; split <;> rfl
  | shr shift => rfl

private theorem clamp_le (bits : Nat) (x : Int) : clamp bits x ≤ 2 ^ bits - 1 := by
  have hpos : (0 : Int) < 2 ^ bits := Int.pow_pos (by decide)
  exact max_le (by omega) (min_le_right _ _)

private theorem step (h : Holds bits c) {op : Op} (hop : op.InRange w) :
    Holds bits (SatCounter.step c op) := by
  refine ⟨h.fits, by rw [step_maxVal, h.maxVal], ?_⟩
  rw [← h.maxVal]
  by_cases hkeeps : Keeps c op
  · have heq := (h.step_iff hop).mpr hkeeps
    have hle := clamp_le bits (unbounded c.counter.toNat op)
    rw [← h.max_eq] at hle
    rw [saturating] at heq
    omega
  · cases op with
    | shl shift =>
      change (c.shiftLeft shift).counter.toNat ≤ _
      rw [toNat_shiftLeft]
      exact min_le_right _ _
    | _ => exact absurd trivial hkeeps

end Holds

theorem holds_of_construct {initial : BitVec w} (hbits : bits < 64)
    (hc : construct bits initial = some c) : Holds bits c ∧ c.counter = initial := by
  unfold construct at hc
  dsimp only at hc
  split at hc
  · cases hc
  · rename_i hfits
    split at hc
    · cases hc
    · rename_i hinitial
      have hone : (1#64 <<< (bits % 64)).toNat = 2 ^ bits := by
        rw [Nat.mod_eq_of_lt hbits, toNat_shiftLeft, toNat_ofNat, Nat.shiftLeft_eq]
        have hlt := Nat.pow_lt_pow_right (a := 2) (by decide) hbits
        rw [Nat.one_mul, Nat.mod_eq_of_lt hlt]
      have hmax : (((1#64 <<< (bits % 64)) - 1).setWidth w).toNat = 2 ^ bits - 1 := by
        have hpos := Nat.two_pow_pos bits
        have hle := Nat.pow_le_pow_right (n := 2) (by decide) (Nat.le_of_not_lt hfits)
        rw [toNat_setWidth, toNat_sub_of_le, hone]
        · exact Nat.mod_eq_of_lt (by simp; omega)
        · rw [le_def, hone]
          exact hpos
      cases hc
      refine ⟨⟨Nat.le_of_not_lt hfits, hmax, ?_⟩, rfl⟩
      rw [← hmax]
      exact Nat.le_of_not_lt hinitial

end

section
variable {w bits : Nat}

theorem run_iff (ops : List Op) (hops : ∀ op ∈ ops, op.InRange w) {c : GenericSatCounter w}
    (h : Holds bits c) :
    (∀ earlier, earlier <+: ops → ((run step c earlier).counter.toNat : Int) =
      run (saturating bits) c.counter.toNat earlier) ↔ Legal step Keeps c ops := by
  induction ops generalizing c with
  | nil =>
    refine iff_of_true ?_ trivial
    intro earlier hprefix
    rw [List.prefix_nil.mp hprefix]
    rfl
  | cons op ops ih =>
    have hop := hops op List.mem_cons_self
    have hrest := ih (fun op hop => hops op (List.mem_cons_of_mem _ hop)) (h.step hop)
    constructor
    · intro hall
      have hfirst : ((step c op).counter.toNat : Int) = saturating bits c.counter.toNat op :=
        hall [op] ⟨ops, rfl⟩
      refine ⟨(h.step_iff hop).mp hfirst, hrest.mp ?_⟩
      intro earlier hprefix
      have hlater := hall (op :: earlier) (List.cons_prefix_cons.mpr ⟨rfl, hprefix⟩)
      rw [run_cons, run_cons] at hlater
      rw [hlater, hfirst]
    · rintro ⟨hkeeps, hlegal⟩ earlier hprefix
      have hfirst := (h.step_iff hop).mpr hkeeps
      cases earlier with
      | nil => rfl
      | cons op' earlier =>
        obtain ⟨rfl, hrestPrefix⟩ := List.cons_prefix_cons.mp hprefix
        rw [run_cons, run_cons, hrest.mpr hlegal earlier hrestPrefix, hfirst]

end

/-- A counter of fewer than 64 bits in a container of any width: after every one of the
operations it has the value of saturating arithmetic if and only if no shift to the left
loses bits that matter. -/
theorem counter_saturates {w bits : Nat} (hbits : bits < 64) {initial : BitVec w}
    {c : GenericSatCounter w} (hc : construct bits initial = some c) (ops : List Op)
    (hops : ∀ op ∈ ops, op.InRange w) :
    (∀ earlier, earlier <+: ops → ((run step c earlier).counter.toNat : Int) =
      run (saturating bits) initial.toNat earlier) ↔ Legal step Keeps c ops := by
  obtain ⟨h, rfl⟩ := holds_of_construct hbits hc
  exact run_iff ops hops h

/-- A counter of six bits in a byte: nothing is lost. -/
theorem counter_saturates_byte :
    construct 6 (40 : BitVec 8) = some ⟨40, 63, 40⟩ ∧
      ((run step (⟨40, 63, 40⟩ : GenericSatCounter 8)
        [.shl 1, .sub 70, .inc]).counter.toNat : Int) =
          run (saturating 6) 40 [.shl 1, .sub 70, .inc] := by
  have hc : construct 6 (40 : BitVec 8) = some ⟨40, 63, 40⟩ := by decide
  have hops : ∀ op ∈ [Op.shl 1, Op.sub 70, Op.inc], op.InRange 8 := by
    simp [Op.InRange]
  refine ⟨hc, (counter_saturates (by decide) hc _ hops).mpr ?_ _ (List.prefix_refl _)⟩
  refine ⟨Or.inl (by decide), trivial, trivial, trivial⟩

/-- The sign bit of a byte is shifted out before the counter is compared, and a counter of
64 bits has no value but 0. -/
theorem counter_not_saturating :
    construct 8 (128 : BitVec 8) = some ⟨128, 255, 128⟩ ∧
      ((step (⟨128, 255, 128⟩ : GenericSatCounter 8) (.shl 1)).counter.toNat : Int) = 0 ∧
      saturating 8 128 (.shl 1) = 255 ∧
      construct 64 (0 : BitVec 64) = some ⟨0, 0, 0⟩ ∧
      ((step (⟨0, 0, 0⟩ : GenericSatCounter 64) .inc).counter.toNat : Int) = 0 ∧
      saturating 64 0 .inc = 1 := by
  decide

end Gem5Core.Base.SatCounter
