import Gem5Core.Lib.Protocol
import Gem5Core.Lib.RingWindow

/-! The queue of `base/circular_queue.hh`: a head index and a size, both `size_t`, over a vector. It
refines a list that is cut to the capacity at its front. -/
namespace Gem5Core.Base
open Lib.Protocol Lib.Indexed Lib.RingWindow BitVec

abbrev SizeT := BitVec 64

/-- `data` is given by the number of the slot. -/
structure CircularQueue (T : Type) where
  data : Nat → T
  _capacity : SizeT
  _size : SizeT := 0
  _head : SizeT := 1

namespace CircularQueue

variable {T : Type}

section
variable (q : CircularQueue T)

def slot (index : SizeT) : Nat := (index % q._capacity).toNat

def get (index : SizeT) : T := q.data (q.slot index)

def set (index : SizeT) (val : T) : CircularQueue T :=
  { q with data := Function.update q.data (q.slot index) val }

def isValidIdx (idx : SizeT) : Bool := q._head ≤ idx && idx < q._head + q._size

def tail : SizeT := q._head + q._size - 1

def empty : Bool := q._size == 0

def full : Bool := q._size == q._capacity

def flush : CircularQueue T := { q with _head := 1, _size := 0 }

def popFront (num_elem : SizeT) : CircularQueue T :=
  { q with _head := q._head + num_elem, _size := q._size - num_elem }

def popBack : CircularQueue T := { q with _size := q._size - 1 }

def advanceTail : CircularQueue T :=
  if q.full then { q with _head := q._head + 1 } else { q with _size := q._size + 1 }

def advanceTailBy (len : SizeT) : CircularQueue T :=
  let remaining := q._capacity - q._size
  if len > remaining then
    let overflow := len - remaining
    { q with _head := q._head + overflow, _size := q._size + (len - overflow) }
  else { q with _size := q._size + len }

def pushBack (val : T) : CircularQueue T :=
  let q := q.advanceTail
  q.set q.tail val

end

inductive Op (T : Type) where
  | pushBack (val : T)
  | popFront (num_elem : SizeT)
  | popBack
  | advanceTail
  | advanceTailBy (len : SizeT)
  | flush

def step (q : CircularQueue T) : Op T → CircularQueue T
  | .pushBack val => q.pushBack val
  | .popFront num_elem => q.popFront num_elem
  | .popBack => q.popBack
  | .advanceTail => q.advanceTail
  | .advanceTailBy len => q.advanceTailBy len
  | .flush => q.flush

def Asserts (q : CircularQueue T) : Op T → Prop
  | .popFront num_elem => num_elem ≤ q._size
  | .popBack => q.empty = false
  | _ => True

instance (q : CircularQueue T) (op : Op T) : Decidable (Asserts q op) := by
  cases op <;> dsimp only [Asserts] <;> infer_instance

def Op.advance : Op T → Nat
  | .pushBack _ | .advanceTail => 1
  | .advanceTailBy len => len.toNat
  | _ => 0

/-- The index behind the tail does not wrap around. -/
def Fits (q : CircularQueue T) (op : Op T) : Prop :=
  q._head.toNat + q._size.toNat + op.advance < 2 ^ 64

instance (q : CircularQueue T) (op : Op T) : Decidable (Fits q op) :=
  inferInstanceAs (Decidable (q._head.toNat + q._size.toNat + op.advance < 2 ^ 64))

def construct (data : Nat → T) (size : SizeT) : CircularQueue T := { data, _capacity := size }

structure Bounded (T : Type) where
  head : Nat
  items : List T

/-- The oldest elements are dropped where the list grows over the capacity. -/
def Bounded.append (capacity : Nat) (b : Bounded T) (new : List T) : Bounded T :=
  let overflow := b.items.length + new.length - capacity
  { head := b.head + overflow, items := (b.items ++ new).drop overflow }

/-- What an operation does to the list. Nothing is said about the elements that
`advance_tail` makes valid. -/
def Moves (capacity : Nat) (b b' : Bounded T) : Op T → Prop
  | .pushBack val => b' = b.append capacity [val]
  | .popFront num_elem => b' = ⟨b.head + num_elem.toNat, b.items.drop num_elem.toNat⟩
  | .popBack => b' = ⟨b.head, b.items.dropLast⟩
  | .advanceTail => ∃ val, b' = b.append capacity [val]
  | .advanceTailBy len => ∃ new : List T, new.length = len.toNat ∧ b' = b.append capacity new
  | .flush => b' = ⟨1, []⟩

inductive Behaves (capacity : Nat) : Bounded T → List (Op T) → Bounded T → Prop
  | nil (b : Bounded T) : Behaves capacity b [] b
  | cons {b b' b'' : Bounded T} {op : Op T} {ops : List (Op T)} (move : Moves capacity b b' op)
      (rest : Behaves capacity b' ops b'') : Behaves capacity b (op :: ops) b''

def view (q : CircularQueue T) : Bounded T :=
  ⟨q._head.toNat, window q.data q._capacity.toNat q._head.toNat q._size.toNat⟩

structure Wf (q : CircularQueue T) : Prop where
  capacity : 0 < q._capacity.toNat
  size : q._size.toNat ≤ q._capacity.toNat
  fits : q._head.toNat + q._size.toNat < 2 ^ 64

section
variable {q : CircularQueue T}

theorem toNat_slot (q : CircularQueue T) (index : SizeT) :
    q.slot index = index.toNat % q._capacity.toNat := toNat_umod

theorem Wf.advanceTailBy_toNat (h : Wf q) {len : SizeT}
    (hfits : q._head.toNat + q._size.toNat + len.toNat < 2 ^ 64) :
    let overflow := q._size.toNat + len.toNat - q._capacity.toNat
    (q.advanceTailBy len)._head.toNat = q._head.toNat + overflow ∧
      (q.advanceTailBy len)._size.toNat = q._size.toNat + len.toNat - overflow := by
  have hsize := h.size
  have hremaining : (q._capacity - q._size).toNat = q._capacity.toNat - q._size.toNat :=
    toNat_sub_of_le hsize
  unfold CircularQueue.advanceTailBy
  dsimp only
  split
  · rename_i hgt
    have hgt' : (q._capacity - q._size).toNat < len.toNat := hgt
    have hoverflow : (len - (q._capacity - q._size)).toNat =
        q._size.toNat + len.toNat - q._capacity.toNat := by
      rw [toNat_sub_of_le hgt'.le]
      omega
    have hlen : (len - (len - (q._capacity - q._size))).toNat =
        q._capacity.toNat - q._size.toNat := by
      rw [toNat_sub_of_le]
      · omega
      · rw [le_def]
        omega
    rw [toNat_add, toNat_add, hoverflow, hlen, Nat.mod_eq_of_lt (by omega)]
    omega
  · rename_i hle
    have hle' : ¬(q._capacity - q._size).toNat < len.toNat := hle
    dsimp only
    rw [toNat_add]
    omega

section

variable (hsize : q._size ≤ q._capacity)
include hsize

theorem advanceTail_advanceTailBy {k : SizeT} (hk : k.toNat + 1 < 2 ^ 64) :
    (q.advanceTailBy k).advanceTail = q.advanceTailBy (k + 1) := by
  unfold advanceTail advanceTailBy full
  obtain ⟨data, capacity, size, head⟩ := q
  by_cases hlt : k < capacity - size
  · have hle : ¬k > capacity - size := by bv_omega
    have hle' : ¬k + 1 > capacity - size := by bv_omega
    have hne : (size + k == capacity) = false := by
      rw [beq_eq_false_iff_ne]
      bv_omega
    simp only [hle, hle', hne, ↓reduceIte, Bool.false_eq_true, BitVec.add_assoc]
  · have hgt : k + 1 > capacity - size := by bv_omega
    by_cases heq : k = capacity - size
    · have hle : ¬k > capacity - size := by bv_omega
      have hfull : (size + k == capacity) = true := by
        rw [beq_iff_eq]
        bv_omega
      simp only [hle, hgt, hfull, ↓reduceIte]
      congr 1 <;> bv_omega
    · have hgt' : k > capacity - size := by bv_omega
      have hfull : (size + (k - (k - (capacity - size))) == capacity) = true := by
        rw [beq_iff_eq]
        bv_omega
      simp only [hgt', hgt, hfull, ↓reduceIte]
      congr 1 <;> bv_omega

theorem advanceTailBy_eq (len : SizeT) : q.advanceTailBy len = advanceTail^[len.toNat] q := by
  have hsteps : ∀ k : Nat, k < 2 ^ 64 → q.advanceTailBy (BitVec.ofNat 64 k) = advanceTail^[k] q := by
    intro k
    induction k with
    | zero =>
      intro _
      have hle : ¬0#64 > q._capacity - q._size := BitVec.not_lt_zero
      rw [advanceTailBy, BitVec.add_zero]
      rfl
    | succ k ih =>
      intro hk
      have hk' : (BitVec.ofNat 64 k).toNat = k := by
        rw [BitVec.toNat_ofNat, Nat.mod_eq_of_lt (by omega)]
      rw [Function.iterate_succ_apply', ← ih (by omega),
        advanceTail_advanceTailBy hsize (by rw [hk']; exact hk), BitVec.ofNat_add]
      rfl
  rw [← hsteps len.toNat len.isLt, BitVec.ofNat_toNat, BitVec.setWidth_eq]

theorem advanceTail_eq : q.advanceTail = q.advanceTailBy 1 :=
  (advanceTailBy_eq hsize 1).symm

end

theorem advanceTailBy_frame (q : CircularQueue T) (len : SizeT) :
    (q.advanceTailBy len).data = q.data ∧ (q.advanceTailBy len)._capacity = q._capacity := by
  unfold advanceTailBy
  dsimp only
  split <;> exact ⟨rfl, rfl⟩

theorem Wf.advanceTailBy (h : Wf q) {len : SizeT}
    (hfits : q._head.toNat + q._size.toNat + len.toNat < 2 ^ 64) :
    Wf (q.advanceTailBy len) ∧ view (q.advanceTailBy len) =
      (view q).append q._capacity.toNat (window q.data q._capacity.toNat
        (q._head.toNat + q._size.toNat) len.toNat) := by
  obtain ⟨hhead, hsize⟩ := h.advanceTailBy_toNat hfits
  obtain ⟨hdata, hcapacity⟩ := advanceTailBy_frame q len
  refine ⟨⟨?_, ?_, ?_⟩, ?_⟩
  · rw [hcapacity]
    exact h.capacity
  · rw [hcapacity]
    omega
  · omega
  · simp only [view, Bounded.append, length_window, hdata, hcapacity, hhead, hsize, window_append,
      window_drop]

theorem Wf.advanceTail (h : Wf q) (hfits : q._head.toNat + q._size.toNat + 1 < 2 ^ 64) :
    Wf q.advanceTail ∧ view q.advanceTail = (view q).append q._capacity.toNat
      [q.data ((q._head.toNat + q._size.toNat) % q._capacity.toNat)] := by
  rw [advanceTail_eq h.size]
  exact h.advanceTailBy hfits

theorem Wf.pushBack (h : Wf q) (hfits : q._head.toNat + q._size.toNat + 1 < 2 ^ 64) (val : T) :
    Wf (q.pushBack val) ∧ view (q.pushBack val) = (view q).append q._capacity.toNat [val] := by
  have hpos := h.capacity
  have hone : (1 : SizeT).toNat = 1 := rfl
  rw [← hone] at hfits
  obtain ⟨hhead, hsize⟩ := h.advanceTailBy_toNat hfits
  obtain ⟨hdata, hcapacity⟩ := advanceTailBy_frame q 1
  obtain ⟨hwf, -⟩ := h.advanceTailBy hfits
  rw [CircularQueue.pushBack, advanceTail_eq h.size]
  generalize q.advanceTailBy 1 = q' at hhead hsize hdata hcapacity hwf
  refine ⟨{ hwf with }, ?_⟩
  have hbound := hwf.fits
  have htail : q'.tail.toNat = q'._head.toNat + (q'._size.toNat - 1) := by
    have hsum : (q'._head + q'._size).toNat = q'._head.toNat + q'._size.toNat := by
      rw [toNat_add, Nat.mod_eq_of_lt hbound]
    have hge : 1 ≤ q'._head + q'._size := by
      rw [le_def, hone]
      omega
    rw [tail, toNat_sub_of_le hge, hone]
    omega
  have hlast : q'._size.toNat = q'._size.toNat - 1 + 1 := by omega
  have hview : view (q'.set q'.tail val) = ⟨q'._head.toNat,
      window q'.data q'._capacity.toNat q'._head.toNat (q'._size.toNat - 1) ++ [val]⟩ := by
    rw [← window_update _ _ (by have := hwf.size; omega), ← hlast]
    simp only [view, CircularQueue.set, toNat_slot, htail]
  rw [hview, hcapacity, hhead, hsize]
  simp only [view, Bounded.append, length_window, List.length_singleton]
  rw [List.drop_append_of_le_length (by rw [length_window]; omega), window_drop]
  congr 3
  omega

theorem Wf.popFront (h : Wf q) {num_elem : SizeT} (hle : num_elem ≤ q._size) :
    Wf (q.popFront num_elem) ∧ view (q.popFront num_elem) =
      ⟨(view q).head + num_elem.toNat, (view q).items.drop num_elem.toNat⟩ := by
  have hle' : num_elem.toNat ≤ q._size.toNat := hle
  have hfits := h.fits
  have hsize := h.size
  have hhead : (q.popFront num_elem)._head.toNat = q._head.toNat + num_elem.toNat := by
    rw [CircularQueue.popFront, toNat_add, Nat.mod_eq_of_lt (by omega)]
  have hsize' : (q.popFront num_elem)._size.toNat = q._size.toNat - num_elem.toNat :=
    toNat_sub_of_le hle
  refine ⟨⟨h.capacity, ?_, ?_⟩, ?_⟩
  · rw [hsize']
    exact (Nat.sub_le _ _).trans hsize
  · omega
  · simp only [view, hhead, hsize', window_drop]
    rfl

theorem Wf.popBack (h : Wf q) (hne : q.empty = false) :
    Wf q.popBack ∧ view q.popBack = ⟨(view q).head, (view q).items.dropLast⟩ := by
  have hne' : q._size ≠ 0 := by simpa [empty] using hne
  have hpos : 1 ≤ q._size := by bv_omega
  have hsize : q.popBack._size.toNat = q._size.toNat - 1 := toNat_sub_of_le hpos
  have hfits := h.fits
  have hle := h.size
  refine ⟨⟨h.capacity, ?_, ?_⟩, ?_⟩
  · rw [hsize]
    exact (Nat.sub_le _ _).trans hle
  · rw [hsize]
    exact (Nat.add_le_add_left (Nat.sub_le _ _) _).trans_lt hfits
  · simp only [view, List.dropLast_eq_take, length_window, hsize]
    rw [window_take _ _ _ (Nat.sub_le _ _)]
    rfl

theorem Wf.flush (h : Wf q) : Wf q.flush ∧ view q.flush = ⟨1, []⟩ :=
  ⟨⟨h.capacity, Nat.zero_le _, show (1 : SizeT).toNat + (0 : SizeT).toNat < 2 ^ 64 by decide⟩, rfl⟩

theorem step_capacity (q : CircularQueue T) (op : Op T) :
    (step q op)._capacity = q._capacity := by
  have hadvance : q.advanceTail._capacity = q._capacity := by
    unfold advanceTail
    split <;> rfl
  cases op with
  | pushBack val => exact hadvance
  | advanceTail => exact hadvance
  | advanceTailBy len => exact (advanceTailBy_frame q len).2
  | _ => rfl

theorem Wf.moves (h : Wf q) {op : Op T} (hasserts : Asserts q op) (hfits : Fits q op) :
    Wf (step q op) ∧ Moves q._capacity.toNat (view q) (view (step q op)) op := by
  cases op with
  | pushBack val => exact h.pushBack hfits val
  | popFront num_elem => exact h.popFront hasserts
  | popBack => exact h.popBack hasserts
  | advanceTail =>
    obtain ⟨hwf, hview⟩ := h.advanceTail hfits
    exact ⟨hwf, _, hview⟩
  | advanceTailBy len =>
    obtain ⟨hwf, hview⟩ := h.advanceTailBy hfits
    exact ⟨hwf, _, length_window _ _ _ _, hview⟩
  | flush => exact h.flush

end

section
variable {capacity : Nat} {b b' : Bounded T} {op : Op T} {i : Nat} {x y : T}

theorem Bounded.lookup_append (b : Bounded T) (new : List T)
    (hx : lookup b.head b.items i = some x)
    (hy : lookup (b.append capacity new).head (b.append capacity new).items i = some y) : x = y := by
  obtain ⟨hlow, hhigh⟩ := bounds_of_lookup hx
  rw [Bounded.append, lookup_drop] at hy
  split at hy
  · rw [lookup, if_pos hlow, List.getElem?_append_left (by omega)] at hy
    rw [lookup, if_pos hlow, hy] at hx
    exact (Option.some.inj hx).symm
  · cases hy

theorem Moves.survives (h : Moves capacity b b' op) (hx : lookup b.head b.items i = some x)
    (hy : lookup b'.head b'.items i = some y) : x = y := by
  cases op with
  | pushBack val =>
    cases h
    exact b.lookup_append _ hx hy
  | advanceTail =>
    obtain ⟨val, rfl⟩ := h
    exact b.lookup_append _ hx hy
  | advanceTailBy len =>
    obtain ⟨new, -, rfl⟩ := h
    exact b.lookup_append _ hx hy
  | popFront num_elem =>
    cases h
    rw [lookup_drop] at hy
    split at hy
    · exact Option.some.inj (hx.symm.trans hy)
    · cases hy
  | popBack =>
    cases h
    rw [List.dropLast_eq_take, lookup_take] at hy
    split at hy
    · exact Option.some.inj (hx.symm.trans hy)
    · cases hy
  | flush =>
    cases h
    simp [lookup] at hy

end

/-- What a queue promises: it reads as its list does, distinct indices stand for distinct slots, and
an element keeps its index and its contents while it stays. -/
structure Faithful (q : CircularQueue T) : Prop where
  bounded : (view q).items.length ≤ q._capacity.toNat
  size : q._size.toNat = (view q).items.length
  tail : q._size ≠ 0 → q.tail.toNat + 1 = (view q).head + (view q).items.length
  reads : ∀ idx, lookup (view q).head (view q).items idx.toNat =
    if q.isValidIdx idx then some (q.get idx) else none
  distinct : ∀ i j, q.isValidIdx i = true → q.isValidIdx j = true → i ≠ j → q.slot i ≠ q.slot j
  bulk : ∀ len : SizeT, q.advanceTailBy len = advanceTail^[len.toNat] q
  survives : ∀ op, Asserts q op → Fits q op → ∀ idx, q.isValidIdx idx = true →
    (step q op).isValidIdx idx = true → (step q op).get idx = q.get idx

section
variable {q : CircularQueue T}

theorem Wf.end_toNat (h : Wf q) :
    (q._head + q._size).toNat = q._head.toNat + q._size.toNat := by
  rw [toNat_add, Nat.mod_eq_of_lt h.fits]

theorem Wf.isValidIdx_iff (h : Wf q) (idx : SizeT) : q.isValidIdx idx = true ↔
    q._head.toNat ≤ idx.toNat ∧ idx.toNat < q._head.toNat + q._size.toNat := by
  rw [isValidIdx, Bool.and_eq_true, decide_eq_true_iff, decide_eq_true_iff, le_def,
    lt_def, h.end_toNat]

theorem Wf.reads (h : Wf q) (idx : SizeT) : lookup (view q).head (view q).items idx.toNat =
    if q.isValidIdx idx then some (q.get idx) else none := by
  simp only [view, lookup_window, h.isValidIdx_iff, get, toNat_slot]

theorem Wf.faithful (h : Wf q) : Faithful q where
  bounded := by
    rw [view, length_window]
    exact h.size
  size := (length_window _ _ _ _).symm
  tail := by
    intro hne
    have hpos : 1 ≤ q._size := by bv_omega
    have hpos' : (1 : SizeT).toNat ≤ q._size.toNat := hpos
    have hone : (1 : SizeT).toNat = 1 := rfl
    have hge : 1 ≤ q._head + q._size := by
      rw [le_def, h.end_toNat]
      omega
    rw [CircularQueue.tail, toNat_sub_of_le hge, h.end_toNat, view, length_window]
    dsimp only
    omega
  reads := h.reads
  distinct := by
    intro i j hi hj hne heq
    rw [h.isValidIdx_iff] at hi hj
    have hsize := h.size
    have := eq_of_mod_eq q._capacity.toNat ⟨hi.1, by omega⟩ ⟨hj.1, by omega⟩ heq
    exact hne (eq_of_toNat_eq this)
  bulk := advanceTailBy_eq h.size
  survives := by
    intro op hasserts hfits idx hbefore hafter
    obtain ⟨hwf, hmoves⟩ := h.moves hasserts hfits
    have hx := h.reads idx
    have hy := hwf.reads idx
    rw [if_pos hbefore] at hx
    rw [if_pos hafter] at hy
    exact (hmoves.survives hx hy).symm

theorem Wf.behaves (h : Wf q) {ops : List (Op T)}
    (hl : Legal step (fun q op => Asserts q op ∧ Fits q op) q ops) :
    Wf (run step q ops) ∧
      Behaves q._capacity.toNat (view q) ops (view (run step q ops)) := by
  induction ops generalizing q with
  | nil => exact ⟨h, .nil _⟩
  | cons op ops ih =>
    obtain ⟨⟨hasserts, hfits⟩, hrest⟩ := hl
    obtain ⟨hwf, hmoves⟩ := h.moves hasserts hfits
    obtain ⟨hwf', hbehaves⟩ := ih hwf hrest
    rw [step_capacity] at hbehaves
    exact ⟨hwf', .cons hmoves hbehaves⟩

end

/-- From a new queue on, as long as the index behind the tail does not wrap around. -/
theorem queue_behaves (data : Nat → T) {size : SizeT} (hsize : size ≠ 0) {ops : List (Op T)}
    (hl : Legal step (fun q op => Asserts q op ∧ Fits q op) (construct data size) ops) :
    Behaves size.toNat ⟨1, []⟩ ops (view (run step (construct data size) ops)) ∧
      Faithful (run step (construct data size) ops) := by
  have hpos : 0 < size.toNat := by bv_omega
  have hwf : Wf (construct data size) := ⟨hpos, Nat.zero_le _, by
    show (1 : SizeT).toNat + (0 : SizeT).toNat < 2 ^ 64
    decide⟩
  obtain ⟨hwf', hbehaves⟩ := hwf.behaves hl
  exact ⟨hbehaves, hwf'.faithful⟩

def overfull : List (Op Nat) :=
  [.pushBack 5, .advanceTailBy 1, .pushBack 6, .pushBack 7, .popFront 1, .pushBack 8]

theorem queue_behaves_overfull :
    (3 : SizeT) ≠ 0 ∧
      Behaves 3 ⟨1, []⟩ overfull (view (run step (construct (fun _ => 0) 3) overfull)) ∧
      Faithful (run step (construct (fun _ => 0) 3) overfull) ∧
      (view (run step (construct (fun _ => 0) 3) overfull)).items = [6, 7, 8] := by
  have hl : Legal step (fun q op => Asserts q op ∧ Fits q op) (construct (fun _ => 0) 3)
      overfull := by
    decide
  obtain ⟨hbehaves, hfaithful⟩ := queue_behaves (fun _ => 0) (by decide) hl
  exact ⟨by decide, hbehaves, hfaithful, by decide⟩

/-- The last index before the wrap goes to the element 1, the next one, which is 0, to the element
2. -/
def wrapped : List (Op Nat) := [.advanceTailBy (BitVec.ofNat 64 (2 ^ 64 - 2)), .pushBack 1]

/-- With three slots both indices stand for slot 0, and 2 overwrites 1. -/
theorem queue_not_faithful :
    Legal step Asserts (construct (fun _ => 0) 3) (wrapped ++ [.pushBack 2]) ∧
      (run step (construct (fun _ => 0) 3) wrapped)._size = 3 ∧
      (run step (construct (fun _ => 0) 3) wrapped).tail = BitVec.allOnes 64 ∧
      (run step (construct (fun _ => 0) 3) wrapped).get (BitVec.allOnes 64) = 1 ∧
      (run step (construct (fun _ => 0) 3) (wrapped ++ [.pushBack 2]))._size = 3 ∧
      (run step (construct (fun _ => 0) 3) (wrapped ++ [.pushBack 2])).tail = 0 ∧
      (run step (construct (fun _ => 0) 3) (wrapped ++ [.pushBack 2])).get (BitVec.allOnes 64) = 2 :=
    by
  decide

end CircularQueue

end Gem5Core.Base
