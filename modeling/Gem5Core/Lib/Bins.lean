import Mathlib.Data.List.Sort

/-! A sorted list kept as a list of bins: the elements of one key form a stack, and a new element
goes before its equals. -/
namespace Gem5Core.Lib.Bins
open List

structure Bin (α : Type*) where
  top : α
  rest : List α

variable {α κ : Type*}

namespace Bin

def items (b : Bin α) : List α := b.top :: b.rest

def ofItems : List α → List (Bin α)
  | [] => []
  | x :: xs => [⟨x, xs⟩]

end Bin

def items (bins : List (Bin α)) : List α := bins.flatMap Bin.items

@[simp] theorem items_nil : items ([] : List (Bin α)) = [] := rfl

@[simp] theorem items_cons (b : Bin α) (bins : List (Bin α)) :
    items (b :: bins) = b.items ++ items bins := rfl

@[simp] theorem items_append (bins bins' : List (Bin α)) :
    items (bins ++ bins') = items bins ++ items bins' := flatMap_append

@[simp] theorem items_ofItems (xs : List α) : items (Bin.ofItems xs) = xs := by
  cases xs with
  | nil => rfl
  | cons x xs => simp [Bin.ofItems, Bin.items]

theorem top_mem_items {b : Bin α} {bins : List (Bin α)} (h : b ∈ bins) : b.top ∈ items bins :=
  mem_flatMap.mpr ⟨b, h, mem_cons_self⟩

theorem length_le_items (bins : List (Bin α)) : bins.length ≤ (items bins).length := by
  induction bins with
  | nil => exact le_rfl
  | cons b bins ih =>
    rw [items_cons, length_append, length_cons, Bin.items, length_cons]
    omega

variable [LinearOrder κ] (key : α → κ)

/-- One key in each bin, and the bins in the order of their keys. -/
structure Arranged (bins : List (Bin α)) : Prop where
  level : ∀ b ∈ bins, ∀ x ∈ b.items, key x = key b.top
  increasing : bins.Pairwise fun b b' => key b.top < key b'.top

def insertBin (x : α) : List (Bin α) → List (Bin α)
  | [] => [⟨x, []⟩]
  | b :: bins =>
      if key b.top < key x then b :: insertBin x bins
      else if key x < key b.top then ⟨x, []⟩ :: b :: bins
      else ⟨x, b.items⟩ :: bins

def eraseBin [DecidableEq α] (x : α) : List (Bin α) → List (Bin α)
  | [] => []
  | b :: bins =>
      if key b.top < key x then b :: eraseBin x bins else Bin.ofItems (b.items.erase x) ++ bins

section

variable {key} {bins : List (Bin α)} {b : Bin α} {x : α}

theorem insertBin_append {pre : List (Bin α)} (h : ∀ b ∈ pre, key b.top < key x)
    (post : List (Bin α)) : insertBin key x (pre ++ post) = pre ++ insertBin key x post := by
  induction pre with
  | nil => rfl
  | cons b pre ih =>
    rw [cons_append, insertBin, if_pos (h b mem_cons_self),
      ih fun b' hb' => h b' (mem_cons_of_mem b hb'), cons_append]

theorem eraseBin_append [DecidableEq α] {pre : List (Bin α)} (h : ∀ b ∈ pre, key b.top < key x)
    (post : List (Bin α)) : eraseBin key x (pre ++ post) = pre ++ eraseBin key x post := by
  induction pre with
  | nil => rfl
  | cons b pre ih =>
    rw [cons_append, eraseBin, if_pos (h b mem_cons_self),
      ih fun b' hb' => h b' (mem_cons_of_mem b hb'), cons_append]

theorem Arranged.nil : Arranged key ([] : List (Bin α)) := ⟨by simp, List.Pairwise.nil⟩

theorem arranged_cons :
    Arranged key (b :: bins) ↔ (∀ x ∈ b.items, key x = key b.top) ∧
      (∀ x ∈ items bins, key b.top < key x) ∧ Arranged key bins := by
  constructor
  · rintro ⟨hlevel, hinc⟩
    obtain ⟨hhead, htail⟩ := pairwise_cons.mp hinc
    refine ⟨hlevel b mem_cons_self, fun x hx => ?_,
      fun b' hb' => hlevel b' (mem_cons_of_mem b hb'), htail⟩
    obtain ⟨b', hb', hx⟩ := mem_flatMap.mp hx
    rw [hlevel b' (mem_cons_of_mem b hb') x hx]
    exact hhead b' hb'
  · rintro ⟨hlevel, hhead, hrest⟩
    refine ⟨fun b' hb' => ?_, pairwise_cons.mpr ⟨fun b' hb' => ?_, hrest.increasing⟩⟩
    · obtain rfl | hb' := mem_cons.mp hb'
      · exact hlevel
      · exact hrest.level b' hb'
    · exact hhead _ (top_mem_items hb')

theorem Arranged.suffix {pre : List (Bin α)} (h : Arranged key (pre ++ bins)) :
    Arranged key bins :=
  ⟨fun b hb => h.level b (mem_append_right _ hb), (pairwise_append.mp h.increasing).2.1⟩

section

variable (h : Arranged key bins)
include h

theorem Arranged.congr {key' : α → κ} (heq : ∀ x ∈ items bins, key' x = key x) :
    Arranged key' bins := by
  have hmem : ∀ b ∈ bins, ∀ x ∈ b.items, key' x = key x := fun b hb x hx =>
    heq x (mem_flatMap.mpr ⟨b, hb, hx⟩)
  refine ⟨fun b hb x hx => ?_, h.increasing.imp_of_mem fun hb hb' hlt => ?_⟩
  · rw [hmem b hb x hx, hmem b hb _ mem_cons_self, h.level b hb x hx]
  · rwa [hmem _ hb _ mem_cons_self, hmem _ hb' _ mem_cons_self]

theorem items_insertBin :
    items (insertBin key x bins) = (items bins).orderedInsert (fun a b => key a ≤ key b) x := by
  induction bins with
  | nil => rfl
  | cons b bins ih =>
    obtain ⟨hlevel, -, hrest⟩ := arranged_cons.mp h
    rw [insertBin, items_cons]
    by_cases hlt : key b.top < key x
    · -- the insertion passes the whole bin
      have hpass : ∀ ys : List α, (∀ y ∈ ys, key y < key x) →
          (ys ++ items bins).orderedInsert (fun a b => key a ≤ key b) x =
            ys ++ (items bins).orderedInsert (fun a b => key a ≤ key b) x := by
        intro ys hys
        induction ys with
        | nil => rfl
        | cons y ys ihys =>
          rw [cons_append, orderedInsert_of_not_le,
            ihys fun z hz => hys z (mem_cons_of_mem y hz), cons_append]
          exact not_le.mpr (hys y mem_cons_self)
      rw [if_pos hlt, items_cons, ih hrest, hpass]
      exact fun y hy => (hlevel y hy).trans_lt hlt
    · have hfront : (b.items ++ items bins).orderedInsert (fun a b => key a ≤ key b) x =
          x :: (b.items ++ items bins) := by
        rw [Bin.items, cons_append, orderedInsert_cons_of_le]
        exact not_lt.mp hlt
      rw [if_neg hlt, hfront]
      split <;> rfl

private theorem mem_items_insertBin {y : α} :
    y ∈ items (insertBin key x bins) ↔ y = x ∨ y ∈ items bins := by
  rw [items_insertBin h, mem_orderedInsert]

theorem nodup_insertBin (hnodup : (items bins).Nodup) (hx : x ∉ items bins) :
    (items (insertBin key x bins)).Nodup := by
  rw [items_insertBin h, (perm_orderedInsert _ _ _).nodup_iff]
  exact nodup_cons.mpr ⟨hx, hnodup⟩

theorem Arranged.insertBin (x : α) : Arranged key (insertBin key x bins) := by
  induction bins with
  | nil => exact arranged_cons.mpr ⟨by simp [Bin.items], by simp, .nil⟩
  | cons b bins ih =>
    obtain ⟨hlevel, hhead, hrest⟩ := arranged_cons.mp h
    rw [Bins.insertBin]
    by_cases hlt : key b.top < key x
    · rw [if_pos hlt]
      refine arranged_cons.mpr ⟨hlevel, fun y hy => ?_, ih hrest⟩
      obtain rfl | hy := (mem_items_insertBin hrest).mp hy
      · exact hlt
      · exact hhead y hy
    · rw [if_neg hlt]
      by_cases hgt : key x < key b.top
      · rw [if_pos hgt]
        refine arranged_cons.mpr ⟨by simp [Bin.items], fun y hy => ?_, h⟩
        obtain hy | hy := mem_append.mp hy
        · rw [hlevel y hy]
          exact hgt
        · exact hgt.trans (hhead y hy)
      · have heq : key b.top = key x := le_antisymm (not_lt.mp hgt) (not_lt.mp hlt)
        rw [if_neg hgt]
        refine arranged_cons.mpr ⟨fun y hy => ?_, fun y hy => ?_, hrest⟩
        · obtain rfl | hy := mem_cons.mp hy
          · rfl
          · rw [hlevel y hy, heq]
        · rw [← heq]
          exact hhead y hy

end

theorem Arranged.mem_later (h : Arranged key (b :: bins)) (hx : x ∈ items (b :: bins))
    (hlt : key b.top < key x) : x ∉ b.items ∧ x ∈ items bins := by
  have hnot : x ∉ b.items := fun hmem => hlt.ne ((arranged_cons.mp h).1 x hmem).symm
  exact ⟨hnot, (mem_append.mp hx).resolve_left hnot⟩

theorem Arranged.mem_first (h : Arranged key (b :: bins)) (hx : x ∈ items (b :: bins))
    (hle : ¬key b.top < key x) : x ∈ b.items :=
  (mem_append.mp hx).resolve_right fun hmem => hle ((arranged_cons.mp h).2.1 x hmem)

theorem arranged_ofItems {ys : List α} (hys : ∀ y ∈ ys, y ∈ b.items)
    (h : Arranged key (b :: bins)) : Arranged key (Bin.ofItems ys ++ bins) := by
  obtain ⟨hlevel, hhead, hrest⟩ := arranged_cons.mp h
  cases ys with
  | nil => exact hrest
  | cons y ys =>
    have hy := hlevel y (hys y mem_cons_self)
    refine arranged_cons.mpr ⟨fun z hz => ?_, fun z hz => ?_, hrest⟩
    · rw [hlevel z (hys z hz), hy]
    · rw [hy]
      exact hhead z hz

variable [DecidableEq α]

theorem items_eraseBin (h : Arranged key bins) (hx : x ∈ items bins) :
    items (eraseBin key x bins) = (items bins).erase x := by
  induction bins with
  | nil => rfl
  | cons b bins ih =>
    rw [eraseBin, items_cons]
    by_cases hlt : key b.top < key x
    · obtain ⟨hnot, hlater⟩ := h.mem_later hx hlt
      rw [if_pos hlt, items_cons, ih (arranged_cons.mp h).2.2 hlater,
        erase_append_right _ hnot]
    · rw [if_neg hlt, items_append, items_ofItems, erase_append_left _ (h.mem_first hx hlt)]

theorem Arranged.eraseBin (h : Arranged key bins) (hx : x ∈ items bins) :
    Arranged key (eraseBin key x bins) := by
  induction bins with
  | nil => exact h
  | cons b bins ih =>
    rw [Bins.eraseBin]
    by_cases hlt : key b.top < key x
    · obtain ⟨hlevel, hhead, hrest⟩ := arranged_cons.mp h
      have hlater := (h.mem_later hx hlt).2
      rw [if_pos hlt]
      refine arranged_cons.mpr ⟨hlevel, fun y hy => ?_, ih hrest hlater⟩
      rw [items_eraseBin hrest hlater] at hy
      exact hhead y (mem_of_mem_erase hy)
    · rw [if_neg hlt]
      exact arranged_ofItems (fun y hy => mem_of_mem_erase hy) h

end

end Gem5Core.Lib.Bins
