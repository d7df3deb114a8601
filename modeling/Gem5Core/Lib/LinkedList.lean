import Mathlib.Logic.Function.Basic

/-! Singly linked lists in a heap; a segment is the list of cells passed on the way. -/
namespace Gem5Core.Lib.LinkedList

variable {α : Type*}

/-- Following `next` from `p` passes the cells `xs` and arrives at `q`. -/
def Seg (next : α → Option α) : Option α → List α → Option α → Prop
  | p, [], q => p = q
  | p, x :: xs, q => p = some x ∧ Seg next (next x) xs q

variable {next next' : α → Option α} {p q r : Option α} {xs ys : List α} {x : α}

theorem seg_append :
    Seg next p (xs ++ ys) q ↔ ∃ r, Seg next p xs r ∧ Seg next r ys q := by
  induction xs generalizing p with
  | nil =>
    constructor
    · exact fun h => ⟨p, rfl, h⟩
    · rintro ⟨r, rfl, h⟩
      exact h
  | cons x xs ih =>
    rw [List.cons_append, Seg, ih]
    constructor
    · rintro ⟨hp, r, hxs, hys⟩
      exact ⟨r, ⟨hp, hxs⟩, hys⟩
    · rintro ⟨r, ⟨hp, hxs⟩, hys⟩
      exact ⟨hp, r, hxs, hys⟩

theorem Seg.congr (h : Seg next p xs q) (heq : ∀ x ∈ xs, next' x = next x) :
    Seg next' p xs q := by
  induction xs generalizing p with
  | nil => exact h
  | cons x xs ih =>
    refine ⟨h.1, ?_⟩
    rw [heq x List.mem_cons_self]
    exact ih h.2 fun y hy => heq y (List.mem_cons_of_mem x hy)

variable [DecidableEq α]

theorem Seg.update (h : Seg next p xs q) (hx : x ∉ xs) (r : Option α) :
    Seg (Function.update next x r) p xs q := by
  refine h.congr fun y hy => Function.update_of_ne ?_ _ _
  rintro rfl
  exact hx hy

theorem Seg.relink (h : Seg next p (xs ++ [x]) q) (hx : x ∉ xs) (r : Option α) :
    Seg (Function.update next x r) p (xs ++ [x]) r := by
  obtain ⟨s, hxs, hs, -⟩ := seg_append.mp h
  exact seg_append.mpr ⟨s, hxs.update hx r, hs, Function.update_self ..⟩

end Gem5Core.Lib.LinkedList
