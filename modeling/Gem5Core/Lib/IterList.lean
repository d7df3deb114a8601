import Mathlib.Tactic.Common

/-! Lists with iterators that stay valid while others are inserted and erased, as `std::list`
has them. A node is known by a number that is never used again. -/
namespace Gem5Core.Lib
open List

structure IterList (α : Type*) where
  nodes : List (Nat × α) := []
  fresh : Nat := 0
  nodup : (nodes.map Prod.fst).Nodup := by exact .nil
  lt_fresh : ∀ i ∈ nodes.map Prod.fst, i < fresh := by exact List.forall_mem_nil _

namespace IterList

variable {α : Type*}

/-- The number of a node; `none` is the end. -/
abbrev Iter := Option Nat

def first (l : List (Nat × α)) : Iter := l.head?.map Prod.fst

def begin (l : IterList α) : Iter := first l.nodes

def before (l : IterList α) (it : Iter) : List (Nat × α) := l.nodes.takeWhile (some ·.1 ≠ it)

def behind (l : IterList α) (it : Iter) : List (Nat × α) := l.nodes.dropWhile (some ·.1 ≠ it)

theorem before_append_behind (l : IterList α) (it : Iter) : l.before it ++ l.behind it = l.nodes :=
  takeWhile_append_dropWhile

def get? (l : IterList α) (it : Iter) : Option α := (l.behind it).head?.map Prod.snd

def next (l : IterList α) (it : Iter) : Option Iter :=
  match l.behind it with
  | [] => none
  | _ :: rest => some (first rest)

/-- `while (it != end && !stop(*it)) ++it` -/
def seek (l : IterList α) (it : Iter) (stop : α → Bool) : Iter :=
  first ((l.behind it).dropWhile fun n => !stop n.2)

theorem insert_perm (l : IterList α) (it : Iter) (n : Nat × α) :
    (l.before it ++ n :: l.behind it).Perm (n :: l.nodes) := by
  rw [← l.before_append_behind it]
  exact perm_middle

def insert (l : IterList α) (it : Iter) (a : α) : IterList α × Iter :=
  ({ nodes := l.before it ++ (l.fresh, a) :: l.behind it
     fresh := l.fresh + 1
     nodup := by
       rw [((l.insert_perm it _).map Prod.fst).nodup_iff, List.map_cons, List.nodup_cons]
       exact ⟨fun hmem => Nat.lt_irrefl _ (l.lt_fresh _ hmem), l.nodup⟩
     lt_fresh := by
       intro i hi
       rw [((l.insert_perm it _).map Prod.fst).mem_iff, List.map_cons, List.mem_cons] at hi
       rcases hi with rfl | hmem
       · exact Nat.lt_succ_self _
       · exact Nat.lt_succ_of_lt (l.lt_fresh i hmem) },
    some l.fresh)

theorem erase_sublist {l : IterList α} {it : Iter} {n : Nat × α} {rest : List (Nat × α)}
    (h : l.behind it = n :: rest) : (l.before it ++ rest).Sublist l.nodes := by
  rw [← l.before_append_behind it, h]
  exact (List.Sublist.refl _).append (sublist_cons_self _ _)

def erase (l : IterList α) (it : Iter) : Option (IterList α) :=
  match h : l.behind it with
  | [] => none
  | _ :: rest => some
      { nodes := l.before it ++ rest
        fresh := l.fresh
        nodup := ((erase_sublist h).map Prod.fst).nodup l.nodup
        lt_fresh := fun i hi => l.lt_fresh i (((erase_sublist h).map Prod.fst).subset hi) }

section

variable {l : IterList α} {it : Iter} {pre post : List (Nat × α)} {n : Nat × α}

structure At (l : IterList α) (it : Iter) (pre post : List (Nat × α)) : Prop where
  nodes : l.nodes = pre ++ post
  iter : it = first post

theorem at_begin (l : IterList α) : At l l.begin [] l.nodes := ⟨rfl, rfl⟩

theorem exists_at {n : Nat × α} (h : n ∈ l.nodes) :
    ∃ pre post, At l (some n.1) pre (n :: post) := by
  obtain ⟨pre, post, hnodes⟩ := append_of_mem h
  exact ⟨pre, post, hnodes, rfl⟩

theorem At.split (h : At l it pre post) : l.before it = pre ∧ l.behind it = post := by
  have hpre : ∀ n ∈ pre, decide (some n.1 ≠ it) = true := by
    intro n hn
    have hnodup := l.nodup
    rw [h.nodes, map_append, nodup_append] at hnodup
    cases post with
    | nil => simp [h.iter, first]
    | cons m post =>
      have hne := hnodup.2.2 n.1 (mem_map_of_mem hn) m.1 (by simp)
      simpa [h.iter, first] using hne
  rw [before, behind, h.nodes, takeWhile_append_of_pos hpre, dropWhile_append_of_pos hpre]
  cases post with
  | nil => simp
  | cons m post => simp [h.iter, first]

theorem At.get? (h : At l it pre (n :: post)) : l.get? it = some n.2 := by
  rw [IterList.get?, h.split.2]
  rfl

theorem At.next (h : At l it pre (n :: post)) :
    ∃ it', l.next it = some it' ∧ At l it' (pre ++ [n]) post := by
  refine ⟨first post, ?_, ?_, rfl⟩
  · rw [IterList.next, h.split.2]
  · rw [h.nodes, append_assoc]
    rfl

theorem At.seek (h : At l it pre post) (stop : α → Bool) :
    At l (l.seek it stop) (pre ++ post.takeWhile fun n => !stop n.2)
      (post.dropWhile fun n => !stop n.2) := by
  refine ⟨?_, ?_⟩
  · rw [append_assoc, takeWhile_append_dropWhile, h.nodes]
  · rw [IterList.seek, h.split.2]

theorem At.insert (h : At l it pre post) (a : α) :
    (l.insert it a).1.nodes = pre ++ (l.fresh, a) :: post ∧ (l.insert it a).2 = some l.fresh := by
  refine ⟨?_, rfl⟩
  change l.before it ++ (l.fresh, a) :: l.behind it = _
  rw [h.split.1, h.split.2]

theorem At.erase (h : At l it pre (n :: post)) :
    ∃ l', l.erase it = some l' ∧ l'.nodes = pre ++ post := by
  rw [IterList.erase]
  split
  next hnil =>
    rw [h.split.2] at hnil
    cases hnil
  next rest hrest =>
    rw [h.split.2] at hrest
    cases hrest
    refine ⟨_, rfl, ?_⟩
    change l.before it ++ post = _
    rw [h.split.1]

end

theorem pairwise_insert {β : Type*} {R : β → β → Prop} {l : List β} {b : β} {p : β → Bool}
    (htrans : ∀ x y z, R x y → R y z → R x z) (hl : l.Pairwise R) (hpos : ∀ x ∈ l, p x = true → R x b)
    (hneg : ∀ x ∈ l, p x = false → R b x) : (l.takeWhile p ++ b :: l.dropWhile p).Pairwise R := by
  induction l with
  | nil => simp
  | cons x l ih =>
    obtain ⟨hx, hl'⟩ := pairwise_cons.mp hl
    cases hp : p x with
    | false =>
      rw [takeWhile_cons_of_neg (by simp [hp]), dropWhile_cons_of_neg (by simp [hp])]
      have hbx := hneg x mem_cons_self hp
      refine pairwise_cons.mpr ⟨fun y hy => ?_, hl⟩
      rcases mem_cons.mp hy with rfl | hy
      · exact hbx
      · exact htrans b x y hbx (hx y hy)
    | true =>
      rw [takeWhile_cons_of_pos hp, dropWhile_cons_of_pos hp, cons_append,
        pairwise_cons]
      refine ⟨fun y hy => ?_, ih hl' (fun y hy => hpos y (mem_cons_of_mem x hy))
        fun y hy => hneg y (mem_cons_of_mem x hy)⟩
      rcases mem_append.mp hy with hy | hy
      · exact hx y ((takeWhile_sublist p).subset hy)
      · rcases mem_cons.mp hy with rfl | hy
        · exact hpos x mem_cons_self hp
        · exact hx y ((dropWhile_sublist p).subset hy)

end IterList

end Gem5Core.Lib
