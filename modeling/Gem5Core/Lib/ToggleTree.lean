import Mathlib.Algebra.Group.Nat.Defs

/-! Perfect binary trees of toggles. Whoever comes to a node leaves in the direction that it
points to and turns it, so that the leaves are visited in turn. -/
namespace Gem5Core.Lib.ToggleTree

inductive Toggles : Nat → Type
  | leaf : Toggles 0
  | node {h : Nat} (right : Bool) (l r : Toggles h) : Toggles (h + 1)

namespace Toggles

variable {h : Nat}

def pick : {h : Nat} → Toggles h → List Bool
  | 0, leaf => []
  | _ + 1, node right l r => right :: (if right then r.pick else l.pick)

def turn : {h : Nat} → Toggles h → Toggles h
  | 0, leaf => leaf
  | _ + 1, node right l r => if right then node false l r.turn else node true l.turn r

def picks : Nat → Toggles h → List (List Bool)
  | 0, _ => []
  | k + 1, t => t.pick :: picks k t.turn

private theorem picks_node (k : Nat) (right : Bool) (l r : Toggles h) :
    (picks (2 * k) (node right l r)).Perm
      ((picks k l).map (false :: ·) ++ (picks k r).map (true :: ·)) := by
  induction k generalizing l r with
  | zero => exact .nil
  | succ k ih =>
    have hrest := ih l.turn r.turn
    have hswap : ((false :: l.pick) :: (true :: r.pick) :: picks (2 * k) (node right l.turn r.turn)).Perm
        ((false :: l.pick) :: ((picks k l.turn).map (false :: ·) ++
          (true :: r.pick) :: (picks k r.turn).map (true :: ·))) :=
      ((hrest.cons _).trans List.perm_middle.symm).cons _
    cases right with
    | false => exact hswap
    | true => exact (List.Perm.swap _ _ _).trans hswap

end Toggles

def paths : Nat → List (List Bool)
  | 0 => [[]]
  | h + 1 => (paths h).map (false :: ·) ++ (paths h).map (true :: ·)

theorem picks_perm {h : Nat} (t : Toggles h) : (t.picks (2 ^ h)).Perm (paths h) := by
  induction t with
  | leaf => exact .refl _
  | node right l r ihl ihr =>
    rw [Nat.pow_succ, Nat.mul_comm]
    exact (Toggles.picks_node _ right l r).trans ((ihl.map _).append (ihr.map _))

end Gem5Core.Lib.ToggleTree
