import Mathlib.Data.List.Induction
import Gem5Core.Lib.ToggleTree

/-! The tree pseudo-LRU replacement policy (`mem/cache/replacement_policies/tree_plru_rp.cc`). A
tree is stored as the vector of its inner nodes, a parent before its children. -/
namespace Gem5Core.Mem.TreePlru
open Lib.ToggleTree List TreePlru

/-- `std::floor` goes through `double`, which is exact below 2^53. The root has no parent. -/
def parentIndex (index : Nat) : Nat := (index - 1) / 2

def leftSubtreeIndex (index : Nat) : Nat := 2 * index + 1

def rightSubtreeIndex (index : Nat) : Nat := 2 * index + 2

def isRightSubtree (index : Nat) : Bool := index % 2 == 0

abbrev PLRUTree := List Bool

/-- The loop of `invalidate` and `touch`, which differ in where a parent is made to point, given the
side that the loop comes from. `none` where `at` throws. -/
def update (value : Bool → Bool) : (fuel : Nat) → PLRUTree → (tree_index : Nat) → Option PLRUTree
  | 0, _, _ => none
  | fuel + 1, tree, tree_index =>
      let right := isRightSubtree tree_index
      let tree_index := parentIndex tree_index
      if tree_index < tree.length then
        let tree := tree.set tree_index (value right)
        if tree_index = 0 then some tree else update value fuel tree tree_index
      else none

def invalidate (tree : PLRUTree) (index : Nat) : Option PLRUTree := update id index tree index

def touch (tree : PLRUTree) (index : Nat) : Option PLRUTree := update (!·) index tree index

def reset (tree : PLRUTree) (index : Nat) : Option PLRUTree := touch tree index

/-- The loop of `getVictim`. The index grows in each round. -/
def parse (tree : PLRUTree) : (fuel : Nat) → (tree_index : Nat) → Option Nat
  | 0, _ => none
  | fuel + 1, tree_index =>
      match tree[tree_index]? with
      | none => some tree_index
      | some right =>
          parse tree fuel (if right then rightSubtreeIndex tree_index else leftSubtreeIndex tree_index)

/-- `none` where an assertion fails or `at` throws. -/
def getVictim {α : Type} (numLeaves : Nat) (tree : PLRUTree) (candidates : List α) : Option α :=
  if candidates.isEmpty then none
  else (parse tree (tree.length + 1) 0).bind fun tree_index =>
    candidates[tree_index - (numLeaves - 1)]?

/-- `trees` are those made so far, the last one being `treeInstance`. -/
structure TreePLRU where
  numLeaves : Nat
  count : Nat := 0
  trees : List PLRUTree := []

/-- `tree` is the position of the tree that is shared. -/
structure TreePLRUReplData where
  index : Nat
  tree : Nat

/-- `count` is a `uint64_t` in the source: fewer than `2 ^ 64` entries are meant. -/
def TreePLRU.instantiateEntry (p : TreePLRU) : TreePLRUReplData × TreePLRU :=
  let trees :=
    if p.count % p.numLeaves = 0 then p.trees ++ [replicate (p.numLeaves - 1) false]
    else p.trees
  (⟨p.count % p.numLeaves + p.numLeaves - 1, trees.length - 1⟩, { p with count := p.count + 1, trees })

variable (right : Bool)

section

def child (right : Bool) (i : Nat) : Nat :=
  if right then rightSubtreeIndex i else leftSubtreeIndex i

@[simp] theorem parentIndex_child (i : Nat) : parentIndex (child right i) = i := by
  cases right with
  | false => simp [parentIndex, child, leftSubtreeIndex]
  | true =>
    simp only [parentIndex, child, rightSubtreeIndex, if_true]
    omega

@[simp] theorem isRightSubtree_child (i : Nat) : isRightSubtree (child right i) = right := by
  cases right <;> simp [isRightSubtree, child, rightSubtreeIndex, leftSubtreeIndex]

theorem lt_child (i : Nat) : i < child right i := by
  cases right <;> simp [child, rightSubtreeIndex, leftSubtreeIndex] <;> omega

def descend (i : Nat) (path : List Bool) : Nat := path.foldl (fun i right => child right i) i

variable (i : Nat)

@[simp] theorem descend_nil : descend i [] = i := rfl

@[simp] theorem descend_cons (path : List Bool) :
    descend i (right :: path) = descend (child right i) path := rfl

theorem le_descend (path : List Bool) : i + path.length ≤ descend i path := by
  induction path generalizing i with
  | nil => exact Nat.le_refl i
  | cons right path ih =>
    have hlt := lt_child right i
    have hle := ih (child right i)
    rw [length_cons, descend_cons]
    omega

theorem descend_concat (path : List Bool) (right : Bool) :
    descend i (path ++ [right]) = child right (descend i path) := by
  rw [descend, foldl_append]
  rfl

theorem descend_injective : Function.Injective (descend i) := by
  intro path
  induction path using reverseRecOn with
  | nil =>
    intro path' heq
    have hle := le_descend i path'
    rw [← heq, descend_nil] at hle
    have hlength : path'.length = 0 := by omega
    exact (length_eq_zero_iff.mp hlength).symm
  | append_singleton path right ih =>
    intro path' heq
    induction path' using reverseRecOn with
    | nil =>
      have hle := le_descend i (path ++ [right])
      rw [heq, length_append, length_singleton, descend_nil] at hle
      omega
    | append_singleton path' right' _ =>
      rw [descend_concat, descend_concat] at heq
      have hside := congrArg isRightSubtree heq
      have hparent := congrArg parentIndex heq
      rw [isRightSubtree_child, isRightSubtree_child] at hside
      rw [parentIndex_child, parentIndex_child] at hparent
      rw [ih hparent, hside]

private theorem exists_path : ∃ path, descend 0 path = i := by
  induction i using Nat.strongRecOn with
  | _ i ih =>
    by_cases hzero : i = 0
    · exact ⟨[], hzero.symm⟩
    · obtain ⟨path, hpath⟩ := ih (parentIndex i) (by unfold parentIndex; omega)
      refine ⟨path ++ [isRightSubtree i], ?_⟩
      rw [descend_concat, hpath]
      by_cases hside : i % 2 = 0
      · simp [child, isRightSubtree, hside, rightSubtreeIndex, parentIndex]
        omega
      · simp [child, isRightSubtree, hside, leftSubtreeIndex, parentIndex]
        omega

end

section

variable {value : Bool → Bool} {tree : PLRUTree}

def setPath (value : Bool → Bool) (tree : PLRUTree) : Nat → List Bool → PLRUTree
  | _, [] => tree
  | i, right :: path => (setPath value tree (child right i) path).set i (value right)

@[simp] theorem length_setPath (i : Nat) (path : List Bool) :
    (setPath value tree i path).length = tree.length := by
  induction path generalizing i with
  | nil => rfl
  | cons right path ih => rw [setPath, length_set, ih]

private theorem setPath_concat (i : Nat) (path : List Bool) (right : Bool) :
    setPath value tree i (path ++ [right]) =
      setPath value (tree.set (descend i path) (value right)) i path := by
  induction path generalizing i with
  | nil => rfl
  | cons right' path ih =>
    rw [cons_append, setPath, ih]
    rfl

theorem update_descend (path : List Bool) (right : Bool) {fuel : Nat} (hfuel : path.length < fuel)
    (hparent : descend 0 path < tree.length) :
    update value fuel tree (descend 0 (path ++ [right])) =
      some (setPath value tree 0 (path ++ [right])) := by
  induction path using reverseRecOn generalizing tree right fuel with
  | nil =>
    obtain ⟨fuel, rfl⟩ := Nat.exists_eq_succ_of_ne_zero (by omega : fuel ≠ 0)
    rw [descend_concat, update]
    simp only [parentIndex_child, isRightSubtree_child]
    rw [if_pos hparent]
    rfl
  | append_singleton path right' ih =>
    obtain ⟨fuel, rfl⟩ := Nat.exists_eq_succ_of_ne_zero (by omega : fuel ≠ 0)
    have hpos : descend 0 (path ++ [right']) ≠ 0 := by
      have hle := le_descend 0 (path ++ [right'])
      rw [length_append, length_singleton] at hle
      omega
    have hgrand : descend 0 path < tree.length := by
      rw [descend_concat] at hparent
      exact Nat.lt_trans (lt_child right' _) hparent
    rw [length_append, length_singleton] at hfuel
    rw [descend_concat, update]
    simp only [parentIndex_child, isRightSubtree_child]
    rw [if_pos hparent, if_neg hpos, ih right' (by omega) (by rwa [length_set]),
      setPath_concat _ (path ++ [right'])]

private theorem getElem?_setPath_of_ne {i j : Nat} {path : List Bool}
    (hne : ∀ path' : List Bool, descend i path' ≠ j) :
    (setPath value tree i path)[j]? = tree[j]? := by
  induction path generalizing i with
  | nil => rfl
  | cons right path ih =>
    have hroot : i ≠ j := hne []
    rw [setPath, getElem?_set_ne hroot, ih fun path' => hne (right :: path')]

theorem getElem?_setPath_root {i : Nat} (path : List Bool) (hi : i < tree.length) :
    (setPath value tree i (right :: path))[i]? = some (value right) := by
  rw [setPath, getElem?_set_self (by rwa [length_setPath])]

end

section

variable {tree : PLRUTree} {n : Nat}

def Points (tree : PLRUTree) : Nat → List Bool → Prop
  | _, [] => True
  | i, right :: path => tree[i]? = some right ∧ Points tree (child right i) path

private theorem parse_child {i : Nat} {right : Bool} (fuel : Nat) (hbit : tree[i]? = some right) :
    parse tree (fuel + 1) i = parse tree fuel (child right i) := by
  rw [parse, hbit]
  rfl

private theorem parse_of_points {i fuel : Nat} {path : List Bool} (hpoints : Points tree i path)
    (hleaf : tree.length ≤ descend i path) (hfuel : path.length < fuel) :
    parse tree fuel i = some (descend i path) := by
  induction path generalizing i fuel with
  | nil =>
    obtain ⟨fuel, rfl⟩ := Nat.exists_eq_succ_of_ne_zero (by omega : fuel ≠ 0)
    rw [descend_nil] at hleaf ⊢
    rw [parse, getElem?_eq_none hleaf]
  | cons right path ih =>
    obtain ⟨fuel, rfl⟩ := Nat.exists_eq_succ_of_ne_zero (by omega : fuel ≠ 0)
    rw [length_cons] at hfuel
    rw [parse_child fuel hpoints.1]
    exact ih hpoints.2 hleaf (by omega)

theorem exists_points (tree : PLRUTree) (fuel i : Nat) (hfuel : tree.length ≤ fuel + i) (hi : i ≤ 2 * tree.length) :
    ∃ path, Points tree i path ∧ tree.length ≤ descend i path ∧
      descend i path ≤ 2 * tree.length ∧ path.length ≤ fuel := by
  induction fuel generalizing i with
  | zero => exact ⟨[], trivial, by simpa only [Nat.zero_add, descend_nil] using hfuel, hi, Nat.le_refl 0⟩
  | succ fuel ih =>
    by_cases hin : i < tree.length
    · have hlt := lt_child tree[i] i
      have hchild : child tree[i] i ≤ 2 * i + 2 := by
        unfold child rightSubtreeIndex leftSubtreeIndex
        split <;> omega
      obtain ⟨path, hpoints, hleaf, hle, hlength⟩ := ih (child tree[i] i) (by omega) (by omega)
      exact ⟨tree[i] :: path, ⟨getElem?_eq_getElem hin, hpoints⟩, hleaf, hle,
        Nat.succ_le_succ hlength⟩
    · exact ⟨[], trivial, Nat.le_of_not_lt hin, hi, Nat.zero_le _⟩

end

section

variable {α : Type} {n : Nat} {tree : PLRUTree} {candidates : List α}

/-- The index that `instantiateEntry` gives to a leaf. -/
def leafIndex (n leaf : Nat) : Nat := leaf + n - 1

variable {leaf : Nat}

private theorem exists_leaf_path (hn : 2 ≤ n) (htree : tree.length = n - 1) (hleaf : leaf < n) :
    ∃ path right, descend 0 (path ++ [right]) = leafIndex n leaf ∧ descend 0 path < tree.length := by
  obtain ⟨path, hpath⟩ := exists_path (leafIndex n leaf)
  unfold leafIndex at hpath ⊢
  induction path using reverseRecOn with
  | nil =>
    rw [descend_nil] at hpath
    omega
  | append_singleton path right _ =>
    refine ⟨path, right, hpath, ?_⟩
    rw [descend_concat] at hpath
    have hparent := parentIndex_child right (descend 0 path)
    rw [parentIndex] at hparent
    omega

theorem update_leaf (value : Bool → Bool) (hn : 2 ≤ n) (htree : tree.length = n - 1)
    (hleaf : leaf < n) :
    ∃ path right, descend 0 (path ++ [right]) = leafIndex n leaf ∧ descend 0 path < tree.length ∧
      update value (leafIndex n leaf) tree (leafIndex n leaf) =
        some (setPath value tree 0 (path ++ [right])) := by
  obtain ⟨path, right, hpath, hparent⟩ := exists_leaf_path hn htree hleaf
  have hlength := le_descend 0 (path ++ [right])
  rw [length_append, length_singleton] at hlength
  have hfuel : path.length < leafIndex n leaf := by omega
  have hupdate : update value (leafIndex n leaf) tree (descend 0 (path ++ [right])) =
      some (setPath value tree 0 (path ++ [right])) := update_descend path right hfuel hparent
  rw [hpath] at hupdate
  exact ⟨path, right, hpath, hparent, hupdate⟩

theorem getVictim_eq (hn : 2 ≤ n) (hcandidates : candidates.length = n) :
    getVictim n tree candidates =
      (parse tree (tree.length + 1) 0).bind fun tree_index => candidates[tree_index - (n - 1)]? := by
  have hne : candidates.isEmpty = false := by
    rw [isEmpty_eq_false_iff, ← length_pos_iff]
    omega
  rw [getVictim, hne]
  rfl

variable {path : List Bool}

theorem getVictim_of_points (hn : 2 ≤ n) (htree : tree.length = n - 1)
    (hcandidates : candidates.length = n) (hpoints : Points tree 0 path)
    (hpath : descend 0 path = leafIndex n leaf) (hlength : path.length ≤ tree.length) :
    getVictim n tree candidates = candidates[leaf]? := by
  unfold leafIndex at hpath
  rw [getVictim_eq hn hcandidates, parse_of_points hpoints (by omega) (by omega), hpath,
    Option.bind_some, show leaf + n - 1 - (n - 1) = leaf by omega]

theorem exists_victim (hn : 2 ≤ n) (htree : tree.length = n - 1) :
    ∃ path leaf, Points tree 0 path ∧ descend 0 path = leafIndex n leaf ∧
      path.length ≤ tree.length ∧ leaf < n := by
  obtain ⟨path, hpoints, hge, hle, hlength⟩ :=
    exists_points tree tree.length 0 (Nat.le_refl _) (Nat.zero_le _)
  refine ⟨path, descend 0 path - (n - 1), hpoints, ?_, hlength, ?_⟩
  · unfold leafIndex
    omega
  · omega

theorem Points.set {i j : Nat} (hpoints : Points tree j path) (hlt : i < j) (right : Bool) :
    Points (tree.set i right) j path := by
  induction path generalizing j with
  | nil => trivial
  | cons right' path ih =>
    refine ⟨?_, ih hpoints.2 (Nat.lt_trans hlt (lt_child right' j))⟩
    rw [getElem?_set_ne (Nat.ne_of_lt hlt)]
    exact hpoints.1

private theorem points_setPath {i : Nat} (hparent : descend i path < tree.length) :
    Points (setPath id tree i (path ++ [right])) i (path ++ [right]) := by
  induction path generalizing i with
  | nil => exact ⟨getElem?_setPath_root right [] hparent, trivial⟩
  | cons right' path ih =>
    have hi : i < tree.length := by
      have hle := le_descend i (right' :: path)
      omega
    exact ⟨getElem?_setPath_root right' _ hi, (ih hparent).set (lt_child right' i) right'⟩

private theorem getVictim_invalidate (hn : 2 ≤ n) (htree : tree.length = n - 1)
    (hcandidates : candidates.length = n) (hleaf : leaf < n) :
    ∃ tree', invalidate tree (leafIndex n leaf) = some tree' ∧ tree'.length = n - 1 ∧
      getVictim n tree' candidates = candidates[leaf]? := by
  obtain ⟨path, right, hpath, hparent, hupdate⟩ := update_leaf id hn htree hleaf
  have hlength := le_descend 0 path
  refine ⟨_, hupdate, by rw [length_setPath, htree], ?_⟩
  refine getVictim_of_points hn ?_ hcandidates (points_setPath right hparent) hpath ?_
  · rw [length_setPath, htree]
  · rw [length_setPath, length_append, length_singleton]
    omega

theorem getVictim_touch (hn : 2 ≤ n) (htree : tree.length = n - 1)
    (hcandidates : candidates.length = n) (hleaf : leaf < n) :
    ∃ tree', touch tree (leafIndex n leaf) = some tree' ∧ tree'.length = n - 1 ∧
      ∃ victim < n, victim ≠ leaf ∧ getVictim n tree' candidates = candidates[victim]? := by
  obtain ⟨path, right, hpath, hparent, hupdate⟩ := update_leaf (!·) hn htree hleaf
  obtain ⟨first, rest, hcons⟩ := exists_cons_of_ne_nil (concat_ne_nil right path)
  rw [hcons] at hpath hupdate
  have htree' : (setPath (!·) tree 0 (first :: rest)).length = n - 1 := by
    rw [length_setPath, htree]
  obtain ⟨path', victim, hpoints, hpath', hlength, hvictim⟩ := exists_victim hn htree'
  refine ⟨_, hupdate, htree', victim, hvictim, ?_,
    getVictim_of_points hn htree' hcandidates hpoints hpath' hlength⟩
  rintro rfl
  have hsame : path' = first :: rest := descend_injective 0 (hpath'.trans hpath.symm)
  have hroot : (setPath (!·) tree 0 (first :: rest))[0]? = some (!first) :=
    getElem?_setPath_root first rest (by omega)
  rw [hsame, Points, hroot, Option.some_inj] at hpoints
  exact (Bool.not_eq_self first).mp hpoints.1

end

section

variable {α : Type} {n : Nat} {tree : PLRUTree} {candidates : List α}

inductive Op
  | touch (leaf : Nat)
  | reset (leaf : Nat)
  | invalidate (leaf : Nat)

def Op.leaf : Op → Nat
  | touch leaf => leaf
  | reset leaf => leaf
  | invalidate leaf => leaf

def Op.apply (n : Nat) (tree : PLRUTree) : Op → Option PLRUTree
  | touch leaf => TreePlru.touch tree (leafIndex n leaf)
  | reset leaf => TreePlru.reset tree (leafIndex n leaf)
  | invalidate leaf => TreePlru.invalidate tree (leafIndex n leaf)

/-- Whether a leaf may be the victim right after an operation. -/
def Op.Allows (victim : Nat) : Op → Prop
  | touch leaf => victim ≠ leaf
  | reset leaf => victim ≠ leaf
  | invalidate leaf => victim = leaf

theorem Op.apply_spec {op : Op} (hn : 2 ≤ n) (htree : tree.length = n - 1)
    (hcandidates : candidates.length = n) (hop : op.leaf < n) :
    ∃ tree', op.apply n tree = some tree' ∧ tree'.length = n - 1 ∧
      ∃ victim < n, op.Allows victim ∧ getVictim n tree' candidates = candidates[victim]? := by
  cases op with
  | touch leaf => exact getVictim_touch hn htree hcandidates hop
  | reset leaf => exact getVictim_touch hn htree hcandidates hop
  | invalidate leaf =>
    obtain ⟨tree', happly, htree', hvictim⟩ := getVictim_invalidate hn htree hcandidates hop
    exact ⟨tree', happly, htree', leaf, hop, rfl, hvictim⟩

theorem run_spec (hn : 2 ≤ n) (hcandidates : candidates.length = n) (ops : List Op) :
    ∀ {tree : PLRUTree}, tree.length = n - 1 → (∀ op ∈ ops, op.leaf < n) →
    ∃ tree', ops.foldlM (Op.apply n) tree = some tree' ∧ tree'.length = n - 1 ∧
      ∃ victim < n, (∀ op ∈ ops.getLast?, op.Allows victim) ∧
        getVictim n tree' candidates = candidates[victim]? := by
  induction ops using reverseRecOn with
  | nil =>
    intro tree htree _
    obtain ⟨path, victim, hpoints, hpath, hlength, hvictim⟩ := exists_victim hn htree
    exact ⟨tree, rfl, htree, victim, hvictim, by simp,
      getVictim_of_points hn htree hcandidates hpoints hpath hlength⟩
  | append_singleton ops op ih =>
    intro tree htree hops
    obtain ⟨tree', hrun, htree', -⟩ := ih htree fun op' hmem => hops op' (mem_append_left _ hmem)
    obtain ⟨tree'', happly, htree'', victim, hvictim, hallows, heq⟩ :=
      Op.apply_spec hn htree' hcandidates (hops op (by simp))
    refine ⟨tree'', ?_, htree'', victim, hvictim, by simpa using hallows, heq⟩
    rw [foldlM_append, hrun]
    simpa using happly

end

section

variable {h n : Nat} {tree : PLRUTree}

def Perfect (tree : PLRUTree) (h i : Nat) : Prop :=
  ∀ path : List Bool, (path.length < h → descend i path < tree.length) ∧
    (path.length = h → tree.length ≤ descend i path)

variable {i : Nat}

theorem Perfect.child (hperfect : Perfect tree (h + 1) i) (right : Bool) :
    Perfect tree h (child right i) := by
  intro path
  have hpath := hperfect (right :: path)
  rw [length_cons] at hpath
  exact ⟨fun hlt => hpath.1 (by omega), fun heq => hpath.2 (by omega)⟩

theorem descend_bounds (i : Nat) (path : List Bool) :
    2 ^ path.length * (i + 1) ≤ descend i path + 1 ∧
      descend i path + 2 ≤ 2 ^ path.length * (i + 2) := by
  induction path generalizing i with
  | nil => simp
  | cons right path ih =>
    obtain ⟨hlower, hupper⟩ := ih (child right i)
    rw [length_cons, Nat.pow_succ, Nat.mul_assoc, Nat.mul_assoc]
    have hleft : 2 * (i + 1) ≤ child right i + 1 := by
      unfold child rightSubtreeIndex leftSubtreeIndex
      split <;> omega
    have hright : child right i + 2 ≤ 2 * (i + 2) := by
      unfold child rightSubtreeIndex leftSubtreeIndex
      split <;> omega
    exact ⟨Nat.le_trans (Nat.mul_le_mul_left _ hleft) hlower,
      Nat.le_trans hupper (Nat.mul_le_mul_left _ hright)⟩

private theorem perfect_root (htree : tree.length = 2 ^ h - 1) : Perfect tree h 0 := by
  intro path
  obtain ⟨hlower, hupper⟩ := descend_bounds 0 path
  constructor
  · intro hlt
    have hpow : 2 ^ (path.length + 1) ≤ 2 ^ h := Nat.pow_le_pow_right (by decide) hlt
    omega
  · intro heq
    rw [heq] at hlower
    omega

def decode (tree : PLRUTree) : (h i : Nat) → Toggles h
  | 0, _ => .leaf
  | h + 1, i =>
      .node (tree[i]?.getD false) (decode tree h (child false i)) (decode tree h (child true i))

private theorem decode_congr {tree' : PLRUTree}
    (hsame : ∀ path, tree[descend i path]? = tree'[descend i path]?) :
    decode tree h i = decode tree' h i := by
  induction h generalizing i with
  | zero => rfl
  | succ h ih =>
    have hroot := hsame []
    rw [descend_nil] at hroot
    rw [decode, decode, hroot, ih fun path => hsame (false :: path),
      ih fun path => hsame (true :: path)]

private theorem length_pick (t : Toggles h) : t.pick.length = h := by
  induction t with
  | leaf => rfl
  | node right l r ihl ihr => cases right <;> simp [Toggles.pick, ihl, ihr]

theorem pick_decode {right : Bool} (hbit : tree[i]? = some right) :
    (decode tree (h + 1) i).pick = right :: (decode tree h (child right i)).pick := by
  rw [decode, hbit]
  cases right <;> rfl

theorem points_pick (hperfect : Perfect tree h i) : Points tree i (decode tree h i).pick := by
  induction h generalizing i with
  | zero => trivial
  | succ h ih =>
    have hi : i < tree.length := (hperfect []).1 (Nat.succ_pos h)
    have hbit : tree[i]? = some tree[i] := getElem?_eq_getElem hi
    rw [pick_decode hbit]
    exact ⟨hbit, ih (hperfect.child _)⟩

theorem decode_setPath (hperfect : Perfect tree h i) :
    decode (setPath (!·) tree i (decode tree h i).pick) h i = (decode tree h i).turn := by
  induction h generalizing i with
  | zero => rfl
  | succ h ih =>
    have hi : i < tree.length := (hperfect []).1 (Nat.succ_pos h)
    obtain ⟨right, hbit⟩ : ∃ right, tree[i]? = some right := ⟨_, getElem?_eq_getElem hi⟩
    have hpick := pick_decode (h := h) hbit
    set path := (decode tree h (child right i)).pick with hpath
    set touched := setPath (!·) tree i (decode tree (h + 1) i).pick with htouched
    rw [hpick] at htouched
    have hroot : touched[i]? = some (!right) := by
      rw [htouched]
      exact getElem?_setPath_root right path hi
    -- the side that is left to sees the change below it only
    have hside : decode touched h (child right i) =
        (decode tree h (child right i)).turn := by
      rw [← ih (hperfect.child right)]
      apply decode_congr
      intro path'
      have hle := le_descend (child right i) path'
      have hlt := lt_child right i
      rw [htouched, setPath, getElem?_set_ne (by omega)]
    -- the other side sees none
    have hother : decode touched h (child (!right) i) =
        decode tree h (child (!right) i) := by
      apply decode_congr
      intro path'
      have hle := le_descend (child (!right) i) path'
      have hlt := lt_child (!right) i
      rw [htouched, setPath, getElem?_set_ne (by omega)]
      apply getElem?_setPath_of_ne
      intro path'' heq
      have hsame : right :: path'' = (!right) :: path' := descend_injective i heq
      exact (Bool.not_eq_self right).mp (cons.inj hsame).1.symm
    rw [decode, decode, hroot, hbit]
    cases right with
    | false =>
      simp only [Bool.not_false] at hother
      simp [Toggles.turn, hside, hother]
    | true =>
      simp only [Bool.not_true] at hother
      simp [Toggles.turn, hside, hother]

theorem map_descend_paths (h i : Nat) :
    (paths h).map (descend i) = range' (2 ^ h * (i + 1) - 1) (2 ^ h) := by
  induction h generalizing i with
  | zero => simp [paths]
  | succ h ih =>
    have hleft := ih (child false i)
    have hright := ih (child true i)
    rw [paths, map_append, map_map, map_map]
    change (paths h).map (descend (child false i)) ++
      (paths h).map (descend (child true i)) = _
    have hpos : 0 < 2 ^ h := Nat.two_pow_pos h
    have hnext : 2 ^ h * (2 * i + 2 + 1) = 2 ^ h * (2 * i + 2) + 2 ^ h := Nat.mul_succ _ _
    have hge : 2 ^ h ≤ 2 ^ h * (2 * i + 2) := Nat.le_mul_of_pos_right _ (by omega)
    have hstart : 2 ^ h * (child true i + 1) - 1 =
        2 ^ h * (child false i + 1) - 1 + 2 ^ h := by
      change 2 ^ h * (2 * i + 2 + 1) - 1 = 2 ^ h * (2 * i + 2) - 1 + 2 ^ h
      omega
    rw [hleft, hright, hstart, range'_append_1, Nat.pow_succ, ← Nat.mul_two, Nat.mul_assoc]
    rfl

end

section

variable {h n : Nat} {tree : PLRUTree}

def round (n : Nat) (tree : PLRUTree) : Option (Nat × PLRUTree) :=
  (getVictim n tree (range n)).bind fun leaf =>
    (touch tree (leafIndex n leaf)).map fun tree => (leaf, tree)

def victims (n : Nat) : Nat → PLRUTree → Option (List Nat)
  | 0, _ => some []
  | k + 1, tree => (round n tree).bind fun r => (victims n k r.2).map (r.1 :: ·)

theorem round_spec (hn : 2 ≤ n) (htree : tree.length = n - 1) :
    ∃ leaf tree', round n tree = some (leaf, tree') ∧ tree'.length = n - 1 := by
  obtain ⟨path, leaf, hpoints, hpath, hlength, hleaf⟩ := exists_victim hn htree
  have hvictim : getVictim n tree (range n) = some leaf := by
    rw [getVictim_of_points hn htree length_range hpoints hpath hlength,
      getElem?_range hleaf]
  obtain ⟨tree', htouch, htree', -⟩ := getVictim_touch hn htree length_range hleaf
  refine ⟨leaf, tree', ?_, htree'⟩
  rw [round, hvictim, Option.bind_some, htouch]
  rfl

theorem round_perfect (hh : 0 < h) (htree : tree.length = 2 ^ h - 1) :
    ∃ tree', round (2 ^ h) tree = some (descend 0 (decode tree h 0).pick - (2 ^ h - 1), tree') ∧
      tree'.length = 2 ^ h - 1 ∧ decode tree' h 0 = (decode tree h 0).turn := by
  have hn : 2 ≤ 2 ^ h := Nat.pow_le_pow_right Nat.two_pos hh
  have hperfect := perfect_root htree
  have hpoints := points_pick hperfect
  have hturn := decode_setPath hperfect
  set path := (decode tree h 0).pick with hpick
  have hlength : path.length = h := length_pick _
  have hge := (hperfect path).2 hlength
  obtain ⟨-, hupper⟩ := descend_bounds 0 path
  rw [hlength] at hupper
  have hleaf : descend 0 path = leafIndex (2 ^ h) (descend 0 path - (2 ^ h - 1)) := by
    unfold leafIndex
    omega
  have hlt : descend 0 path - (2 ^ h - 1) < 2 ^ h := by omega
  have hvictim : getVictim (2 ^ h) tree (range (2 ^ h)) =
      some (descend 0 path - (2 ^ h - 1)) := by
    have hshort : h < 2 ^ h := Nat.lt_two_pow_self
    rw [getVictim_of_points hn htree length_range hpoints hleaf (by omega),
      getElem?_range hlt]
  obtain ⟨path', right, hpath', -, htouch⟩ := update_leaf (!·) hn htree hlt
  have hsame : path' ++ [right] = path := descend_injective 0 (hpath'.trans hleaf.symm)
  rw [hsame] at htouch
  refine ⟨setPath (!·) tree 0 path, ?_, by rw [length_setPath, htree], hturn⟩
  rw [round, hvictim, Option.bind_some, touch, htouch]
  rfl

private theorem victims_perfect (hh : 0 < h) (k : Nat) (htree : tree.length = 2 ^ h - 1) :
    victims (2 ^ h) k tree =
      some (((decode tree h 0).picks k).map fun path => descend 0 path - (2 ^ h - 1)) := by
  induction k generalizing tree with
  | zero => rfl
  | succ k ih =>
    obtain ⟨tree', hround, htree', hturn⟩ := round_perfect hh htree
    rw [victims, hround, Option.bind_some, ih htree', hturn]
    rfl

private theorem victims_perm (hh : 0 < h) (htree : tree.length = 2 ^ h - 1) :
    ∃ vs, victims (2 ^ h) (2 ^ h) tree = some vs ∧ vs.Perm (range (2 ^ h)) := by
  refine ⟨_, victims_perfect hh _ htree, ?_⟩
  have hleaves : (paths h).map (fun path => descend 0 path - (2 ^ h - 1)) =
      range (2 ^ h) := by
    change (paths h).map ((· - (2 ^ h - 1)) ∘ descend 0) = _
    rw [← map_map, map_descend_paths, Nat.mul_one,
      map_sub_range' (Nat.le_refl _), Nat.sub_self, range_eq_range']
  rw [← hleaves]
  exact (picks_perm _).map _

private theorem victims_drop (hh : 0 < h) (m : Nat) (htree : tree.length = 2 ^ h - 1) :
    ∃ vs, victims (2 ^ h) (m + 2 ^ h) tree = some vs ∧
      (vs.drop m).Perm (range (2 ^ h)) := by
  induction m generalizing tree with
  | zero =>
    rw [Nat.zero_add]
    exact victims_perm hh htree
  | succ m ih =>
    have hn : 2 ≤ 2 ^ h := Nat.pow_le_pow_right Nat.two_pos hh
    obtain ⟨leaf, tree', hround, htree'⟩ := round_spec hn htree
    obtain ⟨vs, hvs, hperm⟩ := ih htree'
    refine ⟨leaf :: vs, ?_, hperm⟩
    rw [Nat.succ_add, victims, hround, Option.bind_some, hvs]
    rfl

end

section

variable {n : Nat}

def TreePLRU.after (n : Nat) : Nat → TreePLRU
  | 0 => { numLeaves := n }
  | k + 1 => (after n k).instantiateEntry.2

theorem TreePLRU.instantiateEntry_after (k : Nat) :
    (after n k).instantiateEntry =
      (⟨leafIndex n (k % n), k / n⟩,
        ⟨n, k + 1, replicate (k / n + 1) (replicate (n - 1) false)⟩) := by
  induction k with
  | zero => simp [after, instantiateEntry, leafIndex]
  | succ k ih =>
    rw [after, ih, instantiateEntry]
    by_cases hnew : (k + 1) % n = 0
    · have hdiv : (k + 1) / n = k / n + 1 := by
        rw [Nat.succ_div, if_pos (Nat.dvd_of_mod_eq_zero hnew)]
      simp [hnew, hdiv, leafIndex, replicate_succ']
    · have hdiv : (k + 1) / n = k / n := by
        rw [Nat.succ_div, if_neg fun hdvd => hnew (Nat.mod_eq_zero_of_dvd hdvd), Nat.add_zero]
      simp [hnew, hdiv, leafIndex]

end

theorem tree_plru_correct {α : Type} {n : Nat} (hn : 2 ≤ n) {tree : PLRUTree}
    (htree : tree.length = n - 1) :
    (∀ (ops : List Op) (candidates : List α), (∀ op ∈ ops, op.leaf < n) → candidates.length = n →
      ∃ tree', ops.foldlM (Op.apply n) tree = some tree' ∧
        ∃ victim < n, getVictim n tree' candidates = candidates[victim]? ∧
          ∀ op ∈ ops.getLast?, op.Allows victim) ∧
    ∀ h m, n = 2 ^ h → ∃ vs, victims n (m + n) tree = some vs ∧ (vs.drop m).Perm (range n) := by
  refine ⟨?_, ?_⟩
  · intro ops candidates hops hcandidates
    obtain ⟨tree', hrun, -, victim, hvictim, hallows, heq⟩ := run_spec hn hcandidates ops htree hops
    exact ⟨tree', hrun, victim, hvictim, heq, hallows⟩
  · rintro h m rfl
    have hh : 0 < h := Nat.pos_of_ne_zero fun hzero => by simp [hzero] at hn
    exact victims_drop hh m htree

theorem tree_plru_correct_three :
    (∃ tree', [Op.touch 1, .invalidate 0, .reset 2].foldlM (Op.apply 3) [true, false] = some tree' ∧
      ∃ victim < 3, getVictim 3 tree' [10, 11, 12] = [10, 11, 12][victim]? ∧ victim ≠ 2) ∧
    ∃ vs, victims 4 (3 + 4) [false, true, true] = some vs ∧ (vs.drop 3).Perm [0, 1, 2, 3] := by
  refine ⟨?_, (tree_plru_correct (α := Nat) (by decide) rfl).2 2 3 rfl⟩
  have htree : [true, false].length = 3 - 1 := rfl
  obtain ⟨tree', hrun, victim, hlt, heq, hallows⟩ :=
    (tree_plru_correct (by decide) htree).1 [.touch 1, .invalidate 0, .reset 2] [10, 11, 12]
      (by simp [Op.leaf]) rfl
  exact ⟨tree', hrun, victim, hlt, heq, hallows (.reset 2) rfl⟩

end Gem5Core.Mem.TreePlru
