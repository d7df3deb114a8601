import Gem5Core.Lib.Protocol
import Gem5Core.O3.Lsq

/-! The accounting of the store queue: a store which may write back stays queued until it is
completed. -/
namespace Gem5Core.O3.Lsq
open Pred.Branch Lib.Protocol Lib.Indexed
open List hiding lookup

namespace LSQUnit

variable {p : Params} {u v : LSQUnit}

def awaitsWB (st : SQEntry) : Bool := st.canWB && !st.completed

structure StoresWf (u : LSQUnit) : Prop where
  sorted : ∀ i j a b, u.storeAt i = some a → u.storeAt j = some b → i < j →
    a.inst.seqNum < b.inst.seqNum
  inOrder : ∀ i j a b, u.storeAt i = some a → u.storeAt j = some b → i < j →
    b.canWB = true → a.canWB = true
  counted : u.storesToWB = u.storeQueue.countP awaitsWB
  low : u.storeHead ≤ u.storeWBIt
  high : u.storeWBIt ≤ u.storeEnd
  past : ∀ i st, u.storeAt i = some st → i < u.storeWBIt → st.canWB = true
  ahead : ∀ i st, u.storeAt i = some st → u.storeWBIt ≤ i → st.completed = false
  logged : ∀ i st, u.storeAt i = some st → st.completed = true → st.inst.seqNum ∈ u.completions
  blocked : u.isStoreBlocked = true → ∃ st, u.storeAt u.storeWBIt = some st ∧ st.canWB = true

theorem storesWf_start : StoresWf {} where
  sorted := by simp [storeAt, lookup]
  inOrder := by simp [storeAt, lookup]
  counted := rfl
  low := le_rfl
  high := le_rfl
  past := by simp [storeAt, lookup]
  ahead := by simp [storeAt, lookup]
  logged := by simp [storeAt, lookup]
  blocked := fun h => absurd h Bool.false_ne_true

/-- What may write back in `u` does so in `v`, or was completed on the way. -/
structure Keeps (u v : LSQUnit) : Prop where
  completions : u.completions ⊆ v.completions
  stores : ∀ i st, u.storeAt i = some st → st.canWB = true →
    (∃ st', v.storeAt i = some st' ∧ st'.inst = st.inst ∧ st'.canWB = true) ∨
      st.inst.seqNum ∈ v.completions

theorem Keeps.refl (u : LSQUnit) : Keeps u u where
  completions := Subset.refl _
  stores := fun _ st hst hwb => .inl ⟨st, hst, rfl, hwb⟩

theorem Keeps.trans {w : LSQUnit} (h : Keeps u v) (h' : Keeps v w) : Keeps u w where
  completions := Subset.trans h.completions h'.completions
  stores := by
    intro i st hst hwb
    rcases h.stores i st hst hwb with ⟨st', hst', hinst, hwb'⟩ | hc
    · rw [← hinst]
      rcases h'.stores i st' hst' hwb' with ⟨st'', hst'', hinst', hwb''⟩ | hc
      · exact .inl ⟨st'', hst'', hinst', hwb''⟩
      · exact .inr hc
    · exact .inr (h'.completions hc)

structure StoresStay (u v : LSQUnit) : Prop where
  wf : StoresWf v
  keeps : Keeps u v

/-- The state of the store queue. -/
def stores (u : LSQUnit) :=
  (u.storeQueue, u.storeHead, u.storeWBIt, u.storesToWB, u.isStoreBlocked, u.completions)

def SameStores (u v : LSQUnit) : Prop := v.stores = u.stores

section

variable (h : SameStores u v)
include h

theorem SameStores.storeQueue : v.storeQueue = u.storeQueue := congrArg (·.1) h

theorem SameStores.storeHead : v.storeHead = u.storeHead := congrArg (·.2.1) h

theorem SameStores.storeWBIt : v.storeWBIt = u.storeWBIt := congrArg (·.2.2.1) h

theorem SameStores.storeAt (i : Nat) : v.storeAt i = u.storeAt i := by
  simp only [LSQUnit.storeAt, h.storeHead, h.storeQueue]

theorem SameStores.stay (hw : StoresWf u) : StoresStay u v := by
  cases u
  cases v
  cases h
  exact ⟨{ hw with }, { Keeps.refl _ with }⟩

end

private theorem sameStores_read (load_idx : Nat) (isAtCommit accepted : Bool) :
    SameStores u (u.read load_idx isAtCommit accepted) := by
  unfold read
  split
  · exact rfl
  · split <;> exact rfl

theorem sameStores_checkViolations (loadIt : Nat) (inst : DynInst) (isLoad : Bool) :
    SameStores u (u.checkViolations p loadIt inst isLoad) := rfl

theorem sameStores_executeLoad (load_idx : Nat) (outcome : Outcome) (isAtCommit accepted : Bool) :
    SameStores u (u.executeLoad p load_idx outcome isAtCommit accepted) := by
  have hread : SameStores u ((u.modifyLoad load_idx fun ld => { ld with effAddrValid := true }).read
      load_idx isAtCommit accepted) :=
    sameStores_read load_idx isAtCommit accepted
  unfold executeLoad
  split
  · exact rfl
  · split
    · exact rfl
    · cases outcome with
      | delayed => exact rfl
      | notAccessed => exact rfl
      | accessed =>
        dsimp only
        split
        · exact rfl
        · split
          · exact (sameStores_checkViolations _ _ _).trans hread
          · exact hread

theorem sameStores_checkSnoop (addr : Addr) : SameStores u (u.checkSnoop p addr) := by
  unfold checkSnoop
  split
  · exact rfl
  · exact rfl

section
variable {idx : Nat} {st : SQEntry} {f : SQEntry → SQEntry}

/-- The entries of `v` are those of `u` with the same indices, perhaps marked further; those
in front of its head have been completed. -/
theorem StoresWf.of_entries (hw : StoresWf u)
    (hfrom : ∀ j a, v.storeAt j = some a → ∃ b, u.storeAt j = some b ∧ a.inst = b.inst ∧
      (b.canWB = true → a.canWB = true) ∧ (a.completed = true →
        b.completed = true ∨ j < u.storeWBIt ∧ a.inst.seqNum ∈ v.completions))
    (hinto : ∀ j a, u.storeAt j = some a → a.canWB = true →
      (∃ b, v.storeAt j = some b ∧ b.inst = a.inst ∧ b.canWB = true) ∨
        j < v.storeHead ∧ a.inst.seqNum ∈ v.completions)
    (hcompletions : u.completions ⊆ v.completions) (hit : v.storeWBIt = u.storeWBIt)
    (hblocked : v.isStoreBlocked = u.isStoreBlocked) (hlow : v.storeHead ≤ v.storeWBIt)
    (hhigh : v.storeWBIt ≤ v.storeEnd)
    (horder : ∀ i j a b, v.storeAt i = some a → v.storeAt j = some b → i < j →
      b.canWB = true → a.canWB = true)
    (hcounted : v.storesToWB = v.storeQueue.countP awaitsWB) : StoresStay u v where
  wf := {
    sorted := by
      intro i j a b hi hj hij
      obtain ⟨a', ha', hai, -⟩ := hfrom i a hi
      obtain ⟨b', hb', hbi, -⟩ := hfrom j b hj
      rw [hai, hbi]
      exact hw.sorted i j a' b' ha' hb' hij
    inOrder := horder
    counted := hcounted
    low := hlow
    high := hhigh
    past := by
      intro i a ha hi
      obtain ⟨b, hb, -, hcan, -⟩ := hfrom i a ha
      exact hcan (hw.past i b hb (hit ▸ hi))
    ahead := by
      intro i a ha hi
      obtain ⟨b, hb, -, -, hcompl⟩ := hfrom i a ha
      rw [hit] at hi
      by_contra hc
      rcases hcompl (Bool.of_not_eq_false hc) with h | ⟨h, -⟩
      · exact absurd (hw.ahead i b hb hi) (by simp [h])
      · omega
    logged := by
      intro i a ha hc
      obtain ⟨b, hb, hinst, -, hcompl⟩ := hfrom i a ha
      rcases hcompl hc with h | ⟨-, h⟩
      · rw [hinst]
        exact hcompletions (hw.logged i b hb h)
      · exact h
    blocked := by
      intro hb
      obtain ⟨a, ha, hac⟩ := hw.blocked (hblocked ▸ hb)
      rcases hinto _ a ha hac with ⟨b, hb, -, hbc⟩ | ⟨hlt, -⟩
      · exact ⟨b, hit ▸ hb, hbc⟩
      · omega }
  keeps := ⟨hcompletions, fun j a ha hac => (hinto j a ha hac).imp_right And.right⟩

theorem storeAt_modifyStore (h : u.storeAt idx = some st) (f : SQEntry → SQEntry) (j : Nat) :
    (u.modifyStore idx f).storeAt j = if j = idx then some (f st) else u.storeAt j :=
  lookup_modify h f j

theorem storeAt_of_modifyStore (h : u.storeAt idx = some st) {j : Nat} {a : SQEntry}
    (ha : (u.modifyStore idx f).storeAt j = some a) :
    j = idx ∧ a = f st ∨ j ≠ idx ∧ u.storeAt j = some a := by
  rw [storeAt_modifyStore h] at ha
  exact some_of_ite ha

theorem storeEnd_modifyStore (idx : Nat) (f : SQEntry → SQEntry) :
    (u.modifyStore idx f).storeEnd = u.storeEnd := by
  simp [storeEnd, modifyStore]

theorem into_modifyStore (hst : u.storeAt idx = some st) (hinst : (f st).inst = st.inst)
    (hcan : st.canWB = true → (f st).canWB = true) {j : Nat} {a : SQEntry}
    (ha : u.storeAt j = some a) (hac : a.canWB = true) :
    ∃ b, (u.modifyStore idx f).storeAt j = some b ∧ b.inst = a.inst ∧ b.canWB = true := by
  rw [storeAt_modifyStore hst]
  split
  · next hj =>
    rw [hj, hst] at ha
    cases ha
    exact ⟨_, rfl, hinst, hcan hac⟩
  · exact ⟨a, ha, rfl, hac⟩

theorem StoresWf.retouch (hw : StoresWf u) (hst : u.storeAt idx = some st)
    (hinst : (f st).inst = st.inst) (hcan : (f st).canWB = st.canWB)
    (hcompl : (f st).completed = st.completed) : StoresStay u (u.modifyStore idx f) := by
  have hcount : (u.storeQueue.modify (idx - u.storeHead) f).countP awaitsWB =
      u.storeQueue.countP awaitsWB := by
    have h := countP_modify awaitsWB f hst
    have heq : awaitsWB (f st) = awaitsWB st := by simp only [awaitsWB, hcan, hcompl]
    rw [heq] at h
    omega
  apply hw.of_entries (v := u.modifyStore idx f) _ _ (Subset.refl _) rfl rfl hw.low
    (hw.high.trans_eq (storeEnd_modifyStore idx f).symm)
  · have := hw.inOrder
    have hat := storeAt_modifyStore hst f
    grind
  · exact hw.counted.trans (by rw [modifyStore, hcount])
  · intro j a ha
    rcases storeAt_of_modifyStore hst ha with ⟨rfl, rfl⟩ | ⟨-, ha⟩
    · exact ⟨st, hst, hinst, fun hc => hcan.trans hc, fun hc => .inl (hcompl ▸ hc)⟩
    · exact ⟨a, ha, rfl, id, .inl⟩
  · exact fun j a ha hac => .inl (into_modifyStore hst hinst hcan.trans ha hac)

theorem StoresWf.allowWB (hw : StoresWf u) (hst : u.storeAt idx = some st) (hcan : st.canWB = false)
    (holder : ∀ j a, u.storeAt j = some a → j < idx → a.canWB = true) :
    StoresStay u (u.allowWB idx) := by
  have hahead : u.storeWBIt ≤ idx := by
    by_contra hlt
    exact absurd (hw.past idx st hst (Nat.lt_of_not_le hlt)) (by simp [hcan])
  have hcompl := hw.ahead idx st hst hahead
  apply hw.of_entries (v := u.allowWB idx) _ _ (Subset.refl _) rfl rfl hw.low
    (hw.high.trans_eq (storeEnd_modifyStore idx _).symm)
  · intro i j a b hi hj hij hb
    rcases storeAt_of_modifyStore hst hi with ⟨-, rfl⟩ | ⟨-, hi'⟩
    · rfl
    · rcases storeAt_of_modifyStore hst hj with ⟨rfl, -⟩ | ⟨-, hj'⟩
      · exact holder i a hi' hij
      · exact hw.inOrder i j a b hi' hj' hij hb
  · have h := countP_modify awaitsWB ({ · with canWB := true }) hst
    simp only [awaitsWB, hcan, hcompl, Bool.not_false, Bool.and_true, Bool.false_eq_true, ↓reduceIte]
      at h
    have := hw.counted
    dsimp only [LSQUnit.allowWB]
    omega
  · intro j a ha
    rcases storeAt_of_modifyStore hst ha with ⟨rfl, rfl⟩ | ⟨-, ha⟩
    · exact ⟨st, hst, rfl, fun _ => rfl, .inl⟩
    · exact ⟨a, ha, rfl, id, .inl⟩
  · exact fun j a ha hac => .inl (into_modifyStore hst rfl (fun _ => rfl) ha hac)

end

theorem storeAt_insertStore (inst : DynInst) (i : Nat) :
    (u.insertStore p inst).storeAt i =
      if i = u.storeEnd then some { inst, lqIt := u.loadEnd } else u.storeAt i :=
  lookup_concat u.storeHead u.storeQueue _ i

theorem StoresWf.insertStore (hw : StoresWf u) {inst : DynInst}
    (hnew : ∀ st ∈ u.storeQueue, st.inst.seqNum < inst.seqNum) :
    StoresStay u (u.insertStore p inst) := by
  have hat := storeAt_insertStore (p := p) (u := u) inst
  have hkeep : ∀ i st, u.storeAt i = some st → (u.insertStore p inst).storeAt i = some st := by
    intro i st hst
    have := (bounds_of_lookup hst).2
    rw [hat, if_neg (by rw [storeEnd]; omega), hst]
  have hfrom : ∀ i st, (u.insertStore p inst).storeAt i = some st →
      i = u.storeEnd ∧ st = { inst, lqIt := u.loadEnd } ∨ i < u.storeEnd ∧ u.storeAt i = some st := by
    intro i st hst
    rw [hat] at hst
    split at hst
    · next hi => exact .inl ⟨hi, (Option.some.inj hst).symm⟩
    · exact .inr ⟨(bounds_of_lookup hst).2, hst⟩
  constructor
  · constructor
    case sorted =>
      intro i j a b hi hj hij
      rcases hfrom i a hi with ⟨rfl, rfl⟩ | ⟨hlt, hi⟩
      · rcases hfrom j b hj with ⟨rfl, -⟩ | ⟨hlt, -⟩ <;> omega
      · rcases hfrom j b hj with ⟨rfl, rfl⟩ | ⟨-, hj⟩
        · exact hnew a (mem_of_lookup hi)
        · exact hw.sorted i j a b hi hj hij
    case inOrder =>
      intro i j a b hi hj hij hb
      rcases hfrom j b hj with ⟨rfl, rfl⟩ | ⟨hlt, hj⟩
      · exact absurd hb Bool.false_ne_true
      · rcases hfrom i a hi with ⟨rfl, -⟩ | ⟨-, hi⟩
        · omega
        · exact hw.inOrder i j a b hi hj hij hb
    case counted =>
      have := hw.counted
      simpa [LSQUnit.insertStore, countP_append, awaitsWB] using this
    case low => exact hw.low
    case high =>
      have := hw.high
      simp only [storeEnd, LSQUnit.insertStore, length_append] at this ⊢
      omega
    case past =>
      intro i st hst hi
      rcases hfrom i st hst with ⟨rfl, -⟩ | ⟨-, hst⟩
      · exact absurd hi hw.high.not_gt
      · exact hw.past i st hst hi
    case ahead =>
      intro i st hst hi
      rcases hfrom i st hst with ⟨-, rfl⟩ | ⟨-, hst⟩
      · rfl
      · exact hw.ahead i st hst hi
    case logged =>
      intro i st hst hc
      rcases hfrom i st hst with ⟨-, rfl⟩ | ⟨-, hst⟩
      · exact absurd hc Bool.false_ne_true
      · exact hw.logged i st hst hc
    case blocked =>
      intro hb
      obtain ⟨st, hst, hcan⟩ := hw.blocked hb
      exact ⟨st, hkeep _ st hst, hcan⟩
  · exact ⟨Subset.refl _, fun i st hst hcan => .inl ⟨st, hkeep i st hst, rfl, hcan⟩⟩

section
variable {youngest_inst : InstSeqNum}

def marked (youngest_inst : InstSeqNum) (st : SQEntry) : SQEntry :=
  { st with canWB := st.canWB || decide (st.inst.seqNum ≤ youngest_inst) }

theorem markStores_eq {l : List SQEntry} (hs : l.Pairwise (·.inst.seqNum < ·.inst.seqNum)) :
    (markStores youngest_inst l).1 = l.map (marked youngest_inst) := by
  induction l with
  | nil => rfl
  | cons x rest ih =>
    obtain ⟨hx, hrest⟩ := pairwise_cons.mp hs
    rw [markStores, map_cons]
    split
    · next hcan =>
      have hself : marked youngest_inst x = x := by
        rw [marked, hcan, Bool.true_or, ← hcan]
      rw [ih hrest, hself]
    · next hcan =>
      split
      · next hlt =>
        -- every store behind this one is younger still
        have hself : ∀ st ∈ rest, marked youngest_inst st = id st := by
          intro st hst
          simp [marked, (hlt.trans (hx st hst)).not_ge]
        rw [map_congr_left hself]
        simp [marked, hlt.not_ge]
      · next hle => simp [ih hrest, marked, Nat.le_of_not_lt hle]

theorem countP_markStores (youngest_inst : InstSeqNum) {l : List SQEntry} (hl : ∀ st ∈ l, st.completed = true → st.canWB = true) :
    (markStores youngest_inst l).1.countP awaitsWB =
      l.countP awaitsWB + (markStores youngest_inst l).2 := by
  induction l with
  | nil => rfl
  | cons x rest ih =>
    have hrest := ih fun st hst => hl st (mem_cons_of_mem _ hst)
    rw [markStores]
    split
    · simp only [countP_cons]
      omega
    · next hcan =>
      have hcompl : x.completed = false := by
        by_contra hc
        exact hcan (hl x mem_cons_self (Bool.of_not_eq_false hc))
      split
      · rfl
      · simp only [countP_cons, awaitsWB, hcan, hcompl] at hrest ⊢
        simp only [Bool.not_false, Bool.and_true, Bool.false_eq_true, ↓reduceIte]
        omega

theorem StoresWf.pairwise (hw : StoresWf u) : u.storeQueue.Pairwise (·.inst.seqNum < ·.inst.seqNum) :=
  (pairwise_iff u.storeHead).mpr hw.sorted

theorem StoresWf.canWB_of_completed (hw : StoresWf u) {i : Nat} {st : SQEntry}
    (hst : u.storeAt i = some st) (hc : st.completed = true) : st.canWB = true := by
  by_cases hi : i < u.storeWBIt
  · exact hw.past i st hst hi
  · exact absurd (hw.ahead i st hst (Nat.le_of_not_lt hi)) (by simp [hc])

theorem storeAt_commitStores (hw : StoresWf u) (youngest_inst : InstSeqNum) (i : Nat) :
    (u.commitStores youngest_inst).storeAt i = (u.storeAt i).map (marked youngest_inst) := by
  simp only [storeAt, commitStores, markStores_eq hw.pairwise, lookup_map]

theorem StoresWf.commitStores (hw : StoresWf u) (youngest_inst : InstSeqNum) :
    StoresStay u (u.commitStores youngest_inst) := by
  have hat := storeAt_commitStores hw youngest_inst
  have hfrom : ∀ i st, (u.commitStores youngest_inst).storeAt i = some st →
      ∃ a, u.storeAt i = some a ∧ marked youngest_inst a = st := by
    intro i st hst
    rw [hat] at hst
    exact Option.map_eq_some_iff.mp hst
  have hlength : (u.commitStores youngest_inst).storeEnd = u.storeEnd := by
    simp [storeEnd, LSQUnit.commitStores, markStores_eq hw.pairwise]
  apply hw.of_entries (v := u.commitStores youngest_inst) _ _ (Subset.refl _) rfl rfl
    hw.low (hw.high.trans_eq hlength.symm)
  · intro i j a b hi hj hij hb
    obtain ⟨a, ha, rfl⟩ := hfrom i a hi
    obtain ⟨b, hb', rfl⟩ := hfrom j b hj
    have hlt := hw.sorted i j a b ha hb' hij
    have horder := hw.inOrder i j a b ha hb' hij
    simp only [marked, Bool.or_eq_true, decide_eq_true_eq] at hb ⊢
    rcases hb with hb | hb
    · exact .inl (horder hb)
    · exact .inr (hlt.le.trans hb)
  · have hcount := countP_markStores youngest_inst (l := u.storeQueue) (by
      intro st hst hc
      obtain ⟨i, hi⟩ := exists_lookup_of_mem u.storeHead hst
      exact hw.canWB_of_completed hi hc)
    simp only [LSQUnit.commitStores, hcount, hw.counted, Int.natCast_add]
  · intro i st hst
    obtain ⟨a, ha, rfl⟩ := hfrom i st hst
    exact ⟨a, ha, rfl, fun hc => by simp [marked, hc], .inl⟩
  · intro i st hst hcan
    exact .inl ⟨marked youngest_inst st, by rw [hat, hst]; rfl, rfl, by simp [marked, hcan]⟩

end

section
variable {idx : Nat} {st : SQEntry}

def withCompleted (u : LSQUnit) (idx : Nat) : LSQUnit := u.modifyStore idx ({ · with completed := true })

def goneBy (u : LSQUnit) (idx : Nat) : Nat :=
  if idx == u.storeHead then
    1 + ((u.withCompleted idx).storeQueue.tail.takeWhile (·.completed)).length
  else 0

section

variable (hst : u.storeAt idx = some st)
include hst

theorem completed_of_gone {j : Nat} {a : SQEntry} (ha : (u.withCompleted idx).storeAt j = some a)
    (hj : j < u.storeHead + u.goneBy idx) : a.completed = true := by
  have hlow := (bounds_of_lookup ha).1
  change u.storeHead ≤ j at hlow
  by_cases hidx : idx = u.storeHead
  · rcases storeAt_of_modifyStore hst ha with ⟨-, rfl⟩ | ⟨hne, -⟩
    · rfl
    · -- behind the head, the loop stops at the first store that is not completed
      rw [goneBy, if_pos (beq_iff_eq.mpr hidx)] at hj
      obtain ⟨k, rfl, hk⟩ := lookup_eq_some.mp ha
      obtain ⟨k, rfl⟩ : ∃ m, k = m + 1 := ⟨k - 1, by
        change ¬ u.storeHead + k = idx at hne
        omega⟩
      generalize (u.withCompleted idx).storeQueue = q at hk hj
      change u.storeHead + (k + 1) < _ at hj
      have hmem : a ∈ q.tail.takeWhile (·.completed) := by
        have hlt : k < (q.tail.takeWhile (·.completed)).length := by omega
        have hprefix := IsPrefix.getElem ( takeWhile_prefix (·.completed) (l := q.tail)) hlt
        have hget : q.tail[k]? = some a := by rw [getElem?_tail]; exact hk
        rw [getElem?_eq_some_iff] at hget
        rw [← hget.2, ← hprefix]
        exact getElem_mem hlt
      exact (mem_takeWhile_imp hmem)
  · rw [goneBy, if_neg (by simpa using hidx)] at hj
    omega

theorem completeStore_eq :
    u.completeStore p idx =
      { u.unstall st.inst.seqNum with
        storeQueue := (u.withCompleted idx).storeQueue.drop (u.goneBy idx)
        storeHead := u.storeHead + u.goneBy idx
        storesToWB := u.storesToWB - 1
        completions := u.completions ++ [st.inst.seqNum]
        storeInFlight := u.storeInFlight && !p.needsTSO } := by
  rw [completeStore, hst]
  rfl

theorem storeAt_completeStore (j : Nat) :
    (u.completeStore p idx).storeAt j =
      if u.storeHead + u.goneBy idx ≤ j then (u.withCompleted idx).storeAt j else none := by
  rw [completeStore_eq hst]
  exact lookup_drop _ _ _ j

theorem goneBy_le_length : u.goneBy idx ≤ u.storeQueue.length := by
  have hpos := bounds_of_lookup hst
  have hlength : (u.withCompleted idx).storeQueue.length = u.storeQueue.length := by
    simp [withCompleted, modifyStore]
  have htake := ( takeWhile_prefix (·.completed)
    (l := (u.withCompleted idx).storeQueue.tail)).length_le
  rw [length_tail] at htake
  unfold goneBy
  split <;> omega

theorem storeEnd_completeStore : (u.completeStore p idx).storeEnd = u.storeEnd := by
  have hlength := goneBy_le_length hst
  rw [completeStore_eq hst]
  simp only [storeEnd, length_drop, withCompleted, modifyStore, length_modify]
  omega

theorem storeAt_of_completeStore {j : Nat} {a : SQEntry}
    (ha : (u.completeStore p idx).storeAt j = some a) :
    j = idx ∧ a = { st with completed := true } ∨ u.storeAt j = some a := by
  rw [storeAt_completeStore hst] at ha
  split at ha
  · exact (storeAt_of_modifyStore hst ha).imp_right And.right
  · cases ha

end

theorem goneBy_le (hw : StoresWf u) (hst : u.storeAt idx = some st) (hidx : idx < u.storeWBIt) :
    u.storeHead + u.goneBy idx ≤ u.storeWBIt := by
  have hlength := goneBy_le_length hst
  by_contra hlt
  -- the store at `storeWBIt` would be completed
  obtain ⟨a, ha⟩ : ∃ a, u.storeAt u.storeWBIt = some a :=
    exists_lookup_of_bounds hw.low (by omega)
  have hat : (u.withCompleted idx).storeAt u.storeWBIt = some a := by
    rw [withCompleted, storeAt_modifyStore hst, if_neg (by omega), ha]
  have hcompl := completed_of_gone hst hat (by omega)
  exact absurd (hw.ahead _ a ha le_rfl) (by simp [hcompl])

theorem storeAt_completeStore_of_le (hw : StoresWf u) (hst : u.storeAt idx = some st)
    (hidx : idx < u.storeWBIt) {j : Nat} (hj : u.storeWBIt ≤ j) :
    (u.completeStore p idx).storeAt j = u.storeAt j := by
  rw [storeAt_completeStore hst, if_pos ((goneBy_le hw hst hidx).trans hj), withCompleted,
    storeAt_modifyStore hst, if_neg (by omega)]

theorem countP_completeStore (hst : u.storeAt idx = some st) (hcan : st.canWB = true)
    (hcompl : st.completed = false) :
    (u.completeStore p idx).storeQueue.countP awaitsWB + 1 = u.storeQueue.countP awaitsWB := by
  have hmodify : (u.withCompleted idx).storeQueue.countP awaitsWB + 1 =
      u.storeQueue.countP awaitsWB := by
    have h := countP_modify awaitsWB ({ · with completed := true }) hst
    simpa [withCompleted, modifyStore, awaitsWB, hcan, hcompl] using h
  have hgone : ((u.withCompleted idx).storeQueue.take (u.goneBy idx)).countP awaitsWB = 0 := by
    rw [countP_eq_zero]
    intro a ha
    obtain ⟨j, hj⟩ := exists_lookup_of_mem u.storeHead ha
    rw [lookup_take] at hj
    split at hj
    · next hlt => simp [awaitsWB, completed_of_gone hst hj hlt]
    · cases hj
  have hsplit : (u.withCompleted idx).storeQueue.countP awaitsWB =
      0 + ((u.withCompleted idx).storeQueue.drop (u.goneBy idx)).countP awaitsWB := by
    rw [← hgone, ← countP_append, take_append_drop]
  rw [completeStore_eq hst]
  dsimp only
  omega

theorem StoresWf.completeStore (hw : StoresWf u) (hst : u.storeAt idx = some st)
    (hidx : idx < u.storeWBIt) (hcompl : st.completed = false) :
    StoresStay u (u.completeStore p idx) := by
  have hat := storeAt_completeStore (p := p) hst
  have heq := completeStore_eq (p := p) hst
  have hgone := goneBy_le hw hst hidx
  have hcompletions : (u.completeStore p idx).completions = u.completions ++ [st.inst.seqNum] := by
    rw [heq]
  have hsub : u.completions ⊆ (u.completeStore p idx).completions := by
    rw [hcompletions]
    exact subset_append_left _ _
  have hself : st.inst.seqNum ∈ (u.completeStore p idx).completions := by simp [hcompletions]
  apply hw.of_entries (v := u.completeStore p idx) _ _ hsub
  · rw [heq]; rfl
  · rw [heq]; rfl
  · rw [heq]; exact hgone
  · rw [storeEnd_completeStore hst, heq]
    exact hw.high
  · intro i j a b hi hj hij hb
    have horder : ∀ a' b', u.storeAt i = some a' → u.storeAt j = some b' → b'.canWB = true →
        a'.canWB = true := fun a' b' ha' hb' => hw.inOrder i j a' b' ha' hb' hij
    rcases storeAt_of_completeStore hst hi with ⟨rfl, rfl⟩ | hi' <;>
      rcases storeAt_of_completeStore hst hj with ⟨rfl, rfl⟩ | hj'
    · exact hb
    · exact horder st b hst hj' hb
    · exact horder a st hi' hst hb
    · exact horder a b hi' hj' hb
  · have hcount := countP_completeStore (p := p) hst (hw.past idx st hst hidx) hcompl
    have hdecr : (u.completeStore p idx).storesToWB = u.storesToWB - 1 := by rw [heq]
    have := hw.counted
    omega
  · intro j a ha
    rcases storeAt_of_completeStore hst ha with ⟨rfl, rfl⟩ | ha
    · exact ⟨st, hst, rfl, id, fun _ => .inr ⟨hidx, hself⟩⟩
    · exact ⟨a, ha, rfl, id, .inl⟩
  · intro j a ha hac
    have hhead : (u.completeStore p idx).storeHead = u.storeHead + u.goneBy idx := by rw [heq]
    rw [hat, hhead]
    split
    · exact .inl (into_modifyStore hst rfl id ha hac)
    · next hj =>
      refine .inr ⟨Nat.lt_of_not_le hj, ?_⟩
      by_cases hji : j = idx
      · rw [hji, hst] at ha
        cases ha
        exact hself
      · have hat' : (u.withCompleted idx).storeAt j = some a := by
          rw [withCompleted, storeAt_modifyStore hst, if_neg hji, ha]
        exact hsub (hw.logged j a ha (completed_of_gone hst hat' (Nat.lt_of_not_le hj)))

end

section

variable {st : SQEntry}

theorem StoresWf.advance (hw : StoresWf u) (hst : u.storeAt u.storeWBIt = some st)
    (hcan : st.canWB = true) (hblocked : u.isStoreBlocked = false) :
    StoresStay u (u.moveWBIt (u.storeWBIt + 1)) := by
  have hbounds := bounds_of_lookup hst
  constructor
  · exact { hw with
      low := Nat.le_succ_of_le hw.low
      high := hbounds.2
      past := by
        intro i a ha hi
        rcases Nat.lt_succ_iff_lt_or_eq.mp hi with hi | rfl
        · exact hw.past i a ha hi
        · cases hst.symm.trans ha
          exact hcan
      ahead := fun i a ha hi => hw.ahead i a ha (Nat.le_of_succ_le hi)
      blocked := fun hb => absurd (hblocked.symm.trans hb) Bool.false_ne_true }
  · exact ⟨Subset.refl _, fun i a ha hac => .inl ⟨a, ha, rfl, hac⟩⟩

private theorem completeStore_moveWBIt (idx it : Nat) :
    (u.moveWBIt it).completeStore p idx = (u.completeStore p idx).moveWBIt it := by
  have hat : (u.moveWBIt it).storeAt idx = u.storeAt idx := rfl
  unfold completeStore
  rw [hat]
  cases u.storeAt idx <;> rfl

/-- What `writebackStores` is made of: whatever holds along these steps holds after it. -/
structure WritesBack (p : Params) (Inv : LSQUnit → Prop) : Prop where
  wf : ∀ u, Inv u → StoresWf u
  touch : ∀ u st asserted, Inv u → u.storeAt u.storeWBIt = some st → st.canWB = true →
    Inv (({ u with asserted } : LSQUnit).modifyStore u.storeWBIt ({ · with committed := true }))
  finish : ∀ u st, Inv u → u.storeAt u.storeWBIt = some st → st.canWB = true →
    u.isStoreBlocked = false →
    (st.size = 0 ∨ st.inst.isStoreConditional = true ∨ st.inst.request.isLocalAccess = true) →
    Inv ((u.moveWBIt (u.storeWBIt + 1)).completeStore p u.storeWBIt)
  skip : ∀ u st, Inv u → u.storeAt u.storeWBIt = some st → st.canWB = true →
    u.isStoreBlocked = false → st.inst.isDataPrefetch = true →
    Inv (u.moveWBIt (u.storeWBIt + 1))
  send : ∀ u st, Inv u → u.storeAt u.storeWBIt = some st → st.canWB = true →
    Inv ((u.setBlocked false).storePostSend p)
  block : ∀ u st, Inv u → u.storeAt u.storeWBIt = some st → st.canWB = true →
    Inv (u.setBlocked true)

variable {Inv : LSQUnit → Prop}

theorem WritesBack.sendStore (h : WritesBack p Inv) (hu : Inv u)
    (hst : u.storeAt u.storeWBIt = some st) (hcan : st.canWB = true) (a : Answer) :
    Inv (u.sendStore p a) := by
  unfold LSQUnit.sendStore
  split
  · exact h.send u st hu hst hcan
  · exact h.block u st hu hst hcan

theorem WritesBack.blockedStore (h : WritesBack p Inv) (hu : Inv u) (a : Answer) :
    Inv (u.writebackBlockedStore p a) := by
  unfold writebackBlockedStore
  split
  · next hb =>
    obtain ⟨st, hst, hcan⟩ := (h.wf u hu).blocked hb
    exact h.sendStore hu hst hcan a
  · exact hu

theorem storeEnd_of_empty (hw : StoresWf u) (hst : u.storeAt u.storeWBIt = some st)
    (hempty : (u.completeStore p u.storeWBIt).storeQueue = []) :
    (u.completeStore p u.storeWBIt).storeEnd = u.storeWBIt + 1 := by
  have hbounds := bounds_of_lookup hst
  have hlength := goneBy_le_length hst
  have hgone : u.storeQueue.length ≤ u.goneBy u.storeWBIt := by
    rw [completeStore_eq hst] at hempty
    simpa [withCompleted, modifyStore] using hempty
  have hlast : u.storeHead + u.storeQueue.length ≤ u.storeWBIt + 1 := by
    by_contra hlt
    -- the next store would have left with this one
    obtain ⟨a, ha⟩ : ∃ a, u.storeAt (u.storeWBIt + 1) = some a :=
      exists_lookup_of_bounds (Nat.le_succ_of_le hw.low) (by omega)
    have hat : (u.withCompleted u.storeWBIt).storeAt (u.storeWBIt + 1) = some a := by
      rw [withCompleted, storeAt_modifyStore hst, if_neg (by omega), ha]
    have hcompl := completed_of_gone hst hat (by omega)
    exact absurd (hw.ahead _ a ha (Nat.le_succ _)) (by simp [hcompl])
  rw [storeEnd, hempty, completeStore_eq hst, length_nil]
  dsimp only
  omega

theorem storeWBIt_completeStore (idx : Nat) : (u.completeStore p idx).storeWBIt = u.storeWBIt := by
  unfold completeStore
  split <;> rfl

private theorem next_of_failed (hw : StoresWf u) (hst : u.storeAt u.storeWBIt = some st) :
    (if (u.completeStore p u.storeWBIt).storeQueue.isEmpty then
        (u.completeStore p u.storeWBIt).storeEnd
      else (u.completeStore p u.storeWBIt).storeWBIt + 1) = u.storeWBIt + 1 := by
  split
  · next hempty => exact storeEnd_of_empty hw hst (isEmpty_iff.mp hempty)
  · rw [storeWBIt_completeStore]

theorem WritesBack.loop (h : WritesBack p Inv) (answers : List Answer) :
    ∀ u, Inv u → Inv (writebackLoop p u answers) := by
  induction answers with
  | nil => exact fun u hu => hu
  | cons a answers ih =>
    intro u hu
    unfold writebackLoop
    split
    · exact hu
    · next st hst =>
      split
      · exact hu
      next hguard =>
      obtain ⟨hcan, hblocked⟩ : st.canWB = true ∧ u.isStoreBlocked = false := by
        cases hc : st.canWB <;> cases hb : u.isStoreBlocked <;> simp_all
      split
      · next hsize =>
        exact ih _ (h.finish u st hu hst hcan hblocked (.inl (beq_iff_eq.mp hsize)))
      split
      · next hpf => exact ih _ (h.skip u st hu hst hcan hblocked hpf)
      split
      · exact hu
      -- the store is marked as committed and then goes to memory
      dsimp only
      generalize hasserted : (u.asserted && !st.committed) = asserted
      have htouch := h.touch u st asserted hu hst hcan
      have hst' : (({ u with asserted } : LSQUnit).modifyStore u.storeWBIt
          ({ · with committed := true })).storeAt u.storeWBIt = some { st with committed := true } := by
        rw [storeAt_modifyStore (u := { u with asserted }) hst, if_pos rfl]
      split
      · next hsc =>
        rw [next_of_failed (h.wf _ htouch) hst', ← completeStore_moveWBIt]
        exact ih _ (h.finish _ _ htouch hst' hcan hblocked
          (.inr (.inl (Bool.and_eq_true_iff.mp hsc).1)))
      split
      · next hlocal =>
        rw [storeWBIt_completeStore, ← completeStore_moveWBIt]
        exact ih _ (h.finish _ _ htouch hst' hcan hblocked (.inr (.inr hlocal)))
      · exact ih _ (h.sendStore htouch hst' hcan a)

theorem WritesBack.writebackStores (h : WritesBack p Inv) (hu : Inv u) (blocked : Answer)
    (answers : List Answer) : Inv (u.writebackStores p blocked answers) :=
  h.loop answers _ (h.blockedStore hu blocked)

theorem storePostSend_eq (hst : u.storeAt u.storeWBIt = some st) : u.storePostSend p =
      { u.unstall st.inst.seqNum with
        storeInFlight := u.storeInFlight || p.needsTSO
        storeWBIt := u.storeWBIt + 1
        sent := u.sent ++ [st] } := by
  rw [storePostSend, hst]
  rfl

theorem StoresWf.storePostSend (hw : StoresWf u) (hst : u.storeAt u.storeWBIt = some st)
    (hcan : st.canWB = true) (hblocked : u.isStoreBlocked = false) :
    StoresStay u (u.storePostSend p) := by
  have h := hw.advance hst hcan hblocked
  have hsame : SameStores (u.moveWBIt (u.storeWBIt + 1)) (u.storePostSend p) := by
    rw [storePostSend_eq hst]
    exact rfl
  have h' := hsame.stay h.wf
  exact ⟨h'.wf, h.keeps.trans h'.keeps⟩

theorem writesBack_stay (start : LSQUnit) : WritesBack p (StoresStay start) where
  wf := fun u hu => hu.wf
  touch := by
    intro u st asserted hu hst hcan
    have hsame : SameStores u { u with asserted } := rfl
    have h := (hsame.stay hu.wf).wf.retouch (f := ({ · with committed := true })) hst rfl rfl rfl
    exact ⟨h.wf, (hu.keeps.trans (hsame.stay hu.wf).keeps).trans h.keeps⟩
  finish := by
    intro u st hu hst hcan hblocked _
    have h := hu.wf.advance hst hcan hblocked
    have h' := h.wf.completeStore (p := p) hst (Nat.lt_succ_self _)
      (hu.wf.ahead _ st hst le_rfl)
    exact ⟨h'.wf, (hu.keeps.trans h.keeps).trans h'.keeps⟩
  skip := by
    intro u st hu hst hcan hblocked _
    have h := hu.wf.advance hst hcan hblocked
    exact ⟨h.wf, hu.keeps.trans h.keeps⟩
  send := by
    intro u st hu hst hcan
    have hw : StoresWf (u.setBlocked false) :=
      { hu.wf with blocked := fun hb => absurd hb Bool.false_ne_true }
    have h := hw.storePostSend (p := p) hst hcan rfl
    exact ⟨h.wf, hu.keeps.trans { h.keeps with }⟩
  block := by
    intro u st hu hst hcan
    have hw := hu.wf
    exact ⟨{ hw with blocked := fun _ => ⟨st, hst, hcan⟩ },
      hu.keeps.trans ⟨Subset.refl _, fun i a ha hac => .inl ⟨a, ha, rfl, hac⟩⟩⟩

end

section
variable {squashed_num : InstSeqNum}

def spared (squashed_num : InstSeqNum) (st : SQEntry) : Bool :=
  decide (st.inst.seqNum ≤ squashed_num) || st.canWB

private theorem not_spared (st : SQEntry) :
    (decide (squashed_num < st.inst.seqNum) && !st.canWB) = !spared squashed_num st := by
  rw [spared, Bool.not_or, ← decide_not, decide_eq_decide.mpr Nat.not_le]

theorem squashStores_eq (squashed_num : InstSeqNum) (l : List SQEntry) (hl : u.storeQueue = l.reverse) :
    ∃ asserted, squashStores squashed_num l u =
      { u with storeQueue := (l.dropWhile fun st => !spared squashed_num st).reverse, asserted } := by
  induction l generalizing u with
  | nil => exact ⟨u.asserted, by rw [squashStores, dropWhile_nil, ← hl]⟩
  | cons st older ih =>
    rw [squashStores, not_spared, dropWhile_cons]
    split
    · exact ih (u := u.popStore st) (by simp [popStore, hl])
    · exact ⟨u.asserted, by rw [← hl]⟩

theorem squashLoads_eq (squashed_num : InstSeqNum) (l : List LQEntry) (hl : u.loadQueue = l.reverse) :
    ∃ stalled stallingStoreIsn stallingLoadIdx, squashLoads squashed_num l u =
      { u with
        loadQueue := (l.dropWhile fun ld => decide (squashed_num < ld.inst.seqNum)).reverse
        stalled, stallingStoreIsn, stallingLoadIdx } := by
  induction l generalizing u with
  | nil => exact ⟨_, _, _, by rw [squashLoads, dropWhile_nil, ← hl]⟩
  | cons ld older ih =>
    rw [squashLoads, dropWhile_cons]
    simp only [decide_eq_true_eq]
    split
    · exact ih (u := u.popLoad) (by simp [popLoad, hl])
    · exact ⟨_, _, _, by rw [← hl]⟩

theorem squash_eq (u : LSQUnit) (squashed_num : InstSeqNum) :
    ∃ stalled stallingStoreIsn stallingLoadIdx asserted, u.squash squashed_num =
      { u with
        loadQueue := u.loadQueue.rdropWhile fun ld => decide (squashed_num < ld.inst.seqNum)
        storeQueue := u.storeQueue.rdropWhile fun st => !spared squashed_num st
        memDepViolator := u.memDepViolator.filter (· ≤ squashed_num)
        violators := u.violators.filter (· ≤ squashed_num)
        stalled, stallingStoreIsn, stallingLoadIdx, asserted } := by
  obtain ⟨stalled, isn, idx, hloads⟩ :=
    squashLoads_eq squashed_num (u := u) u.loadQueue.reverse
      (reverse_reverse _).symm
  rw [squash, hloads]
  obtain ⟨asserted, hstores⟩ := squashStores_eq squashed_num
    (u := { u with
      loadQueue := u.loadQueue.rdropWhile fun ld => decide (squashed_num < ld.inst.seqNum)
      memDepViolator := u.memDepViolator.filter (· ≤ squashed_num)
      violators := u.violators.filter (· ≤ squashed_num)
      stalled, stallingStoreIsn := isn, stallingLoadIdx := idx }) u.storeQueue.reverse
    (reverse_reverse _).symm
  exact ⟨stalled, isn, idx, asserted, hstores⟩

theorem StoresWf.storeQueue_squash (hw : StoresWf u) (squashed_num : InstSeqNum) :
    (u.squash squashed_num).storeQueue = u.storeQueue.filter (spared squashed_num) := by
  obtain ⟨_, _, _, _, heq⟩ := squash_eq u squashed_num
  rw [heq]
  apply rdropWhile_eq_filter
  rw [pairwise_iff u.storeHead]
  intro i j a b ha hb hij
  have hlt := hw.sorted i j a b ha hb hij
  have horder := hw.inOrder i j a b ha hb hij
  simp only [spared, Bool.or_eq_true, decide_eq_true_eq]
  rintro (h | h)
  · exact .inl (hlt.le.trans h)
  · exact .inr (horder h)

theorem storeAt_of_squash {i : Nat} {st : SQEntry} (h : (u.squash squashed_num).storeAt i = some st) :
    u.storeAt i = some st := by
  obtain ⟨_, _, _, _, heq⟩ := squash_eq u squashed_num
  rw [heq] at h
  exact lookup_of_rdropWhile h

theorem storeAt_squash {i : Nat} {st : SQEntry} (h : u.storeAt i = some st)
    (hs : spared squashed_num st = true) : (u.squash squashed_num).storeAt i = some st := by
  obtain ⟨_, _, _, _, heq⟩ := squash_eq u squashed_num
  rw [heq]
  exact lookup_rdropWhile h (by simp [hs])

theorem le_storeEnd_squash {n : Nat} (hn : n ≤ u.storeEnd)
    (hspared : ∀ st, u.storeAt (n - 1) = some st → u.storeHead < n → spared squashed_num st = true) :
    n ≤ (u.squash squashed_num).storeEnd := by
  obtain ⟨_, _, _, _, heq⟩ := squash_eq u squashed_num
  have hhead : (u.squash squashed_num).storeHead = u.storeHead := by rw [heq]
  rw [storeEnd] at hn ⊢
  rcases Nat.lt_or_ge u.storeHead n with hlt | hge
  · obtain ⟨st, hst⟩ : ∃ st, u.storeAt (n - 1) = some st :=
      exists_lookup_of_bounds (by omega) (by omega)
    have := (bounds_of_lookup (storeAt_squash hst (hspared st hst hlt))).2
    omega
  · omega

theorem StoresWf.squash (hw : StoresWf u) (squashed_num : InstSeqNum) :
    StoresStay u (u.squash squashed_num) := by
  have hinto : ∀ i st, u.storeAt i = some st → st.canWB = true →
      (u.squash squashed_num).storeAt i = some st := by
    intro i st hst hcan
    exact storeAt_squash hst (by simp [spared, hcan])
  have hqueue := hw.storeQueue_squash squashed_num
  obtain ⟨_, _, _, _, heq⟩ := squash_eq u squashed_num
  have hhead : (u.squash squashed_num).storeHead = u.storeHead := by rw [heq]
  have hit : (u.squash squashed_num).storeWBIt = u.storeWBIt := by rw [heq]
  have hcompletions : (u.squash squashed_num).completions = u.completions := by rw [heq]
  apply hw.of_entries (v := u.squash squashed_num) _ _ (hcompletions ▸ Subset.refl _) hit
    (by rw [heq]) (by rw [hhead, hit]; exact hw.low)
  · rw [hit]
    exact le_storeEnd_squash hw.high fun a ha hlt => by
      simp [spared, hw.past _ a ha (Nat.sub_one_lt_of_lt hlt)]
  · intro i j a b hi hj hij
    exact hw.inOrder i j a b (storeAt_of_squash hi) (storeAt_of_squash hj) hij
  · have hcount : (u.storeQueue.filter (spared squashed_num)).countP awaitsWB =
        u.storeQueue.countP awaitsWB := by
      rw [countP_filter]
      apply countP_congr
      intro st _
      simp only [awaitsWB, spared]
      cases st.canWB <;> simp
    rw [hqueue, hcount, ← hw.counted, heq]
  · exact fun i st hst => ⟨st, storeAt_of_squash hst, rfl, id, .inl⟩
  · exact fun i st hst hcan => .inl ⟨st, hinto i st hst hcan, rfl, hcan⟩

end

section
variable {idx : Nat} {st : SQEntry}

/-- It has not executed before, and a store conditional or an atomic executes after every older
store has committed and before it commits itself. -/
@[mk_iff] structure MayExecute (u : LSQUnit) (st : SQEntry) : Prop where
  once : st.size = 0
  serial : (st.inst.isStoreConditional || st.inst.isAtomic) = true →
    st.canWB = false ∧ ∀ a ∈ u.storeQueue, a.inst.seqNum < st.inst.seqNum → a.canWB = true

instance (u : LSQUnit) (st : SQEntry) : Decidable (MayExecute u st) :=
  decidable_of_iff' _ (mayExecute_iff u st)

theorem StoresWf.executeStore (hw : StoresWf u) (hst : u.storeAt idx = some st)
    (hmay : MayExecute u st) : StoresStay u (u.executeStore p idx .accessed) := by
  have hwrite := hw.retouch (f := SQEntry.write) hst rfl rfl rfl
  have hst' : (u.modifyStore idx SQEntry.write).storeAt idx = some st.write := by
    rw [storeAt_modifyStore hst, if_pos rfl]
  simp only [LSQUnit.executeStore, hst']
  split
  · exact hwrite
  have hallow : StoresStay u
      (if st.write.inst.isStoreConditional || st.write.inst.isAtomic then
        (u.modifyStore idx SQEntry.write).allowWB idx
      else u.modifyStore idx SQEntry.write) := by
    split
    · next hserial =>
      obtain ⟨hcan, holder⟩ := hmay.serial hserial
      have h := hwrite.wf.allowWB hst' hcan (by
        intro j a ha hj
        rcases storeAt_of_modifyStore hst ha with ⟨rfl, -⟩ | ⟨-, ha⟩
        · omega
        · exact holder a (mem_of_lookup ha) (hw.sorted j idx a st ha hst hj))
      exact ⟨h.wf, hwrite.keeps.trans h.keeps⟩
    · exact hwrite
  have h := (sameStores_checkViolations (p := p) st.write.lqIt st.write.inst false).stay hallow.wf
  exact ⟨h.wf, hallow.keeps.trans h.keeps⟩

end

/-- Sequence numbers grow, the queue is not full, and only sent stores are completed, each once. -/
def StoresAllowed (p : Params) (u : LSQUnit) : Event → Prop
  | .insertStore store_inst =>
      u.storeQueue.length < p.sqEntries ∧ (∀ st ∈ u.storeQueue, st.inst.seqNum < store_inst.seqNum) ∧
        ∀ sn ∈ u.completions, sn < store_inst.seqNum
  | .executeStore store_idx .accessed => ∃ st ∈ u.storeAt store_idx, MayExecute u st
  | .completeStore store_idx =>
      ∃ st ∈ u.storeAt store_idx, store_idx < u.storeWBIt ∧ st.completed = false
  | _ => True

instance (p : Params) (u : LSQUnit) : DecidablePred (StoresAllowed p u) := fun e => by
  rcases e with _ | _ | _ | ⟨_, _ | _⟩ | _ <;> dsimp only [StoresAllowed] <;> infer_instance

theorem StoresWf.step (hw : StoresWf u) {e : Event} (he : StoresAllowed p u e) :
    StoresStay u (step p u e) := by
  have hrefl : StoresStay u u := ⟨hw, .refl u⟩
  cases e with
  | insertLoad inst => exact SameStores.stay rfl hw
  | insertStore inst => exact hw.insertStore he.2.1
  | executeLoad idx outcome isAtCommit accepted => exact (sameStores_executeLoad ..).stay hw
  | executeStore idx outcome =>
    cases outcome with
    | delayed => exact hrefl
    | notAccessed => exact hrefl
    | accessed =>
      obtain ⟨st, hst, hmay⟩ := he
      exact hw.executeStore hst hmay
  | recvData idx offset byte => exact SameStores.stay rfl hw
  | writeback idx => exact SameStores.stay rfl hw
  | getMemDepViolator => exact SameStores.stay rfl hw
  | checkSnoop addr => exact (sameStores_checkSnoop addr).stay hw
  | commit youngest =>
    have h := hw.commitStores youngest
    have hsame : SameStores (u.commitStores youngest) ((u.commitStores youngest).commitLoads youngest) :=
      rfl
    exact ⟨(hsame.stay h.wf).wf, h.keeps.trans (hsame.stay h.wf).keeps⟩
  | writebackStores blocked answers =>
    exact (writesBack_stay u).writebackStores hrefl blocked answers
  | recvRetry blocked => exact (writesBack_stay u).blockedStore hrefl blocked
  | completeStore idx =>
    obtain ⟨st, hst, hidx, hcompl⟩ := he
    exact hw.completeStore hst hidx hcompl
  | squash squashed_num => exact hw.squash squashed_num

def storeTail (u : LSQUnit) : Nat := u.storeHead + u.storeQueue.length - 1

/-- Along every legal run the stores are in program order, `storesToWB` counts those that may
write back and are not completed, `storeWBIt` lies in the queue behind stores that may write
back, a squash removes exactly the younger stores that may not, and a store that may write
back stays until it is completed. -/
theorem stores_accounted (p : Params) (events : List Event)
    (hl : Legal (step p) (StoresAllowed p) {} events) :
    let u := run (step p) {} events
    u.storeQueue.Pairwise (·.inst.seqNum < ·.inst.seqNum) ∧
      u.storesToWB = u.storeQueue.countP (fun st => st.canWB && !st.completed) ∧
      (u.storeHead ≤ u.storeWBIt ∧ u.storeWBIt ≤ u.storeTail + 1 ∧
        ∀ i st, u.storeAt i = some st → i < u.storeWBIt → st.canWB = true) ∧
      (∀ squashed_num, (u.squash squashed_num).storeQueue =
        u.storeQueue.filter fun st => decide (st.inst.seqNum ≤ squashed_num) || st.canWB) ∧
      ∀ e, StoresAllowed p u e → ∀ st ∈ u.storeQueue, st.canWB = true →
        (∃ st' ∈ (step p u e).storeQueue, st'.inst = st.inst ∧ st'.canWB = true) ∨
          st.inst.seqNum ∈ (step p u e).completions := by
  intro u
  have hw : StoresWf u :=
    run_inv StoresWf (fun v e hv he => (hv.step he).wf) events storesWf_start hl
  refine ⟨hw.pairwise, hw.counted, ⟨hw.low, ?_, hw.past⟩, hw.storeQueue_squash, ?_⟩
  · have hhigh := hw.high
    rw [storeEnd] at hhigh
    rw [storeTail]
    omega
  · intro e he st hst hcan
    obtain ⟨i, hi⟩ := exists_lookup_of_mem u.storeHead hst
    rcases (hw.step he).keeps.stores i st hi hcan with ⟨st', hst', hinst, hcan'⟩ | hc
    · exact Or.inl ⟨st', mem_of_lookup hst', hinst, hcan'⟩
    · exact Or.inr hc

/-- A store, a store conditional behind it and a store that is squashed; the conditional
may write back before it commits. -/
theorem stores_accounted_conditional :
    let p : Params := { depCheckShift := 4, lqEntries := 4, sqEntries := 4 }
    let request : Request := { vaddr := 64, size := 8 }
    let events : List Event := [.insertStore { seqNum := 1, request },
      .insertStore { seqNum := 2, request, isStoreConditional := true },
      .insertStore { seqNum := 3, request }, .executeStore 1 .accessed, .commit 1,
      .executeStore 2 .accessed, .writebackStores {} [{}, {}], .squash 2, .completeStore 2]
    Legal (step p) (StoresAllowed p) {} events ∧
      (run (step p) {} events).storesToWB = 1 ∧ (run (step p) {} events).storeWBIt = 3 ∧
      (run (step p) {} events).storeQueue.Pairwise (·.inst.seqNum < ·.inst.seqNum) := by
  intro p request events
  have hl : Legal (step p) (StoresAllowed p) {} events := by decide +kernel
  exact ⟨hl, by decide +kernel, by decide +kernel, (stores_accounted p events hl).1⟩

end LSQUnit

end Gem5Core.O3.Lsq
