import Gem5Core.O3.LsqForwarding

/-! The load queue: what each call does to the loads, and which loads a check for violations
finds. -/
namespace Gem5Core.O3.Lsq
open Pred.Branch Lib.Indexed Lib.ByteMemory
open List hiding lookup

/-- Unlike one that `Fits`, the access may end at the last byte: `lastAddr` does not wrap then, the
end address that `read` compares does. -/
structure DynInst.NoWrap (inst : DynInst) : Prop where
  positive : 0 < inst.effSize
  bounded : inst.effAddr.toNat + inst.effSize ≤ 2 ^ 64

variable {inst : DynInst}

/-- What a load is and what it keeps of the store queue. -/
def LQEntry.place (ld : LQEntry) : DynInst × Nat := (ld.inst, ld.sqIt)

def SQEntry.place (st : SQEntry) : DynInst × Nat := (st.inst, st.lqIt)

theorem DynInst.NoWrap.of_fits (h : inst.request.range.Fits (2 ^ 64)) : inst.NoWrap :=
  ⟨h.positive, h.bounded.le⟩

theorem DynInst.NoWrap.lastAddr (h : inst.NoWrap) :
    inst.lastAddr.toNat = inst.effAddr.toNat + inst.effSize - 1 := by
  have hpos := h.positive
  have hbound := h.bounded
  have hone : (1 : BitVec 64).toNat = 1 := rfl
  rw [DynInst.lastAddr, BitVec.toNat_sub, BitVec.toNat_add, BitVec.toNat_ofNat]
  omega

theorem granulesOverlap_of_overlaps {ld_inst : DynInst} (depCheckShift : Nat) (h : inst.NoWrap)
    (h' : ld_inst.NoWrap) (hover : inst.request.range.Overlaps ld_inst.request.range) :
    inst.granulesOverlap depCheckShift ld_inst = true := by
  obtain ⟨hlow, hhigh⟩ := (Range.overlaps_iff h.positive h'.positive).mp hover
  simp only [DynInst.granulesOverlap, BitVec.le_def, BitVec.toNat_ushiftRight,
    Nat.shiftRight_eq_div_pow, h.lastAddr, h'.lastAddr, Bool.and_eq_true, decide_eq_true_eq]
  exact ⟨Nat.div_le_div_right (Nat.le_sub_one_of_lt hhigh),
    Nat.div_le_div_right (Nat.le_sub_one_of_lt hlow)⟩

namespace LSQUnit

variable {p : Params} {u : LSQUnit}

section
variable {inst : DynInst} {isLoad : Bool} {violator : Option InstSeqNum}

def Caught (violator found : Option InstSeqNum) (ld : LQEntry) : Prop :=
  ∃ w, (found = some w ∨ violator = some w) ∧ w ≤ ld.inst.seqNum

structure Checked (p : Params) (inst : DynInst) (isLoad : Bool)
    (violator found : Option InstSeqNum) (a b : LQEntry) : Prop where
  marked : b = a ∨ b = { a with possibleLoadViolation := true }
  found : a.effAddrValid = true → a.inst.strictlyOrdered = false →
    inst.granulesOverlap p.depCheckShift a.inst = true →
    Caught violator found a ∨
      isLoad = true ∧ b.possibleLoadViolation = true ∧ a.hitExternalSnoop = false

private theorem forall₂_caught {l : List LQEntry} {w : InstSeqNum} {found : Option InstSeqNum}
    (hw : found = some w ∨ violator = some w) (hl : ∀ ld ∈ l, w ≤ ld.inst.seqNum) :
    List.Forall₂ (Checked p inst isLoad violator found) l l := by
  apply forall₂_same.mpr
  intro ld hld
  exact ⟨.inl rfl, fun _ _ _ => .inl ⟨w, hw, hl ld hld⟩⟩

theorem checkLoop_spec (p : Params) (inst : DynInst) (isLoad : Bool) (violator : Option InstSeqNum)
    {l : List LQEntry} (hs : l.Pairwise (·.inst.seqNum < ·.inst.seqNum)) :
    List.Forall₂ (Checked p inst isLoad violator (checkLoop p inst isLoad violator l).2) l
      (checkLoop p inst isLoad violator l).1 := by
  induction l with
  | nil => exact .nil
  | cons ld rest ih =>
    obtain ⟨hld, hrest⟩ := pairwise_cons.mp hs
    have hle : ∀ a ∈ ld :: rest, ld.inst.seqNum ≤ a.inst.seqNum := by
      intro a ha
      rcases mem_cons.mp ha with rfl | ha
      · exact le_rfl
      · exact (hld a ha).le
    have hnext := ih hrest
    rw [checkLoop]
    split
    · next hskip =>
      refine .cons ⟨.inl rfl, fun hvalid hordered hover => ?_⟩ hnext
      simp [hvalid, hordered, hover] at hskip
    · split
      · next hload =>
        split
        · -- the load has seen an invalidation and is recorded
          exact forall₂_caught (.inl rfl) hle
        · next hnot =>
          refine .cons ⟨.inr rfl, fun _ _ _ => ?_⟩ hnext
          cases hhit : ld.hitExternalSnoop with
          | false => exact .inr ⟨hload, rfl, rfl⟩
          | true =>
            -- the violator recorded before is at most as young
            left
            cases hv : violator with
            | none => simp [hhit, hv] at hnot
            | some w => exact ⟨w, .inr rfl, by simpa [hhit, hv] using hnot⟩
      · split
        · next hany =>
          cases hv : violator with
          | none => simp [hv] at hany
          | some w =>
            have hlt : w < ld.inst.seqNum := by simpa [hv] using hany
            exact forall₂_caught (.inr rfl) fun a ha => hlt.le.trans (hle a ha)
        · exact forall₂_caught (.inl rfl) hle

end

section
variable {v w : LSQUnit}

/-- The state of the load queue. -/
def loads (u : LSQUnit) :=
  (u.loadQueue, u.loadHead, u.memDepViolator, u.violators, u.retired)

def SameLoads (u v : LSQUnit) : Prop := v.loads = u.loads

section

variable (h : SameLoads u v)
include h

theorem SameLoads.loadQueue : v.loadQueue = u.loadQueue := congrArg (·.1) h

theorem SameLoads.loadHead : v.loadHead = u.loadHead := congrArg (·.2.1) h

theorem SameLoads.memDepViolator : v.memDepViolator = u.memDepViolator := congrArg (·.2.2.1) h

theorem SameLoads.violators : v.violators = u.violators := congrArg (·.2.2.2.1) h

theorem SameLoads.retired : v.retired = u.retired := congrArg (·.2.2.2.2) h

theorem SameLoads.trans (h' : SameLoads v w) : SameLoads u w := Eq.trans h' h

theorem SameLoads.loadAt (i : Nat) : v.loadAt i = u.loadAt i := by
  simp only [LSQUnit.loadAt, h.loadHead, h.loadQueue]

end

theorem sameLoads_completeStore (idx : Nat) : SameLoads u (u.completeStore p idx) := by
  unfold completeStore
  split <;> exact rfl

theorem sameLoads_sendStore (a : Answer) : SameLoads u (u.sendStore p a) := by
  unfold sendStore storePostSend
  split
  · split <;> exact rfl
  · exact rfl

theorem sameLoads_writebackBlockedStore (a : Answer) : SameLoads u (u.writebackBlockedStore p a) := by
  unfold writebackBlockedStore
  split
  · exact sameLoads_sendStore a
  · exact rfl

theorem sameLoads_writebackLoop (answers : List Answer) :
    ∀ u, SameLoads u (writebackLoop p u answers) := by
  induction answers with
  | nil => exact fun u => rfl
  | cons a answers ih =>
    intro u
    have htouch : ∀ b, SameLoads u (({ u with asserted := b } : LSQUnit).modifyStore u.storeWBIt
        ({ · with committed := true })) := fun _ => rfl
    have hmove : ∀ (v : LSQUnit) (it : Nat), SameLoads v (v.moveWBIt it) :=
      fun _ _ => rfl
    unfold writebackLoop
    split
    · exact rfl
    split
    · exact rfl
    split
    · exact ((hmove u _).trans (sameLoads_completeStore _)).trans (ih _)
    split
    · exact (hmove u _).trans (ih _)
    split
    · exact rfl
    split
    · exact (((htouch _).trans (sameLoads_completeStore _)).trans (hmove _ _)).trans (ih _)
    split
    · exact (((htouch _).trans (sameLoads_completeStore _)).trans (hmove _ _)).trans (ih _)
    · exact ((htouch _).trans (sameLoads_sendStore a)).trans (ih _)

theorem sameLoads_writebackStores (blocked : Answer) (answers : List Answer) :
    SameLoads u (u.writebackStores p blocked answers) :=
  (sameLoads_writebackBlockedStore blocked).trans (sameLoads_writebackLoop answers _)

end

section

/-- The loads are in program order, and the violator that is recorded is known. -/
structure LoadsWf (u : LSQUnit) : Prop where
  sorted : (u.loadQueue.map (·.inst.seqNum)).Pairwise (· < ·)
  violator : ∀ w, u.memDepViolator = some w → w ∈ u.violators

theorem LoadsWf.pairwise (h : LoadsWf u) : u.loadQueue.Pairwise (·.inst.seqNum < ·.inst.seqNum) :=
  pairwise_map.mp h.sorted

variable {a : LQEntry} {i : Nat}

theorem LoadsWf.lt (h : LoadsWf u) {j : Nat} {b : LQEntry} (ha : u.loadAt i = some a)
    (hb : u.loadAt j = some b) (hij : i < j) : a.inst.seqNum < b.inst.seqNum :=
  (pairwise_iff u.loadHead).mp h.pairwise i j a b ha hb hij

theorem LoadsWf.eq_of_seqNum (h : LoadsWf u) {b : LQEntry} (ha : a ∈ u.loadQueue)
    (hb : b ∈ u.loadQueue) (heq : a.inst.seqNum = b.inst.seqNum) : a = b := by
  have hnodup : (u.loadQueue.map (·.inst.seqNum)).Nodup := h.sorted.imp fun hlt => hlt.ne
  exact inj_on_of_nodup_map hnodup ha hb heq

/-- The load comes at or after a violator that is still to be squashed. -/
def Doomed (u : LSQUnit) (ld : LQEntry) : Prop := ∃ w ∈ u.violators, w ≤ ld.inst.seqNum

variable {idx : Nat} {ld : LQEntry} {f : LQEntry → LQEntry}

theorem loadAt_of_modifyLoad (h : u.loadAt idx = some ld) {j : Nat}
    (ha : (u.modifyLoad idx f).loadAt j = some a) :
    j = idx ∧ a = f ld ∨ j ≠ idx ∧ u.loadAt j = some a := by
  rw [loadAt_modifyLoad h] at ha
  exact some_of_ite ha

theorem map_modifyLoad {β : Type*} (idx : Nat) (g : LQEntry → β) (hf : ∀ ld, g (f ld) = g ld) :
    (u.modifyLoad idx f).loadQueue.map g = u.loadQueue.map g :=
  map_modify hf ..

private theorem map_seqNum_modifyLoad (idx : Nat) (hf : ∀ ld, (f ld).inst = ld.inst) :
    (u.modifyLoad idx f).loadQueue.map (·.inst.seqNum) = u.loadQueue.map (·.inst.seqNum) :=
  map_modifyLoad idx _ fun ld => by rw [hf]

variable {inst : DynInst}

section

variable (hw : LoadsWf u)
include hw

theorem LoadsWf.doomed {loadIt : Nat} {isLoad : Bool}
    (h : Caught u.memDepViolator (checkLoop p inst isLoad u.memDepViolator
      (u.loadQueue.drop (loadIt - u.loadHead))).2 ld) :
    Doomed (u.checkViolations p loadIt inst isLoad) ld := by
  obtain ⟨w, hw' | hw', hle⟩ := h
  · exact ⟨w, mem_append_right _ (by rw [hw']; exact mem_singleton_self w), hle⟩
  · exact ⟨w, mem_append_left _ (hw.violator w hw'), hle⟩

theorem loadAt_checkViolations {loadIt : Nat} {isLoad : Bool} {b : LQEntry}
    (hb : (u.checkViolations p loadIt inst isLoad).loadAt i = some b) :
    ∃ a, u.loadAt i = some a ∧ (b = a ∨ b = { a with possibleLoadViolation := true }) ∧
      (loadIt ≤ i → a.effAddrValid = true → a.inst.strictlyOrdered = false →
        inst.granulesOverlap p.depCheckShift a.inst = true →
        Doomed (u.checkViolations p loadIt inst isLoad) a ∨
          isLoad = true ∧ b.possibleLoadViolation = true ∧ a.hitExternalSnoop = false) := by
  have hdrop : (u.loadQueue.drop (loadIt - u.loadHead)).Pairwise (·.inst.seqNum < ·.inst.seqNum) :=
    hw.pairwise.sublist (drop_sublist _ _)
  have hspec := checkLoop_spec p inst isLoad u.memDepViolator hdrop
  obtain ⟨k, rfl, hk⟩ := lookup_eq_some.mp hb
  change (u.loadQueue.take (loadIt - u.loadHead) ++ _)[k]? = some b at hk
  change ∃ a, lookup u.loadHead u.loadQueue (u.loadHead + k) = some a ∧ _
  rw [lookup_add]
  by_cases hlt : k < (u.loadQueue.take (loadIt - u.loadHead)).length
  · -- older loads are not looked at
    rw [List.getElem?_append_left hlt] at hk
    rw [length_take] at hlt
    rw [List.getElem?_take_of_lt (by omega)] at hk
    refine ⟨b, hk, .inl rfl, fun hle => ?_⟩
    change loadIt ≤ u.loadHead + k at hle
    omega
  · rw [List.getElem?_append_right (Nat.le_of_not_lt hlt)] at hk
    obtain ⟨a, ha, hchecked⟩ := getElem?_of_forall₂ hspec hk
    rw [List.getElem?_drop] at ha
    have hbound := (List.getElem?_eq_some_iff.mp ha).1
    rw [length_take] at hlt ha hbound
    rw [show loadIt - u.loadHead + (k - min (loadIt - u.loadHead) u.loadQueue.length) = k by omega] at ha
    refine ⟨a, ha, hchecked.marked, fun _ hvalid hordered hover => ?_⟩
    rcases hchecked.found hvalid hordered hover with hcaught | hmarked
    · exact .inl (hw.doomed hcaught)
    · exact .inr hmarked

theorem LoadsWf.map_checkViolations {β : Type*} (loadIt : Nat) (inst : DynInst) (isLoad : Bool)
    (f : LQEntry → β) (hf : ∀ ld : LQEntry, f { ld with possibleLoadViolation := true } = f ld) :
    (u.checkViolations p loadIt inst isLoad).loadQueue.map f = u.loadQueue.map f := by
  have hdrop : (u.loadQueue.drop (loadIt - u.loadHead)).Pairwise
      (·.inst.seqNum < ·.inst.seqNum) := hw.pairwise.sublist (drop_sublist _ _)
  have hspec := checkLoop_spec p inst isLoad u.memDepViolator hdrop
  have hmap := map_eq_of_forall₂ f (by rintro a b ⟨rfl | rfl, -⟩; exacts [rfl, hf a]) hspec
  simp only [LSQUnit.checkViolations, map_append, hmap]
  rw [← map_append, take_append_drop]

theorem LoadsWf.map_seqNum_checkViolations (loadIt : Nat) (inst : DynInst) (isLoad : Bool) :
    (u.checkViolations p loadIt inst isLoad).loadQueue.map (·.inst.seqNum) =
      u.loadQueue.map (·.inst.seqNum) :=
  hw.map_checkViolations loadIt inst isLoad _ fun _ => rfl

theorem LoadsWf.checkViolations (loadIt : Nat) (inst : DynInst) (isLoad : Bool) :
    LoadsWf (u.checkViolations p loadIt inst isLoad) where
  sorted := by
    rw [hw.map_seqNum_checkViolations]
    exact hw.sorted
  violator := by
    intro w hw'
    simp only [LSQUnit.checkViolations, Option.or_eq_some_iff] at hw'
    rcases hw' with h | ⟨-, h⟩
    · exact mem_append_right _ (by rw [h]; exact mem_singleton_self w)
    · exact mem_append_left _ (hw.violator w h)

end

structure Snooped (p : Params) (invalidate_addr : Addr) (a b : LQEntry) : Prop where
  marked : b = a ∨ b = { a with reExec := true } ∨
    a.possibleLoadViolation = false ∧ b = { a with hitExternalSnoop := true }
  seen : a.effAddrValid = true → a.inst.strictlyOrdered = false → a.hasRequest = true →
    a.inst.request.isCacheBlockHit invalidate_addr p.cacheBlockMask = true →
    b.reExec = true ∨ b.hitExternalSnoop = true

theorem snoopLoads_spec (invalidate_addr : Addr) (l : List LQEntry) (force_squash : Bool) :
    List.Forall₂ (Snooped p invalidate_addr) l (snoopLoads p invalidate_addr force_squash l) := by
  induction l generalizing force_squash with
  | nil => exact .nil
  | cons ld rest ih =>
    rw [snoopLoads]
    split
    · next hskip =>
      refine .cons ⟨.inl rfl, fun hvalid hordered hreq => ?_⟩ (ih _)
      simp [hvalid, hordered, hreq] at hskip
    · split
      · refine .cons ?_ (ih _)
        split
        · exact ⟨.inr (.inl rfl), fun _ _ _ _ => .inl rfl⟩
        · next hnot =>
          have hplv : ld.possibleLoadViolation = false := by
            cases h : ld.possibleLoadViolation <;> simp [h] at hnot ⊢
          exact ⟨.inr (.inr ⟨hplv, rfl⟩), fun _ _ _ _ => .inr rfl⟩
      · next hmiss =>
        refine .cons ⟨.inl rfl, fun _ _ _ hhit => ?_⟩ (ih _)
        simp [hhit] at hmiss

theorem forall₂_checkSnoop (addr : Addr) :
    List.Forall₂ (fun a b => b = a ∨ b = { a with reExec := true } ∨
      a.possibleLoadViolation = false ∧ b = { a with hitExternalSnoop := true })
      u.loadQueue (u.checkSnoop p addr).loadQueue := by
  unfold checkSnoop
  split
  · next h => rw [h]; exact .nil
  · next head rest h =>
    rw [h]
    exact .cons (.inl rfl) ((snoopLoads_spec _ rest false).imp fun _ _ hab => hab.marked)

theorem loadAt_checkSnoop {addr : Addr} {b : LQEntry}
    (hb : (u.checkSnoop p addr).loadAt i = some b) :
    ∃ a, u.loadAt i = some a ∧ (b = a ∨ b = { a with reExec := true } ∨
        a.possibleLoadViolation = false ∧ b = { a with hitExternalSnoop := true }) ∧
      (u.loadHead < i → a.effAddrValid = true → a.inst.strictlyOrdered = false →
        a.hasRequest = true →
        a.inst.request.isCacheBlockHit (addr &&& p.cacheBlockMask) p.cacheBlockMask = true →
        b.reExec = true ∨ b.hitExternalSnoop = true) := by
  have hhead : (u.checkSnoop p addr).loadHead = u.loadHead := by
    unfold checkSnoop
    split <;> rfl
  rw [loadAt, hhead] at hb
  obtain ⟨a, ha, hab⟩ := lookup_of_forall₂ (forall₂_checkSnoop addr) hb
  refine ⟨a, ha, hab, fun hi => ?_⟩
  -- the loads behind the head are those of the loop
  unfold checkSnoop at hb
  split at hb
  · next h => simp [h, lookup] at hb
  · next head rest h =>
    obtain ⟨k, rfl, hk⟩ := lookup_eq_some.mp hb
    obtain ⟨k, rfl⟩ : ∃ m, k = m + 1 := ⟨k - 1, by omega⟩
    obtain ⟨a', ha', hs⟩ := getElem?_of_forall₂ (snoopLoads_spec _ rest false) hk
    have heq : a' = a := by
      rw [h, lookup_add] at ha
      exact Option.some.inj (ha'.symm.trans ha)
    subst heq
    exact hs.seen

theorem LoadsWf.checkSnoop (hw : LoadsWf u) (addr : Addr) : LoadsWf (u.checkSnoop p addr) where
  sorted := by
    rw [map_eq_of_forall₂ _ (by rintro a b (rfl | rfl | ⟨-, rfl⟩) <;> rfl) (forall₂_checkSnoop addr)]
    exact hw.sorted
  violator := by
    unfold LSQUnit.checkSnoop
    split <;> exact hw.violator

theorem loadAt_insertLoad (inst : DynInst) (i : Nat) :
    (u.insertLoad p inst).loadAt i =
      if i = u.loadEnd then some { inst, sqIt := u.storeEnd } else u.loadAt i :=
  lookup_concat u.loadHead u.loadQueue _ i

theorem LoadsWf.insertLoad (hw : LoadsWf u)
    (hnew : ∀ ld ∈ u.loadQueue, ld.inst.seqNum < inst.seqNum) : LoadsWf (u.insertLoad p inst) where
  sorted := by
    simp only [LSQUnit.insertLoad, map_append, map_cons, map_nil,
      pairwise_append, hw.sorted, pairwise_singleton, true_and]
    intro a ha b hb
    obtain ⟨ld, hld, rfl⟩ := mem_map.mp ha
    rw [mem_singleton.mp hb]
    exact hnew ld hld
  violator := hw.violator

theorem LoadsWf.modifyLoad (hw : LoadsWf u) (idx : Nat) (hf : ∀ ld, (f ld).inst = ld.inst) :
    LoadsWf (u.modifyLoad idx f) where
  sorted := by
    rw [map_seqNum_modifyLoad idx hf]
    exact hw.sorted
  violator := hw.violator

variable {youngest_inst squashed_num : InstSeqNum}

theorem loadAt_commitLoads (hw : LoadsWf u) (ha : (u.commitLoads youngest_inst).loadAt i = some a) :
    u.loadAt i = some a ∧ youngest_inst < a.inst.seqNum := by
  constructor
  · rw [loadAt, ← takeWhile_append_dropWhile (p := (·.inst.seqNum ≤ youngest_inst))
      (l := u.loadQueue)]
    exact lookup_append_right ha
  · have hmem : a ∈ u.loadQueue.dropWhile (·.inst.seqNum ≤ youngest_inst) := mem_of_lookup ha
    rw [dropWhile_eq_filter] at hmem
    · simpa using (mem_filter.mp hmem).2
    · apply hw.pairwise.imp
      intro a b hab
      simpa using Nat.le_trans hab.le

theorem mem_committed (ha : a ∈ (u.commitLoads youngest_inst).retired) :
    a ∈ u.retired ∨ a ∈ u.loadQueue ∧ a.inst.seqNum ≤ youngest_inst := by
  rcases mem_append.mp ha with ha | ha
  · exact .inl ha
  · refine .inr ⟨(takeWhile_sublist _).mem ha, ?_⟩
    simpa using mem_takeWhile_imp ha

theorem LoadsWf.commitLoads (hw : LoadsWf u) (youngest_inst : InstSeqNum) :
    LoadsWf (u.commitLoads youngest_inst) where
  sorted := hw.sorted.sublist ((dropWhile_sublist _).map _)
  violator := hw.violator

theorem loadAt_squash (hw : LoadsWf u) (ha : (u.squash squashed_num).loadAt i = some a) :
    u.loadAt i = some a ∧ a.inst.seqNum ≤ squashed_num := by
  obtain ⟨_, _, _, _, heq⟩ := squash_eq u squashed_num
  rw [heq] at ha
  refine ⟨lookup_of_rdropWhile ha, ?_⟩
  have hmem : a ∈ u.loadQueue.rdropWhile fun ld => decide (squashed_num < ld.inst.seqNum) :=
    mem_of_lookup ha
  have hcond : (fun ld : LQEntry => decide (squashed_num < ld.inst.seqNum)) =
      fun ld => !decide (ld.inst.seqNum ≤ squashed_num) := by
    funext ld
    rw [← decide_not, decide_eq_decide]
    exact Nat.not_le.symm
  rw [hcond, rdropWhile_eq_filter] at hmem
  · simpa using (mem_filter.mp hmem).2
  · apply hw.pairwise.imp
    intro a b hab
    simpa using Nat.le_trans hab.le

theorem loadAt_squash_of_le (ha : u.loadAt i = some a) (hle : a.inst.seqNum ≤ squashed_num) :
    (u.squash squashed_num).loadAt i = some a := by
  obtain ⟨_, _, _, _, heq⟩ := squash_eq u squashed_num
  rw [heq]
  exact lookup_rdropWhile ha (decide_eq_false hle.not_gt)

theorem LoadsWf.squash (hw : LoadsWf u) (squashed_num : InstSeqNum) :
    LoadsWf (u.squash squashed_num) := by
  obtain ⟨_, _, _, _, heq⟩ := squash_eq u squashed_num
  rw [heq]
  constructor
  · exact hw.sorted.sublist (( rdropWhile_prefix _ _).sublist.map _)
  · intro w hw'
    obtain ⟨hv, hle⟩ := Option.filter_eq_some_iff.mp hw'
    exact mem_filter.mpr ⟨hw.violator w hv, hle⟩

end

section
variable {idx : Nat} {ld : LQEntry} {isAtCommit accepted : Bool}

def readEntry (isAtCommit accepted : Bool) (ld : LQEntry) : ReadResult → LQEntry
  | .strictlyOrdered => { ld.reschedule with isExecuted := isAtCommit }
  | .localAccess => { ld with hasRequest := true, outstanding := true }
  | .forwarded _ bytes =>
      { ld with
        hasRequest := !ld.outstanding
        outstanding := false
        memData := fun i => some (bytes i) }
  | .rescheduled _ => ld.reschedule
  | .panicked => ld
  | .memory => { ld with hasRequest := true, outstanding := ld.outstanding || accepted }

theorem inst_readEntry (r : ReadResult) : (readEntry isAtCommit accepted ld r).inst = ld.inst := by
  cases r <;> rfl

def access (u : LSQUnit) (idx : Nat) (isAtCommit accepted : Bool) : LSQUnit :=
  (u.modifyLoad idx fun ld => { ld with effAddrValid := true }).read idx isAtCommit accepted

def accessed (u : LSQUnit) (idx : Nat) (isAtCommit accepted : Bool) (ld : LQEntry) : LQEntry :=
  readEntry isAtCommit accepted { ld with effAddrValid := true } (u.readResult idx ld isAtCommit)

theorem inst_accessed : (u.accessed idx isAtCommit accepted ld).inst = ld.inst := inst_readEntry _

private theorem loadAt_read (hld : u.loadAt idx = some ld) (j : Nat) :
    (u.read idx isAtCommit accepted).loadAt j =
      if j = idx then some (readEntry isAtCommit accepted ld (u.readResult idx ld isAtCommit))
      else u.loadAt j := by
  simp only [read, hld]
  cases u.readResult idx ld isAtCommit with
  | strictlyOrdered => exact loadAt_modifyLoad hld _ j
  | localAccess => exact loadAt_modifyLoad hld _ j
  | forwarded _ _ => exact loadAt_modifyLoad hld _ j
  | rescheduled k => exact loadAt_modifyLoad (u := u.stall idx ld.inst k) hld _ j
  | panicked =>
    change u.loadAt j = _
    split
    · next hj => rw [hj, hld]; rfl
    · rfl
  | memory => exact loadAt_modifyLoad hld _ j

variable (f : LQEntry → LQEntry)

private theorem searchStores_modifyLoad (request : Request) (n : Nat) :
    (u.modifyLoad idx f).searchStores request n = u.searchStores request n := by
  induction n with
  | zero => rfl
  | succ n ih =>
    simp only [searchStores, ih]
    rfl

theorem readResult_modifyLoad (ld : LQEntry) :
    (u.modifyLoad idx f).readResult idx ld isAtCommit = u.readResult idx ld isAtCommit := by
  simp only [readResult, searchStores_modifyLoad]
  rfl

theorem loadAt_access (hld : u.loadAt idx = some ld) (j : Nat) :
    (u.access idx isAtCommit accepted).loadAt j =
      if j = idx then some (u.accessed idx isAtCommit accepted ld) else u.loadAt j := by
  have hat := loadAt_modifyLoad hld fun ld => { ld with effAddrValid := true }
  have hld' := (hat idx).trans (if_pos rfl)
  rw [access, loadAt_read hld' j, readResult_modifyLoad]
  split
  · rfl
  · next hj => rw [hat, if_neg hj]

theorem loadAt_of_access (hld : u.loadAt idx = some ld) {j : Nat} {a : LQEntry}
    (ha : (u.access idx isAtCommit accepted).loadAt j = some a) :
    j = idx ∧ a = u.accessed idx isAtCommit accepted ld ∨ j ≠ idx ∧ u.loadAt j = some a := by
  rw [loadAt_access hld] at ha
  exact some_of_ite ha

structure ReadFrame (u v : LSQUnit) : Prop where
  stores : SameStores u v
  sent : v.sent = u.sent
  loadHead : v.loadHead = u.loadHead
  places : v.loadQueue.map LQEntry.place = u.loadQueue.map LQEntry.place
  memDepViolator : v.memDepViolator = u.memDepViolator
  violators : v.violators = u.violators
  retired : v.retired = u.retired

theorem ReadFrame.trans {v w : LSQUnit} (h : ReadFrame u v) (h' : ReadFrame v w) : ReadFrame u w where
  stores := h'.stores.trans h.stores
  sent := h'.sent.trans h.sent
  loadHead := h'.loadHead.trans h.loadHead
  places := h'.places.trans h.places
  memDepViolator := h'.memDepViolator.trans h.memDepViolator
  violators := h'.violators.trans h.violators
  retired := h'.retired.trans h.retired

theorem ReadFrame.seqNums {v : LSQUnit} (h : ReadFrame u v) :
    v.loadQueue.map (·.inst.seqNum) = u.loadQueue.map (·.inst.seqNum) := by
  have hmap := congrArg (List.map (·.1.seqNum)) h.places
  rwa [map_map, map_map] at hmap

theorem readFrame_modifyLoad (hf : ∀ ld, (f ld).place = ld.place) :
    ReadFrame u (u.modifyLoad idx f) :=
  ⟨rfl, rfl, rfl, map_modifyLoad idx _ hf, rfl, rfl, rfl⟩

private theorem readFrame_read : ReadFrame u (u.read idx isAtCommit accepted) := by
  have hrefl : ∀ b, ReadFrame u { u with asserted := b } := fun b =>
    ⟨rfl, rfl, rfl, rfl, rfl, rfl, rfl⟩
  unfold read
  split
  · exact hrefl u.asserted
  · next ld _ =>
    split
    · exact readFrame_modifyLoad _ fun _ => rfl
    · exact readFrame_modifyLoad _ fun _ => rfl
    · exact readFrame_modifyLoad _ fun _ => rfl
    · next k _ =>
      have hstall : ReadFrame u (u.stall idx ld.inst k) :=
        ⟨rfl, rfl, rfl, rfl, rfl, rfl, rfl⟩
      exact hstall.trans (readFrame_modifyLoad _ fun _ => rfl)
    · exact hrefl false
    · exact readFrame_modifyLoad _ fun _ => rfl

theorem readFrame_access : ReadFrame u (u.access idx isAtCommit accepted) :=
  .trans (v := u.modifyLoad idx fun ld => { ld with effAddrValid := true })
    (readFrame_modifyLoad _ fun _ => rfl) readFrame_read

theorem ReadFrame.loadsWf {v : LSQUnit} (h : ReadFrame u v) (hw : LoadsWf u) : LoadsWf v where
  sorted := h.seqNums ▸ hw.sorted
  violator := by
    rw [h.memDepViolator, h.violators]
    exact hw.violator

theorem executeLoad_cases (u : LSQUnit) (idx : Nat) (outcome : Outcome) (isAtCommit accepted : Bool) :
    ((∀ ld, u.loadAt idx = some ld → ld.isExecuted = true ∨ outcome = .delayed) ∧
        u.executeLoad p idx outcome isAtCommit accepted = u) ∨
      (∃ ld, u.loadAt idx = some ld ∧ ld.isExecuted = false ∧
        (outcome = .notAccessed ∨ ld.reExec = true) ∧
        u.executeLoad p idx outcome isAtCommit accepted =
          u.modifyLoad idx fun ld => { ld with isExecuted := true }) ∨
      ∃ ld, u.loadAt idx = some ld ∧ ld.isExecuted = false ∧ ld.reExec = false ∧
        outcome = .accessed ∧
        u.executeLoad p idx outcome isAtCommit accepted =
          if p.checkLoads && (u.accessed idx isAtCommit accepted ld).effAddrValid then
            (u.access idx isAtCommit accepted).checkViolations p (idx + 1) ld.inst true
          else u.access idx isAtCommit accepted := by
  cases hld : u.loadAt idx with
  | none => exact .inl ⟨fun _ h => (by cases h), by simp only [executeLoad, hld]⟩
  | some ld =>
    cases hex : ld.isExecuted with
    | true =>
      refine .inl ⟨?_, by simp only [executeLoad, hld, hex, ↓reduceIte]⟩
      rintro _ ⟨⟩
      exact .inl hex
    | false =>
      cases outcome with
      | delayed =>
        exact .inl ⟨fun _ _ => .inr rfl,
          by simp only [executeLoad, hld, hex, Bool.false_eq_true, ↓reduceIte]⟩
      | notAccessed =>
        refine .inr (.inl ⟨ld, rfl, hex, .inl rfl, ?_⟩)
        simp only [executeLoad, hld, hex, Bool.false_eq_true, ↓reduceIte]
      | accessed =>
        cases hre : ld.reExec with
        | true =>
          refine .inr (.inl ⟨ld, rfl, hex, .inr hre, ?_⟩)
          simp only [executeLoad, hld, hex, hre, Bool.false_eq_true, ↓reduceIte]
        | false =>
          refine .inr (.inr ⟨ld, rfl, hex, hre, rfl, ?_⟩)
          have hat : (u.access idx isAtCommit accepted).loadAt idx =
              some (u.accessed idx isAtCommit accepted ld) := (loadAt_access hld idx).trans (if_pos rfl)
          rw [access] at hat
          simp only [executeLoad, hld, hex, hre, hat, Bool.false_eq_true, ↓reduceIte, Option.any_some]
          rfl

theorem LoadsWf.executeLoad (hw : LoadsWf u) (idx : Nat) (outcome : Outcome)
    (isAtCommit accepted : Bool) : LoadsWf (u.executeLoad p idx outcome isAtCommit accepted) := by
  rcases executeLoad_cases u idx outcome isAtCommit accepted with
    ⟨-, h⟩ | ⟨ld, -, -, -, h⟩ | ⟨ld, -, -, -, -, h⟩
  · rw [h]
    exact hw
  · rw [h]
    exact hw.modifyLoad idx fun _ => rfl
  · rw [h]
    split
    · exact (readFrame_access.loadsWf hw).checkViolations _ _ _
    · exact readFrame_access.loadsWf hw

/-- Only the entries of the store queue differ, and they are those of the same stores. -/
structure Remarked (u v : LSQUnit) : Prop where
  eq : v = { u with storeQueue := v.storeQueue, storesToWB := v.storesToWB }
  places : v.storeQueue.map SQEntry.place = u.storeQueue.map SQEntry.place

theorem remarked_modifyStore (u : LSQUnit) (idx : Nat) (f : SQEntry → SQEntry)
    (hf : ∀ st, (f st).place = st.place) : Remarked u (u.modifyStore idx f) :=
  ⟨rfl, map_modify hf ..⟩

theorem Remarked.loads {v : LSQUnit} (h : Remarked u v) : SameLoads u v := by
  rw [SameLoads, h.eq]
  rfl

/-- A store that executes is marked in its entry, and if it has bytes it then looks for loads. -/
theorem executeStore_cases (u : LSQUnit) (idx : Nat) (outcome : Outcome) :
    ∃ v, Remarked u v ∧ (u.executeStore p idx outcome = v ∧
        (outcome = .accessed → ∀ st, u.storeAt idx = some st → st.inst.effSize = 0) ∨
      ∃ st, u.storeAt idx = some st ∧ outcome = .accessed ∧ st.inst.effSize ≠ 0 ∧
        u.executeStore p idx outcome = v.checkViolations p st.lqIt st.inst false) := by
  cases outcome with
  | delayed => exact ⟨u, ⟨rfl, rfl⟩, .inl ⟨rfl, nofun⟩⟩
  | notAccessed => exact ⟨u, ⟨rfl, rfl⟩, .inl ⟨rfl, nofun⟩⟩
  | accessed =>
    have hwrite : Remarked u (u.modifyStore idx SQEntry.write) :=
      remarked_modifyStore u idx _ fun _ => rfl
    have hallow := remarked_modifyStore (u.modifyStore idx SQEntry.write) idx
      ({ · with canWB := true }) fun _ => rfl
    cases hst : u.storeAt idx with
    | none =>
      have hnone : (u.modifyStore idx SQEntry.write).storeAt idx = none := by
        rw [storeAt, ← Option.map_eq_none_iff, ← lookup_map SQEntry.place, hwrite.places, lookup_map]
        exact Option.map_eq_none_iff.mpr hst
      exact ⟨_, hwrite, .inl ⟨by simp only [executeStore, hnone], by rintro - _ ⟨⟩⟩⟩
    | some st =>
      have hst' : (u.modifyStore idx SQEntry.write).storeAt idx = some st.write := by
        rw [storeAt_modifyStore hst, if_pos rfl]
      simp only [executeStore, hst']
      split
      · next hsize =>
        refine ⟨_, hwrite, .inl ⟨rfl, ?_⟩⟩
        rintro - _ ⟨⟩
        exact beq_iff_eq.mp hsize
      · next hsize =>
        have hsize : st.inst.effSize ≠ 0 := fun h => hsize (beq_iff_eq.mpr h)
        split
        · exact ⟨(u.modifyStore idx SQEntry.write).allowWB idx,
            ⟨rfl, hallow.places.trans hwrite.places⟩, .inr ⟨st, rfl, trivial, hsize, rfl⟩⟩
        · exact ⟨_, hwrite, .inr ⟨st, rfl, trivial, hsize, rfl⟩⟩

theorem SameLoads.loadsWf {v : LSQUnit} (h : SameLoads u v) (hw : LoadsWf u) : LoadsWf v where
  sorted := h.loadQueue ▸ hw.sorted
  violator := by
    rw [h.memDepViolator, h.violators]
    exact hw.violator

theorem LoadsWf.executeStore (hw : LoadsWf u) (idx : Nat) (outcome : Outcome) :
    LoadsWf (u.executeStore p idx outcome) := by
  obtain ⟨v, hv, ⟨h, -⟩ | ⟨st, -, -, -, h⟩⟩ := executeStore_cases (p := p) u idx outcome
  · rw [h]
    exact hv.loads.loadsWf hw
  · rw [h]
    exact (hv.loads.loadsWf hw).checkViolations _ _ _

end

theorem LoadsWf.step (hw : LoadsWf u) {e : Event}
    (he : ∀ inst, e = .insertLoad inst → ∀ ld ∈ u.loadQueue, ld.inst.seqNum < inst.seqNum) :
    LoadsWf (step p u e) := by
  have hmodify : ∀ (idx : Nat) (f : LQEntry → LQEntry), (∀ ld, (f ld).inst = ld.inst) →
      LoadsWf (u.modifyLoad idx f) := fun idx _ hf => hw.modifyLoad idx hf
  cases e with
  | insertLoad inst => exact hw.insertLoad (he inst rfl)
  | insertStore inst => exact { hw with }
  | executeLoad idx outcome isAtCommit accepted => exact hw.executeLoad idx outcome isAtCommit accepted
  | executeStore idx outcome => exact hw.executeStore idx outcome
  | recvData idx offset byte =>
    apply hmodify
    intro ld
    split <;> rfl
  | writeback idx => exact hmodify idx _ fun _ => rfl
  | getMemDepViolator => exact ⟨hw.sorted, fun w h => by cases h⟩
  | checkSnoop addr => exact hw.checkSnoop addr
  | commit youngest =>
    have h : LoadsWf (u.commitStores youngest) := { hw with }
    exact h.commitLoads youngest
  | writebackStores blocked answers => exact (sameLoads_writebackStores blocked answers).loadsWf hw
  | recvRetry blocked => exact (sameLoads_writebackBlockedStore blocked).loadsWf hw
  | completeStore idx => exact (sameLoads_completeStore idx).loadsWf hw
  | squash squashed_num => exact hw.squash squashed_num

end LSQUnit

end Gem5Core.O3.Lsq
