import Gem5Core.O3.LsqMemory

/-! The calls of stores, and squashes, keep what the queues know of the memory. -/
namespace Gem5Core.O3.Lsq
open Pred.Branch Lib.Indexed Lib.ByteMemory List

namespace LSQUnit

variable {p : Params} {init : Nat → Byte} {stores : List DynInst} {last : InstSeqNum}
  {u v : LSQUnit}

section

structure StoreFrame (u v : LSQUnit) : Prop where
  loads : SameLoads u v
  sent : v.sent = u.sent
  storeWBIt : v.storeWBIt = u.storeWBIt
  order : SameOrder u v
  waiting : ∀ j a, u.storeWBIt ≤ j → u.storeAt j = some a → ∃ b, v.storeAt j = some b ∧ b.inst = a.inst

variable {a b st : SQEntry}

section

variable (h : StoreFrame u v)
include h

theorem StoreFrame.mem (hb : b ∈ v.storeQueue) : ∃ a ∈ u.storeQueue, b.inst = a.inst := by
  obtain ⟨j, hj⟩ := exists_lookup_of_mem v.storeHead hb
  obtain ⟨a, ha, hinst, -⟩ := h.order.store j b hj
  exact ⟨a, mem_of_lookup ha, hinst⟩

theorem StoreFrame.of_waits (hb : v.Waits b) : ∃ a, u.Waits a ∧ b.inst = a.inst := by
  obtain ⟨j, hj, hb⟩ := hb
  obtain ⟨a, ha, hinst, -⟩ := h.order.store j b hb
  exact ⟨a, ⟨j, h.storeWBIt ▸ hj, ha⟩, hinst⟩

theorem StoreFrame.waits (ha : u.Waits a) : ∃ b, v.Waits b ∧ b.inst = a.inst := by
  obtain ⟨j, hj, ha⟩ := ha
  obtain ⟨b, hb, hinst⟩ := h.waiting j a hj ha
  exact ⟨b, ⟨j, h.storeWBIt.symm ▸ hj, hb⟩, hinst⟩

theorem StoreFrame.tracks (ht : Tracks stores last u)
    (hwritten : ∀ b ∈ v.storeQueue, b.size ≠ 0 → b.Written)
    (hexecuted : ∀ b ∈ v.storeQueue, b.canWB = true → b.size ≠ 0) : Tracks stores last v where
  program := by
    intro s
    rw [ht.program, Sent, Sent, h.sent]
    apply or_congr Iff.rfl
    constructor
    · rintro ⟨a, ha, rfl⟩
      exact h.waits ha
    · rintro ⟨b, hb, rfl⟩
      obtain ⟨a, ha, hinst⟩ := h.of_waits hb
      exact ⟨a, ha, hinst.symm⟩
  sorted := ht.sorted
  sentSorted := h.sent ▸ ht.sentSorted
  sentFirst := by
    intro c hc b hb
    obtain ⟨a, ha, hinst⟩ := h.of_waits hb
    rw [hinst]
    exact ht.sentFirst c (h.sent ▸ hc) a ha
  sentWritten := h.sent ▸ ht.sentWritten
  ordinary := by
    intro b hb
    obtain ⟨a, ha, hinst⟩ := h.mem hb
    rw [hinst]
    exact ht.ordinary a ha
  written := hwritten
  executed := hexecuted
  recent := ht.recent

theorem StoreFrame.aligned (ha : Aligned u)
    (hcommitted : ∀ ld ∈ u.loadQueue, ∀ b ∈ v.storeQueue, b.canWB = true →
      b.inst.seqNum < ld.inst.seqNum) :
    Aligned v where
  sqLow := by
    intro i ld hld
    rw [h.storeWBIt]
    exact ha.sqLow i ld (h.loads.loadAt i ▸ hld)
  sent := by
    rw [h.sent, h.loads.loadQueue]
    exact ha.sent
  committed := by
    rw [h.loads.loadQueue]
    exact hcommitted

theorem StoreFrame.consistent (hc : Consistent init stores last u) (hwf : StoresWf v)
    (hkeep : ∀ j a b, u.storeAt j = some a → v.storeAt j = some b → b.size = a.size ∧
      b.byte = a.byte ∧ (b.canWB = true → a.canWB = true ∨
        a.size ≠ 0 ∧ ∀ ld ∈ u.loadQueue, a.inst.seqNum < ld.inst.seqNum)) :
    Consistent init stores last v := by
  have hentry : ∀ b ∈ v.storeQueue, ∃ a ∈ u.storeQueue, b.inst = a.inst ∧ b.size = a.size ∧
      b.byte = a.byte ∧ (b.canWB = true → a.canWB = true ∨
        a.size ≠ 0 ∧ ∀ ld ∈ u.loadQueue, a.inst.seqNum < ld.inst.seqNum) := by
    intro b hb
    obtain ⟨j, hj⟩ := exists_lookup_of_mem v.storeHead hb
    obtain ⟨a, ha, hinst, -⟩ := h.order.store j b hj
    exact ⟨a, mem_of_lookup ha, hinst, hkeep j a b ha hj⟩
  have hpending : ∀ s, v.Pending s ↔ u.Pending s := by
    intro s
    constructor
    · rintro ⟨b, ⟨j, hj, hb⟩, hsize, rfl⟩
      obtain ⟨a, ha, hinst, -⟩ := h.order.store j b hb
      rw [(hkeep j a b ha hb).1] at hsize
      exact ⟨a, ⟨j, h.storeWBIt ▸ hj, ha⟩, hsize, hinst.symm⟩
    · rintro ⟨a, ⟨j, hj, ha⟩, hsize, rfl⟩
      obtain ⟨b, hb, hinst⟩ := h.waiting j a hj ha
      rw [← (hkeep j a b ha hb).1] at hsize
      exact ⟨b, ⟨j, h.storeWBIt.symm ▸ hj, hb⟩, hsize, hinst⟩
  constructor
  case order => exact hc.order.same h.order hwf (h.loads.loadsWf hc.order.loads)
  case divided => exact hc.divided.same h.order
  case tracks =>
    apply h.tracks hc.tracks
    · intro b hb hsize
      obtain ⟨a, ha, hinst, hsize', hbyte, -⟩ := hentry b hb
      have hw := hc.tracks.written a ha (hsize' ▸ hsize)
      exact ⟨by rw [hsize', hinst, hw.size], fun i => by rw [hbyte, hinst, hw.byte]⟩
    · intro b hb hcan
      obtain ⟨a, ha, -, hsize, -, hcan'⟩ := hentry b hb
      rw [hsize]
      rcases hcan' hcan with h | ⟨h, -⟩
      · exact hc.tracks.executed a ha h
      · exact h
  case aligned =>
    apply h.aligned hc.aligned
    intro ld hld b hb hcan
    obtain ⟨a, ha, hinst, -, -, hcan'⟩ := hentry b hb
    rw [hinst]
    rcases hcan' hcan with h | ⟨-, h⟩
    · exact hc.aligned.committed ld hld a ha h
    · exact h ld hld
  case fine =>
    rw [h.loads.loadQueue]
    intro ld hld
    have hfine := hc.fine ld hld
    refine hfine.transfer (.refl ld) (hfine.right.imp ?_ fun hr => hr.congr fun s _ _ => ?_)
    · rw [Doomed, Doomed, h.loads.violators]
      exact id
    · rw [hpending, Sent, h.sent]
      exact ⟨Iff.rfl, id⟩
  case retired => exact h.loads.retired ▸ hc.retired

end

theorem Remarked.frame (h : Remarked u v) : StoreFrame u v where
  loads := h.loads
  sent := by rw [h.eq]
  storeWBIt := by rw [h.eq]
  order := h.order
  waiting := by
    intro j a _ ha
    obtain ⟨b, hb, hplace⟩ := lookup_of_map_eq h.places ha
    exact ⟨b, by rw [h.eq]; exact hb, congrArg Prod.fst hplace⟩

section

variable (hc : Consistent init stores last u)
include hc

theorem Consistent.touch {idx : Nat} (hst : u.storeAt idx = some st) :
    Consistent init stores last (u.modifyStore idx ({ · with committed := true })) := by
  apply (remarked_modifyStore u idx ({ · with committed := true }) fun _ => rfl).frame.consistent hc
    (hc.order.stores.retouch hst rfl rfl rfl).wf
  intro j a b ha hb
  rcases storeAt_of_modifyStore hst hb with ⟨rfl, rfl⟩ | ⟨-, hb⟩
  · cases ha.symm.trans hst
    exact ⟨rfl, rfl, .inl⟩
  · cases ha.symm.trans hb
    exact ⟨rfl, rfl, .inl⟩

theorem Consistent.of_sameStores (hloads : SameLoads u v) (hwf : StoresWf v)
    (hsent : v.sent = u.sent) (hqueue : v.storeQueue = u.storeQueue)
    (hhead : v.storeHead = u.storeHead) (hit : v.storeWBIt = u.storeWBIt) :
    Consistent init stores last v := by
  cases u
  cases v
  cases hloads
  cases hsent
  cases hqueue
  cases hhead
  cases hit
  have hloads := hc.order.loads
  exact {
    order := { hc.order with stores := hwf, loads := { hloads with } }
    divided := { hc.divided with }
    tracks := { hc.tracks with }
    aligned := { hc.aligned with }
    fine := fun ld hld =>
      { hc.fine ld hld with right := (hc.fine ld hld).right.imp_right fun hr => { hr with } }
    retired := hc.retired }

theorem Consistent.commitStores {youngest_inst : InstSeqNum}
    (hloads : ∀ ld ∈ u.loadQueue, youngest_inst < ld.inst.seqNum)
    (hexecuted : ∀ st ∈ u.storeQueue, st.inst.seqNum ≤ youngest_inst → st.size ≠ 0) :
    Consistent init stores last (u.commitStores youngest_inst) := by
  apply (remarked_commitStores hc.order.stores youngest_inst).frame.consistent hc
    (hc.order.stores.commitStores youngest_inst).wf
  intro j a b ha hb
  rw [storeAt_commitStores hc.order.stores, ha] at hb
  cases hb
  refine ⟨rfl, rfl, fun hcan => ?_⟩
  simp only [marked, Bool.or_eq_true, decide_eq_true_eq] at hcan
  refine hcan.imp id fun hle => ⟨hexecuted a (mem_of_lookup ha) hle, fun ld hld => ?_⟩
  exact hle.trans_lt (hloads ld hld)

theorem Consistent.completeStore {idx : Nat} (hst : u.storeAt idx = some st)
    (hidx : idx < u.storeWBIt) (hcompl : st.completed = false) :
    Consistent init stores last (u.completeStore p idx) := by
  have hframe : StoreFrame u (u.completeStore p idx) := {
    loads := sameLoads_completeStore idx
    sent := by rw [completeStore_eq hst]; rfl
    storeWBIt := storeWBIt_completeStore idx
    order := sameOrder_completeStore hst
    waiting := fun j a hj ha =>
      ⟨a, (storeAt_completeStore_of_le hc.order.stores hst hidx hj).trans ha, rfl⟩ }
  apply hframe.consistent hc (hc.order.stores.completeStore hst hidx hcompl).wf
  intro j a b ha hb
  rcases storeAt_of_completeStore hst hb with ⟨rfl, rfl⟩ | hb
  · cases ha.symm.trans hst
    exact ⟨rfl, rfl, .inl⟩
  · cases ha.symm.trans hb
    exact ⟨rfl, rfl, .inl⟩

theorem Consistent.send (hst : u.storeAt u.storeWBIt = some st) (hcan : st.canWB = true) :
    Consistent init stores last ((u.setBlocked false).storePostSend p) := by
  have hwf := ((writesBack_stay (p := p) u).send u st ⟨hc.order.stores, .refl u⟩ hst hcan).wf
  have heq := storePostSend_eq (p := p) (u := u.setBlocked false) hst
  have hloads : SameLoads u ((u.setBlocked false).storePostSend p) := by
    rw [heq]
    exact rfl
  have hsent : ((u.setBlocked false).storePostSend p).sent = u.sent ++ [st] := by rw [heq]; rfl
  have hit : ((u.setBlocked false).storePostSend p).storeWBIt = u.storeWBIt + 1 := by rw [heq]; rfl
  have hqueue : ((u.setBlocked false).storePostSend p).storeQueue = u.storeQueue := by rw [heq]; rfl
  have hhead : ((u.setBlocked false).storePostSend p).storeHead = u.storeHead := by rw [heq]; rfl
  generalize (u.setBlocked false).storePostSend p = v at hwf hloads hsent hit hqueue hhead
  have hat : ∀ j, v.storeAt j = u.storeAt j := fun j => by simp only [storeAt, hhead, hqueue]
  have hmem : st ∈ u.storeQueue := mem_of_lookup hst
  have hwaits : u.Waits st := ⟨u.storeWBIt, le_rfl, hst⟩
  have hsize := hc.tracks.executed st hmem hcan
  have hbehind : ∀ a, v.Waits a → u.Waits a ∧ st.inst.seqNum < a.inst.seqNum := by
    rintro a ⟨j, hj, ha⟩
    rw [hit] at hj
    rw [hat] at ha
    exact ⟨⟨j, Nat.le_of_succ_le hj, ha⟩, hc.order.stores.sorted _ j st a hst ha hj⟩
  have hsplit : ∀ a, u.Waits a → a = st ∨ v.Waits a := by
    rintro a ⟨j, hj, ha⟩
    rcases Nat.eq_or_lt_of_le hj with rfl | hj
    · exact .inl (Option.some.inj (ha.symm.trans hst))
    · exact .inr ⟨j, hit ▸ hj, (hat j).trans ha⟩
  have hsent_iff : ∀ s, v.Sent s ↔ u.Sent s ∨ st.inst = s := by
    intro s
    rw [Sent, hsent]
    constructor
    · rintro ⟨a, ha, rfl⟩
      rcases mem_append.mp ha with ha | ha
      · exact .inl ⟨a, ha, rfl⟩
      · rw [mem_singleton.mp ha]
        exact .inr rfl
    · rintro (⟨a, ha, rfl⟩ | rfl)
      · exact ⟨a, mem_append_left _ ha, rfl⟩
      · exact ⟨st, mem_append_right _ (mem_singleton_self st), rfl⟩
  have horder : SameOrder u v :=
    sameOrder_of_places hloads.loadHead (by rw [hloads.loadQueue]) hhead (by rw [hqueue])
  constructor
  case order => exact hc.order.same horder hwf (hloads.loadsWf hc.order.loads)
  case divided => exact hc.divided.same horder
  case tracks =>
    constructor
    case program =>
      intro s
      rw [hc.tracks.program, hsent_iff, or_assoc]
      apply or_congr Iff.rfl
      constructor
      · rintro ⟨a, ha, rfl⟩
        rcases hsplit a ha with rfl | ha
        · exact .inl rfl
        · exact .inr ⟨a, ha, rfl⟩
      · rintro (rfl | ⟨a, ha, rfl⟩)
        · exact ⟨st, hwaits, rfl⟩
        · exact ⟨a, (hbehind a ha).1, rfl⟩
    case sorted => exact hc.tracks.sorted
    case sentSorted =>
      rw [hsent, pairwise_append]
      refine ⟨hc.tracks.sentSorted, pairwise_singleton _ _, fun a ha b hb => ?_⟩
      rw [mem_singleton.mp hb]
      exact hc.tracks.sentFirst a ha st hwaits
    case sentFirst =>
      rw [hsent]
      intro c hc' a ha
      rcases mem_append.mp hc' with hc' | hc'
      · exact hc.tracks.sentFirst c hc' a (hbehind a ha).1
      · rw [mem_singleton.mp hc']
        exact (hbehind a ha).2
    case sentWritten =>
      rw [hsent]
      intro c hc'
      rcases mem_append.mp hc' with hc' | hc'
      · exact hc.tracks.sentWritten c hc'
      · rw [mem_singleton.mp hc']
        exact hc.tracks.written st hmem hsize
    case ordinary => exact hqueue ▸ hc.tracks.ordinary
    case written => exact hqueue ▸ hc.tracks.written
    case executed => exact hqueue ▸ hc.tracks.executed
    case recent => exact hc.tracks.recent
  case aligned =>
    constructor
    case sqLow =>
      intro i ld hld
      rw [hloads.loadAt] at hld
      rw [hit]
      exact (hc.order.split i ld _ st hld hst).mpr
        (hc.aligned.committed ld (mem_of_lookup hld) st hmem hcan)
    case sent =>
      rw [hloads.loadQueue, hsent]
      intro ld hld a ha
      rcases mem_append.mp ha with ha | ha
      · exact hc.aligned.sent ld hld a ha
      · rw [mem_singleton.mp ha]
        exact hc.aligned.committed ld hld st hmem hcan
    case committed =>
      rw [hloads.loadQueue, hqueue]
      exact hc.aligned.committed
  case fine =>
    rw [hloads.loadQueue]
    intro ld hld
    have hfine := hc.fine ld hld
    refine hfine.transfer (.refl ld) (hfine.right.imp ?_ fun hr => hr.congr fun s _ _ => ⟨?_, ?_⟩)
    · rw [Doomed, Doomed, hloads.violators]
      exact id
    · rw [hsent_iff, or_assoc]
      apply or_congr Iff.rfl
      constructor
      · rintro (rfl | ⟨a, ha, hsize', rfl⟩)
        · exact ⟨st, hwaits, hsize, rfl⟩
        · exact ⟨a, (hbehind a ha).1, hsize', rfl⟩
      · rintro ⟨a, ha, hsize', rfl⟩
        rcases hsplit a ha with rfl | ha
        · exact .inl rfl
        · exact .inr ⟨a, ha, hsize', rfl⟩
    · rintro ⟨a, ha, hsize', rfl⟩
      exact ⟨a, (hbehind a ha).1, hsize', rfl⟩
  case retired => exact hloads.retired ▸ hc.retired

end

theorem writesBack_consistent : WritesBack p (Consistent init stores last) where
  wf := fun u hc => hc.order.stores
  touch := by
    intro u st asserted hc hst hcan
    have hwf := (SameStores.stay (u := u) (v := { u with asserted }) rfl
      hc.order.stores).wf
    have h := hc.of_sameStores (v := { u with asserted }) rfl hwf rfl rfl rfl rfl
    exact h.touch hst
  finish := by
    intro u st hc hst hcan _ hspecial
    have hmem : st ∈ u.storeQueue := mem_of_lookup hst
    obtain ⟨⟨-, hcond, -⟩, -, -, hlocal⟩ := (hc.tracks.ordinary st hmem).flags
    rcases hspecial with h | h | h
    · exact absurd h (hc.tracks.executed st hmem hcan)
    · simp [hcond] at h
    · simp [hlocal] at h
  skip := by
    intro u st hc hst hcan _ hprefetch
    obtain ⟨⟨-, -, h⟩, -⟩ := (hc.tracks.ordinary st (mem_of_lookup hst)).flags
    simp [h] at hprefetch
  send := fun u st hc hst hcan => hc.send hst hcan
  block := by
    intro u st hc hst hcan
    have hwf := ((writesBack_stay (p := p) u).block u st ⟨hc.order.stores, .refl u⟩ hst hcan).wf
    exact hc.of_sameStores rfl hwf rfl rfl rfl rfl

private theorem waits_insertStore (hw : StoresWf u) (inst : DynInst) (st : SQEntry) :
    (u.insertStore p inst).Waits st ↔ u.Waits st ∨ st = { inst, lqIt := u.loadEnd } := by
  have hat := storeAt_insertStore (p := p) (u := u) inst
  constructor
  · rintro ⟨j, hj, h⟩
    rw [hat] at h
    split at h
    · exact .inr (Option.some.inj h).symm
    · exact .inl ⟨j, hj, h⟩
  · rintro (⟨j, hj, h⟩ | rfl)
    · have hlt : j < u.storeEnd := (bounds_of_lookup h).2
      exact ⟨j, hj, by rw [hat, if_neg hlt.ne, h]⟩
    · exact ⟨u.storeEnd, hw.high, by rw [hat, if_pos rfl]⟩

theorem Consistent.insertStore (hc : Consistent init stores last u) {inst : DynInst}
    (hord : inst.Ordinary) (hnew : last < inst.seqNum) :
    Consistent init (stores ++ [inst]) inst.seqNum (u.insertStore p inst) := by
  have hwaits := waits_insertStore (p := p) hc.order.stores inst
  have hold : ∀ n, n ≤ last → n < inst.seqNum := fun n hn => hn.trans_lt hnew
  constructor
  case order => exact hc.order.insertStore hnew
  case divided => exact hc.divided.insertStore hc.order hnew
  case tracks =>
    have ht := hc.tracks
    constructor
    case program =>
      intro s
      rw [mem_append, ht.program, mem_singleton, or_assoc]
      apply or_congr Iff.rfl
      constructor
      · rintro (⟨st, hst, rfl⟩ | rfl)
        · exact ⟨st, (hwaits st).mpr (.inl hst), rfl⟩
        · exact ⟨_, (hwaits _).mpr (.inr rfl), rfl⟩
      · rintro ⟨st, hst, rfl⟩
        rcases (hwaits st).mp hst with hst | rfl
        · exact .inl ⟨st, hst, rfl⟩
        · exact .inr rfl
    case sorted =>
      refine pairwise_append.mpr ⟨ht.sorted, pairwise_singleton _ _, fun a ha b hb => ?_⟩
      rw [mem_singleton.mp hb]
      exact hold _ (ht.recent a ha)
    case sentSorted => exact ht.sentSorted
    case sentFirst =>
      intro a ha st hst
      rcases (hwaits st).mp hst with hst | rfl
      · exact ht.sentFirst a ha st hst
      · exact hold _ (ht.recent _ ((ht.program _).mpr (.inl ⟨a, ha, rfl⟩)))
    case sentWritten => exact ht.sentWritten
    case ordinary =>
      intro st hst
      rcases mem_insertStore hst with hst | rfl
      · exact ht.ordinary st hst
      · exact hord
    case written =>
      intro st hst hsize
      rcases mem_insertStore hst with hst | rfl
      · exact ht.written st hst hsize
      · exact absurd rfl hsize
    case executed =>
      intro st hst hcan
      rcases mem_insertStore hst with hst | rfl
      · exact ht.executed st hst hcan
      · cases hcan
    case recent =>
      intro s hs
      rcases mem_append.mp hs with hs | hs
      · exact (hold _ (ht.recent s hs)).le
      · exact (congrArg _ (mem_singleton.mp hs)).le
  case aligned =>
    have ha := hc.aligned
    constructor
    case sqLow => exact ha.sqLow
    case sent => exact ha.sent
    case committed =>
      intro ld hld st hst hcan
      rcases mem_insertStore hst with hst | rfl
      · exact ha.committed ld hld st hst hcan
      · cases hcan
  case fine =>
    intro ld hld
    have hfine := hc.fine ld hld
    have hpending : ∀ s, (u.insertStore p inst).Pending s ↔ u.Pending s := by
      intro s
      constructor
      · rintro ⟨st, hst, hsize, rfl⟩
        rcases (hwaits st).mp hst with hst | rfl
        · exact ⟨st, hst, hsize, rfl⟩
        · exact absurd rfl hsize
      · rintro ⟨st, hst, hsize, rfl⟩
        exact ⟨st, (hwaits st).mpr (.inl hst), hsize, rfl⟩
    refine hfine.transfer (.refl ld) (hfine.right.imp id fun hr => hr.congr fun s _ _ => ?_)
    rw [hpending]
    exact ⟨Iff.rfl, id⟩
  case retired =>
    intro ld hld
    obtain ⟨hle, hcorrect⟩ := hc.retired ld hld
    refine ⟨(hold _ hle).le, ⟨fun k hk => ?_⟩⟩
    obtain ⟨value, hvalue, hshows⟩ := hcorrect.data k hk
    refine ⟨value, hvalue, hshows.congr fun s _ => ⟨?_, ?_⟩⟩
    · rintro ⟨hlt, hs⟩
      refine ⟨hlt, (mem_append.mp hs).resolve_right fun h => ?_⟩
      rw [mem_singleton.mp h] at hlt
      exact absurd hlt (hold _ hle).not_gt
    · rintro ⟨hlt, hs⟩
      exact ⟨hlt, mem_append_left _ hs⟩

theorem Consistent.executeStore {idx : Nat} (hc : Consistent init stores last u)
    (hst : u.storeAt idx = some st) (honce : st.size = 0) :
    Consistent init stores last (u.executeStore p idx .accessed) := by
  have hmem : st ∈ u.storeQueue := mem_of_lookup hst
  have hord := hc.tracks.ordinary st hmem
  have hsize : st.write.size ≠ 0 := hord.fits.positive.ne'
  have hcan : st.canWB = false := by
    by_contra h
    exact hc.tracks.executed st hmem (Bool.of_not_eq_false h) honce
  have hahead : u.storeWBIt ≤ idx := by
    by_contra hlt
    exact absurd (hc.order.stores.past idx st hst (Nat.lt_of_not_le hlt)) (by simp [hcan])
  let w := u.modifyStore idx SQEntry.write
  have hat := storeAt_modifyStore hst SQEntry.write
  have heq : u.executeStore p idx .accessed = w.checkViolations p st.lqIt st.inst false := by
    obtain ⟨⟨hatomic, hcond, -⟩, -⟩ := hord.flags
    have hw : w.storeAt idx = some st.write := by rw [hat, if_pos rfl]
    have hflags : (st.write.inst.isStoreConditional || st.write.inst.isAtomic) = false := by
      simp [SQEntry.write, hatomic, hcond]
    simp only [LSQUnit.executeStore, w, hw, hflags, beq_eq_false_iff_ne.mpr hsize,
      Bool.false_eq_true, ↓reduceIte]
    rfl
  have hmodified : StoreFrame u w := (remarked_modifyStore u idx SQEntry.write fun _ => rfl).frame
  have hqueue : ∀ b ∈ w.storeQueue, b = st.write ∨ b ∈ u.storeQueue := by
    intro b hb
    obtain ⟨j, hj⟩ := exists_lookup_of_mem w.storeHead hb
    rcases storeAt_of_modifyStore hst hj with ⟨-, rfl⟩ | ⟨-, hj⟩
    · exact .inl rfl
    · exact .inr (mem_of_lookup hj)
  have htracks : Tracks stores last w := by
    apply hmodified.tracks hc.tracks
    · intro b hb hsize'
      rcases hqueue b hb with rfl | hb
      · exact SQEntry.written_write hord
      · exact hc.tracks.written b hb hsize'
    · intro b hb hcan'
      rcases hqueue b hb with rfl | hb
      · exact hsize
      · exact hc.tracks.executed b hb hcan'
  have haligned : Aligned w := by
    apply hmodified.aligned hc.aligned
    intro ld hld b hb hcan'
    rcases hqueue b hb with rfl | hb
    · exact absurd (hcan.symm.trans hcan') Bool.false_ne_true
    · exact hc.aligned.committed ld hld b hb hcan'
  have hloads : LoadsWf w := hmodified.loads.loadsWf hc.order.loads
  have hwf : StoresWf w := (hc.order.stores.retouch hst rfl rfl rfl).wf
  have hframe := loadFrame_checkViolations (p := p) hloads st.lqIt st.inst false
  have hpending : ∀ s, w.Pending s ↔ u.Pending s ∨ st.inst = s := by
    intro s
    constructor
    · rintro ⟨b, ⟨j, hj, hb⟩, hsize', rfl⟩
      rcases storeAt_of_modifyStore hst hb with ⟨-, rfl⟩ | ⟨-, hb⟩
      · exact .inr rfl
      · exact .inl ⟨b, ⟨j, hj, hb⟩, hsize', rfl⟩
    · rintro (⟨b, ⟨j, hj, hb⟩, hsize', rfl⟩ | rfl)
      · have hne : j ≠ idx := by
          rintro rfl
          cases hb.symm.trans hst
          exact hsize' honce
        exact ⟨b, ⟨j, hj, by rw [hat, if_neg hne, hb]⟩, hsize', rfl⟩
      · exact ⟨st.write, ⟨idx, hahead, by rw [hat, if_pos rfl]⟩, hsize, rfl⟩
  rw [heq]
  constructor
  case order =>
    exact (hc.order.same hmodified.order hwf hloads).same hframe.order (hframe.stores.stay hwf).wf
      (hloads.checkViolations _ _ _)
  case divided => exact (hc.divided.same hmodified.order).same hframe.order
  case tracks => exact hframe.tracks htracks
  case aligned => exact hframe.aligned haligned
  case fine =>
    intro b hb
    obtain ⟨i, hi⟩ := exists_lookup_of_mem w.loadHead hb
    obtain ⟨a, ha, hmarked, hfound⟩ := loadAt_checkViolations hloads hi
    have hfine := hc.fine a (mem_of_lookup ha)
    refine hfine.transfer (sameData_of_marked hmarked) ?_
    rcases hfine.right with ⟨x, hx, hle⟩ | hr
    · exact .inl ⟨x, hframe.violators hx, hle⟩
    cases hvalid : a.effAddrValid with
    | false => exact .inr (.of_idle hfine hvalid)
    | true =>
      by_cases hpassed : st.inst.seqNum < a.inst.seqNum ∧
          a.inst.request.range.Overlaps st.inst.request.range
      · obtain ⟨hlt, x, hxa, hxs⟩ := hpassed
        have hover := granulesOverlap_of_overlaps p.depCheckShift (.of_fits hord.fits)
          (.of_fits hfine.ordinary.fits) ⟨x, hxs, hxa⟩
        rcases hfound ((hc.divided.split i a idx st ha hst).mpr hlt) hvalid
          hfine.ordinary.flags.2.2.1 hover with hdoomed | ⟨h, -⟩
        · exact .inl hdoomed
        · cases h
      · refine .inr (hr.congr fun s hlt hover => ?_)
        have hne : st.inst ≠ s := by
          rintro rfl
          exact hpassed ⟨hlt, hover⟩
        rw [hframe.pending_iff, hpending, or_iff_left hne]
        exact ⟨Iff.rfl, id⟩
  case retired => exact hc.retired

end

section
variable {squashed_num : InstSeqNum}

theorem LoadsWf.mem_squash (hw : LoadsWf u) {ld : LQEntry}
    (hld : ld ∈ (u.squash squashed_num).loadQueue) :
    ld ∈ u.loadQueue ∧ ld.inst.seqNum ≤ squashed_num := by
  obtain ⟨i, hi⟩ := exists_lookup_of_mem (u.squash squashed_num).loadHead hld
  obtain ⟨hi, hle⟩ := loadAt_squash hw hi
  exact ⟨mem_of_lookup hi, hle⟩

theorem Aligned.squash (ha : Aligned u) (hwf : StoresWf u) (hloads : LoadsWf u)
    (hcommitted : ∀ st ∈ u.storeQueue, st.canWB = true → st.inst.seqNum ≤ squashed_num) :
    Aligned (u.squash squashed_num) := by
  obtain ⟨_, _, _, _, heq⟩ := squash_eq u squashed_num
  constructor
  case sqLow =>
    intro i ld hld
    have hit : (u.squash squashed_num).storeWBIt = u.storeWBIt := by rw [heq]
    rw [hit]
    exact ha.sqLow i ld (loadAt_squash hloads hld).1
  case sent =>
    have hsent : (u.squash squashed_num).sent = u.sent := by rw [heq]
    rw [hsent]
    exact fun ld hld => ha.sent ld (hloads.mem_squash hld).1
  case committed =>
    exact fun ld hld st hst => ha.committed ld (hloads.mem_squash hld).1 st
      (hwf.mem_squash hcommitted hst).1

theorem Consistent.squash (hc : Consistent init stores last u)
    (hretired : ∀ ld ∈ u.retired, ld.inst.seqNum ≤ squashed_num)
    (hsent : ∀ st ∈ u.sent, st.inst.seqNum ≤ squashed_num)
    (hcommitted : ∀ st ∈ u.storeQueue, st.canWB = true → st.inst.seqNum ≤ squashed_num) :
    Consistent init (stores.filter (·.seqNum ≤ squashed_num)) last (u.squash squashed_num) := by
  have ht := hc.tracks
  obtain ⟨_, _, _, _, heq⟩ := squash_eq u squashed_num
  have hsent' : (u.squash squashed_num).sent = u.sent := by rw [heq]
  have hit : (u.squash squashed_num).storeWBIt = u.storeWBIt := by rw [heq]
  have hretired' : (u.squash squashed_num).retired = u.retired := by rw [heq]
  have hviolators : (u.squash squashed_num).violators = u.violators.filter (· ≤ squashed_num) := by
    rw [heq]
  have hmem : ∀ st ∈ (u.squash squashed_num).storeQueue,
      st ∈ u.storeQueue ∧ st.inst.seqNum ≤ squashed_num := fun _ => hc.order.stores.mem_squash hcommitted
  have hwaits : ∀ st, (u.squash squashed_num).Waits st ↔
      u.Waits st ∧ st.inst.seqNum ≤ squashed_num := by
    intro st
    constructor
    · rintro ⟨j, hj, hst⟩
      exact ⟨⟨j, hit ▸ hj, storeAt_of_squash hst⟩, (hmem st (mem_of_lookup hst)).2⟩
    · rintro ⟨⟨j, hj, hst⟩, hle⟩
      exact ⟨j, hit.symm ▸ hj, storeAt_squash hst (by simp [spared, hle])⟩
  have hpending : ∀ s : DynInst, s.seqNum ≤ squashed_num →
      ((u.squash squashed_num).Pending s ↔ u.Pending s) := by
    intro s hle
    constructor
    · rintro ⟨st, hst, hsize, rfl⟩
      exact ⟨st, ((hwaits st).mp hst).1, hsize, rfl⟩
    · rintro ⟨st, hst, hsize, rfl⟩
      exact ⟨st, (hwaits st).mpr ⟨hst, hle⟩, hsize, rfl⟩
  constructor
  case order => exact hc.order.squash squashed_num
  case divided => exact hc.divided.squash hc.order hcommitted
  case tracks =>
    constructor
    case program =>
      intro s
      rw [mem_filter, ht.program, Sent, Sent, hsent', decide_eq_true_eq]
      constructor
      · rintro ⟨h | ⟨st, hst, rfl⟩, hle⟩
        · exact .inl h
        · exact .inr ⟨st, (hwaits st).mpr ⟨hst, hle⟩, rfl⟩
      · rintro (⟨st, hst, rfl⟩ | ⟨st, hst, rfl⟩)
        · exact ⟨.inl ⟨st, hst, rfl⟩, hsent st hst⟩
        · exact ⟨.inr ⟨st, ((hwaits st).mp hst).1, rfl⟩, ((hwaits st).mp hst).2⟩
    case sorted => exact ht.sorted.filter _
    case sentSorted => exact hsent'.symm ▸ ht.sentSorted
    case sentFirst =>
      intro a ha st hst
      exact ht.sentFirst a (hsent' ▸ ha) st ((hwaits st).mp hst).1
    case sentWritten => exact hsent'.symm ▸ ht.sentWritten
    case ordinary => exact fun st hst => ht.ordinary st (hmem st hst).1
    case written => exact fun st hst => ht.written st (hmem st hst).1
    case executed => exact fun st hst => ht.executed st (hmem st hst).1
    case recent => exact fun s hs => ht.recent s (mem_filter.mp hs).1
  case aligned => exact hc.aligned.squash hc.order.stores hc.order.loads hcommitted
  case fine =>
    intro ld hld
    obtain ⟨hld, hle⟩ := hc.order.loads.mem_squash hld
    have hfine := hc.fine ld hld
    refine hfine.transfer (.refl ld) (hfine.right.imp ?_ fun hr => hr.congr fun s hlt _ => ?_)
    · rintro ⟨w, hw, hwle⟩
      rw [Doomed, hviolators]
      exact ⟨w, mem_filter.mpr ⟨hw, by simpa using hwle.trans hle⟩, hwle⟩
    · rw [Sent, hsent', hpending s (hlt.le.trans hle)]
      exact ⟨Iff.rfl, id⟩
  case retired =>
    rw [hretired']
    intro ld hld
    obtain ⟨hle, hcorrect⟩ := hc.retired ld hld
    refine ⟨hle, ⟨fun k hk => ?_⟩⟩
    obtain ⟨value, hvalue, hshows⟩ := hcorrect.data k hk
    refine ⟨value, hvalue, hshows.congr fun s _ => ?_⟩
    rw [mem_filter, decide_eq_true_eq]
    constructor
    · rintro ⟨hlt, hs, -⟩
      exact ⟨hlt, hs⟩
    · rintro ⟨hlt, hs⟩
      exact ⟨hlt, hs, hlt.le.trans (hretired ld hld)⟩

end

end LSQUnit

end Gem5Core.O3.Lsq
