import Gem5Core.Lib.Protocol
import Gem5Core.O3.MemDep

/-! Dependence counts of the memory dependence unit, over closed forms of its calls. -/
namespace Gem5Core.O3.MemDepInv
open Pred.Branch StoreSets MemDep Function List
open Lib.Protocol (run Legal run_inv run_past)
open MemDepUnit

variable {assoc : Nat} {p : Params assoc} {u : MemDepUnit assoc} {sn w : InstSeqNum}

def pushed (w : InstSeqNum) (e : MemDepEntry) : MemDepEntry :=
  { e with dependInsts := e.dependInsts ++ [w] }

private theorem foldl_addDependent (sn : InstSeqNum) (u : MemDepUnit assoc) {ps : List InstSeqNum}
    (hps : ps.Nodup) :
    ps.foldl (addDependent sn) u =
      { u with entries := fun x => if x ∈ ps then pushed sn (u.entries x) else u.entries x } := by
  induction ps generalizing u with
  | nil => simp
  | cons q ps ih =>
    obtain ⟨hq, hnodup⟩ := nodup_cons.mp hps
    rw [foldl_cons, ih _ hnodup]
    refine congrArg (fun entries => { u with entries }) (funext fun x => ?_)
    by_cases hx : x = q
    · subst hx
      simp [addDependent, modifyEntry, hq, pushed]
    · simp [addDependent, modifyEntry, hx]

def woken (e : MemDepEntry) : MemDepEntry := { e with memDeps := e.memDeps - 1 }

def ripens (e : MemDepEntry) : Bool := e.memDeps - 1 == 0 && e.regsReady && !e.squashed

theorem wakeOne_eq (hpos : 0 < (u.entries w).memDeps) :
    u.wakeOne w =
      { u with
        entries := update u.entries w (woken (u.entries w))
        moves := u.moves ++
          if ripens (u.entries w) then [⟨woken (u.entries w), .dependences⟩] else [] } := by
  unfold wakeOne ripens
  simp only [modifyEntry, update_self, hpos, decide_true, Bool.and_true]
  split
  next h =>
    simp only [Bool.and_eq_true] at h
    simp [moveToReady, woken, h]
  next => simp [woken]

theorem foldl_wakeOne (u : MemDepUnit assoc) {ws : List InstSeqNum} (hws : ws.Nodup)
    (hpos : ∀ w ∈ ws, 0 < (u.entries w).memDeps) :
    ws.foldl wakeOne u =
      { u with
        entries := fun x => if x ∈ ws then woken (u.entries x) else u.entries x
        moves := u.moves ++ (ws.filter fun w => ripens (u.entries w)).map
          fun w => ⟨woken (u.entries w), .dependences⟩ } := by
  induction ws generalizing u with
  | nil => simp
  | cons w ws ih =>
    obtain ⟨hw, hnodup⟩ := nodup_cons.mp hws
    -- the rest of the list finds its entries unchanged
    have hrest : ∀ x ∈ ws, update u.entries w (woken (u.entries w)) x = u.entries x :=
      fun x hx => update_of_ne (ne_of_mem_of_not_mem hx hw) _ _
    rw [foldl_cons, wakeOne_eq (hpos w mem_cons_self), ih _ hnodup fun x hx => by
      simpa [hrest x hx] using hpos x (mem_cons_of_mem _ hx)]
    simp only [mk.injEq, and_true, true_and]
    constructor
    · funext x
      by_cases hx : x = w
      · subst hx
        simp [hw]
      · simp [hx]
    · have hfilter : (ws.filter fun x =>
          ripens (update u.entries w (woken (u.entries w)) x)) =
            ws.filter fun x => ripens (u.entries x) :=
        filter_congr fun x hx => by rw [hrest x hx]
      rw [hfilter, filter_cons]
      have hmap : ((ws.filter fun x => ripens (u.entries x)).map fun x => (⟨woken
          (update u.entries w (woken (u.entries w)) x), .dependences⟩ : Move)) =
            (ws.filter fun x => ripens (u.entries x)).map fun x =>
              ⟨woken (u.entries x), .dependences⟩ :=
        map_congr_left fun x hx => by rw [hrest x (mem_of_mem_filter hx)]
      rw [hmap]
      cases ripens (u.entries w) <;> simp

def squashed (e : MemDepEntry) : MemDepEntry := { e with squashed := true }

theorem squashLoop_eq (squashed_num : InstSeqNum) {l : List InstSeqNum} (u : MemDepUnit assoc)
    (hl : l.Pairwise (· > ·)) (hmem : ∀ x ∈ l, x ∈ u.instList) :
    squashLoop squashed_num l u =
      let gone := fun x => decide (x ∈ l ∧ squashed_num < x)
      { u with
        entries := fun x => if gone x then squashed (u.entries x) else u.entries x
        instList := u.instList.filter (!gone ·)
        loadBarrierSNs := u.loadBarrierSNs.filter (!gone ·)
        storeBarrierSNs := u.storeBarrierSNs.filter (!gone ·) } := by
  induction l generalizing u with
  | nil => simp [squashLoop]
  | cons sn older ih =>
    obtain ⟨hsn, hpair⟩ := pairwise_cons.mp hl
    unfold squashLoop
    split
    next hlt =>
      have hne : ∀ x ∈ older, x ≠ sn := fun x hx heq => absurd (hsn x hx) (heq ▸ lt_irrefl x)
      rw [ih _ hpair fun x hx => by
        simpa [squashInst, findInHash, modifyEntry] using
          ⟨hmem x (mem_cons_of_mem _ hx), hne x hx⟩]
      have hfilter : ∀ xs : List InstSeqNum,
          (xs.filter (· != sn)).filter (fun x => !decide (x ∈ older ∧ squashed_num < x)) =
            xs.filter (fun x => !decide (x ∈ sn :: older ∧ squashed_num < x)) := by
        intro xs
        rw [filter_filter]
        refine filter_congr fun x _ => ?_
        by_cases hx : x = sn
        · simp [hx, hlt]
        · simp [hx]
      simp only [squashInst, findInHash, modifyEntry,
        mk.injEq, hfilter, true_and]
      refine ⟨funext fun x => ?_, by simp [hmem sn mem_cons_self]⟩
      by_cases hx : x = sn
      · subst hx
        simp [hlt, squashed]
      · simp [hx]
    next hle =>
      -- everything further down is older still
      have hgone : ∀ x, decide (x ∈ sn :: older ∧ squashed_num < x) = false := by
        refine fun x => decide_eq_false ?_
        rintro ⟨hx, hlt⟩
        rcases mem_cons.mp hx with rfl | hx
        · exact hle hlt
        · exact hle (hlt.trans (hsn x hx))
      simp only [hgone]
      simp

def producers (u : MemDepUnit assoc) (w : InstSeqNum) : List InstSeqNum :=
  u.instList.filter fun q => w ∈ (u.entries q).dependInsts

def moved (u : MemDepUnit assoc) : List InstSeqNum :=
  (u.moves.filter (·.cause = .dependences)).map (·.entry.inst.seqNum)

/-- Why an instruction may wait for another one: that one is a barrier for it, or the store
that was predicted. -/
def Reason (waiting producer : MemDepEntry) : Prop :=
  (waiting.inst.isLoad || waiting.inst.isAtomic) = true ∧ producer.inst.barsLoads = true ∨
  (waiting.inst.isStore || waiting.inst.isAtomic) = true ∧ producer.inst.barsStores = true ∨
  waiting.predicted = producer.inst.seqNum ∧
    (producer.inst.isStore || producer.inst.isAtomic) = true

theorem Reason.wakes {waiting producer : MemDepEntry} (h : Reason waiting producer) :
    producer.inst.wakes = true := by
  rcases h with ⟨-, h⟩ | ⟨-, h⟩ | ⟨-, h⟩ <;>
    simp only [MemInst.barsLoads, MemInst.barsStores, MemInst.wakes, Bool.or_eq_true] at h ⊢ <;>
    tauto

def Barring (u : MemDepUnit assoc) (bars : MemInst → Bool) (SNs : List InstSeqNum) : Prop :=
  SNs.Nodup ∧ ∀ x, x ∈ SNs ↔ x ∈ u.instList ∧ bars (u.entries x).inst = true

def StoreEntered (u : MemDepUnit assoc) (x : InstSeqNum) : Prop :=
  x ≤ u.youngest ∧ ((u.entries x).inst.isStore || (u.entries x).inst.isAtomic) = true

/-- What the dependences have moved to the ready list. -/
structure Released (u : MemDepUnit assoc) : Prop where
  snapshots : ∀ m ∈ u.moves, m.cause = .dependences →
    m.entry.regsReady = true ∧ m.entry.memDeps = 0 ∧ m.entry.squashed = false
  settled : ∀ x ∈ moved u, (u.entries x).regsReady = true ∧ (u.entries x).memDeps = 0
  once : (moved u).Nodup
  ready : ∀ w ∈ u.instList, (u.entries w).viaInsert = true → (u.entries w).regsReady = true →
    (u.entries w).memDeps = 0 → w ∈ moved u

/-- A call moves those that have nothing to wait for any more, as it leaves them. -/
theorem Released.move {u' : MemDepUnit assoc} (h : Released u) (ws : List InstSeqNum)
    (hmoves : u'.moves = u.moves ++ ws.map fun w => ⟨u'.entries w, .dependences⟩)
    (hnamed : ∀ w, (u'.entries w).inst.seqNum = w) (hnodup : ws.Nodup)
    (hnew : ∀ w ∈ ws, w ∉ moved u ∧ (u'.entries w).regsReady = true ∧
      (u'.entries w).memDeps = 0 ∧ (u'.entries w).squashed = false)
    (hold : ∀ x ∈ moved u, (u'.entries x).regsReady = true ∧ (u'.entries x).memDeps = 0)
    (hready : ∀ w ∈ u'.instList, (u'.entries w).viaInsert = true →
      (u'.entries w).regsReady = true → (u'.entries w).memDeps = 0 → w ∈ moved u ∨ w ∈ ws) :
    Released u' := by
  have hmoved : moved u' = moved u ++ ws := by
    simp [moved, hmoves, filter_map, comp_def, hnamed]
  refine ⟨fun m hm hcause => ?_, fun x hx => ?_, ?_, fun w hw hvia hregs hzero => ?_⟩
  · rw [hmoves] at hm
    rcases mem_append.mp hm with hm | hm
    · exact h.snapshots m hm hcause
    · obtain ⟨w, hw, rfl⟩ := mem_map.mp hm
      exact (hnew w hw).2
  · rw [hmoved] at hx
    rcases mem_append.mp hx with hx | hx
    · exact hold x hx
    · exact ⟨(hnew x hx).2.1, (hnew x hx).2.2.1⟩
  · rw [hmoved]
    exact nodup_append.mpr ⟨h.once, hnodup, fun x hx y hy heq => (hnew y hy).1 (heq ▸ hx)⟩
  · rw [hmoved]
    exact mem_append.mpr (hready w hw hvia hregs hzero)

structure Wf (u : MemDepUnit assoc) : Prop extends Released u where
  sorted : u.instList.Pairwise (· < ·)
  recent : ∀ x ∈ u.instList, x ≤ u.youngest
  untouched : ∀ x, u.youngest < x → u.entries x = { inst := { seqNum := x } }
  named : ∀ x, (u.entries x).inst.seqNum = x
  unsquashed : ∀ x ∈ u.instList, (u.entries x).squashed = false
  older : ∀ q, ∀ w ∈ (u.entries q).dependInsts, q < w ∧ w ≤ u.youngest
  nodup : ∀ q, (u.entries q).dependInsts.Nodup
  reason : ∀ q, ∀ w ∈ (u.entries q).dependInsts, Reason (u.entries w) (u.entries q)
  counted : ∀ w ∈ u.instList, (u.entries w).memDeps = (producers u w).length
  bounded : ∀ w, (producers u w).length ≤ (u.entries w).memDeps
  loads : Barring u MemInst.barsLoads u.loadBarrierSNs
  stores : Barring u MemInst.barsStores u.storeBarrierSNs
  predictor : Names (StoreEntered u) u.depPred
  asserted : u.asserted = true

theorem start_wf : Wf ({} : MemDepUnit assoc) where
  sorted := .nil
  recent := fun _ hx => absurd hx not_mem_nil
  untouched := fun _ _ => rfl
  named := fun _ => rfl
  unsquashed := fun _ _ => rfl
  older := fun _ _ hw => absurd hw not_mem_nil
  nodup := fun _ => .nil
  reason := fun _ _ hw => absurd hw not_mem_nil
  counted := fun _ _ => rfl
  bounded := fun _ => le_rfl
  loads := ⟨.nil, fun x => by simp⟩
  stores := ⟨.nil, fun x => by simp⟩
  predictor := fun _ hi => absurd hi Bool.false_ne_true
  snapshots := fun _ hm => absurd hm not_mem_nil
  settled := fun _ hx => absurd hx not_mem_nil
  once := .nil
  ready := fun _ hw => absurd hw not_mem_nil
  asserted := rfl

namespace Wf

theorem nodup_instList (h : Wf u) : u.instList.Nodup :=
  h.sorted.imp fun hlt => hlt.ne

theorem irrefl (h : Wf u) : sn ∉ (u.entries sn).dependInsts := fun hmem =>
  lt_irrefl sn (h.older sn sn hmem).1

theorem mem_producers {q : InstSeqNum} :
    q ∈ producers u w ↔ q ∈ u.instList ∧ w ∈ (u.entries q).dependInsts := by
  simp [producers]

theorem waits (h : Wf u) (hsn : sn ∈ u.instList) (hw : w ∈ (u.entries sn).dependInsts) :
    0 < (u.entries w).memDeps :=
  (length_pos_of_mem (mem_producers.mpr ⟨hsn, hw⟩)).trans_le (h.bounded w)

theorem not_moved (h : Wf u) (hw : 0 < (u.entries w).memDeps) : w ∉ moved u :=
  fun hmem => hw.ne' (h.settled w hmem).2

theorem depPred (h : Wf u) {depPred : StoreSet assoc} (hp : Names (StoreEntered u) depPred) :
    Wf { u with depPred } :=
  { h with predictor := hp }

end Wf

section

def found (p : Params assoc) (u : MemDepUnit assoc) (inst : MemInst) : List InstSeqNum :=
  (u.producingStores p inst).filter (· ∈ u.instList)

def extended (u : MemDepUnit assoc) (e : MemDepEntry) (ps : List InstSeqNum) (ready : Bool) :
    MemDepUnit assoc :=
  insertBarrierSN
    { u with
      entries := fun x =>
        if x = e.inst.seqNum then e
        else if x ∈ ps then pushed e.inst.seqNum (u.entries x) else u.entries x
      instList := u.instList ++ [e.inst.seqNum]
      youngest := e.inst.seqNum
      moves := u.moves ++ if ready then [⟨e, .dependences⟩] else [] } e.inst

def newEntry (p : Params assoc) (u : MemDepUnit assoc) (inst : MemInst) (readyToIssue : Bool) :
    MemDepEntry where
  inst := inst
  viaInsert := true
  regsReady := readyToIssue
  predicted := u.predictedStore p inst
  memDeps := (found p u inst).length

theorem insertBarrier_eq (u : MemDepUnit assoc) (inst : MemInst) :
    u.insertBarrier inst = extended u { inst } [] false := by
  unfold insertBarrier extended enter
  congr 1
  simp only [not_mem_nil, if_false, Bool.false_eq_true, append_nil,
    mk.injEq, and_true]
  funext x
  by_cases hx : x = inst.seqNum <;> simp [hx]

variable {q : InstSeqNum} {inst : MemInst}

private theorem producing_le (h : Wf u) (hq : q ∈ u.producingStores p inst) : q ≤ u.youngest := by
  unfold producingStores at hq
  split at hq
  · exact h.recent q ((h.loads.2 q).mp hq).1
  · split at hq
    · exact h.recent q ((h.stores.2 q).mp hq).1
    · dsimp only at hq
      split at hq
      next hdep =>
        rcases checkInst_spec (p := p) h.predictor inst.pc with hzero | hstore
        · simp [hzero] at hdep
        · exact mem_singleton.mp hq ▸ hstore.1
      next => cases hq

theorem found_nodup (h : Wf u) (inst : MemInst) : (found p u inst).Nodup := by
  refine .filter _ ?_
  unfold producingStores
  split
  · exact h.loads.1
  · split
    · exact h.stores.1
    · dsimp only
      split <;> simp

private theorem found_reason (h : Wf u) (hq : q ∈ found p u inst) (readyToIssue : Bool) :
    Reason (newEntry p u inst readyToIssue) (u.entries q) := by
  obtain ⟨hq, -⟩ := mem_filter.mp hq
  unfold producingStores at hq
  unfold Reason newEntry predictedStore
  split at hq
  next hload =>
    exact .inl ⟨((Bool.and_eq_true _ _).mp hload).1, ((h.loads.2 q).mp hq).2⟩
  next hload =>
    split at hq
    next hstore =>
      exact .inr (.inl ⟨((Bool.and_eq_true _ _).mp hstore).1, ((h.stores.2 q).mp hq).2⟩)
    next hstore =>
      dsimp only at hq
      split at hq
      next hdep =>
        rcases checkInst_spec (p := p) h.predictor inst.pc with hzero | hentered
        · simp [hzero] at hdep
        · obtain rfl := mem_singleton.mp hq
          exact .inr (.inr ⟨by simp [hload, hstore, h.named], hentered.2⟩)
      next => cases hq

theorem insert_eq (h : Wf u) (hnew : u.youngest < inst.seqNum) (readyToIssue : Bool) :
    u.insert p inst readyToIssue =
      (extended u (newEntry p u inst readyToIssue) (found p u inst)
        ((found p u inst).isEmpty && readyToIssue)).insertStore p inst := by
  have hfound : ((u.enter inst true).producingStores p inst).filter
      (· ∈ (u.enter inst true).instList) = found p u inst := by
    refine filter_congr fun q hq => ?_
    have hne : q ≠ inst.seqNum := ((producing_le h hq).trans_lt hnew).ne
    simp [MemDepUnit.enter, hne]
  have hself : inst.seqNum ∉ found p u inst := fun hmem =>
    absurd (producing_le h (mem_filter.mp hmem).1) hnew.not_ge
  unfold MemDepUnit.insert
  simp only [hfound]
  congr 1
  congr 1
  split
  next hempty =>
    have hnil := isEmpty_iff.mp hempty
    cases readyToIssue <;>
      simp only [MemDepUnit.enter, MemDepUnit.modifyEntry, MemDepUnit.moveToReady, newEntry, hnil,
        update_self, update_idem, BEq.rfl, Bool.and_true, Bool.and_false,
        Bool.not_false, Bool.false_eq_true, if_true, if_false, length_nil, not_mem_nil,
        isEmpty_nil, append_nil, MemDepUnit.mk.injEq, and_self, and_true]
    all_goals
      funext x
      by_cases hx : x = inst.seqNum <;> simp [hx]
  next hsome =>
    rw [foldl_addDependent _ _ (found_nodup h inst)]
    simp only [MemDepUnit.modifyEntry, MemDepUnit.enter, update_self,
      update_idem, newEntry, hsome, Bool.false_and, Bool.false_eq_true, if_false,
      append_nil, MemDepUnit.mk.injEq, and_self, and_true]
    funext x
    by_cases hx : x = inst.seqNum
    · simp [hx, hself]
    · simp [hx]

variable {e : MemDepEntry} {ps : List InstSeqNum} {ready : Bool}

theorem extended_entries_new : (extended u e ps ready).entries e.inst.seqNum = e := by
  simp [extended, insertBarrierSN]

theorem extended_entries_old {x : InstSeqNum} (hx : x ≠ e.inst.seqNum) :
    (extended u e ps ready).entries x =
      if x ∈ ps then pushed e.inst.seqNum (u.entries x) else u.entries x := by
  simp [extended, insertBarrierSN, hx]

theorem extended_frame {x : InstSeqNum} (hx : x ≠ e.inst.seqNum) :
    (extended u e ps ready).entries x =
      { u.entries x with dependInsts := ((extended u e ps ready).entries x).dependInsts } := by
  rw [extended_entries_old hx]
  split <;> rfl

theorem mem_extended_dependInsts (hdep : e.dependInsts = []) :
    w ∈ ((extended u e ps ready).entries q).dependInsts ↔
      q ≠ e.inst.seqNum ∧
        (w ∈ (u.entries q).dependInsts ∨ q ∈ ps ∧ w = e.inst.seqNum) := by
  by_cases hq : q = e.inst.seqNum
  · subst hq
    simp [extended_entries_new, hdep]
  · rw [extended_entries_old hq]
    by_cases hmem : q ∈ ps <;> simp [hq, hmem, pushed]

section

variable (h : Wf u)
include h

section

variable (hnew : u.youngest < e.inst.seqNum)
include hnew

private theorem producers_extended_old (hdep : e.dependInsts = []) (hw : w ≠ e.inst.seqNum) :
    producers (extended u e ps ready) w = producers u w := by
  have hlast : ([e.inst.seqNum].filter fun q =>
      w ∈ ((extended u e ps ready).entries q).dependInsts) = [] := by
    simp [mem_extended_dependInsts hdep]
  change (u.instList ++ [e.inst.seqNum]).filter _ = _
  rw [filter_append, hlast, append_nil]
  refine filter_congr fun q hq => ?_
  have hne : q ≠ e.inst.seqNum := ((h.recent q hq).trans_lt hnew).ne
  simp [mem_extended_dependInsts hdep, hne, hw]

private theorem length_producers_extended_new (hdep : e.dependInsts = []) (hnodup : ps.Nodup)
    (hps : ∀ q ∈ ps, q ∈ u.instList) :
    (producers (extended u e ps ready) e.inst.seqNum).length = ps.length := by
  have hself : e.inst.seqNum ∉ u.instList := fun hmem =>
    absurd (h.recent _ hmem) hnew.not_ge
  refine ((perm_ext_iff_of_nodup ?_ hnodup).mpr fun q => ?_).length_eq
  · refine .filter _ (nodup_append.mpr ⟨h.nodup_instList, by simp, ?_⟩)
    rintro x hx y hy rfl
    exact hself (mem_singleton.mp hy ▸ hx)
  · rw [Wf.mem_producers, mem_extended_dependInsts hdep]
    constructor
    · rintro ⟨-, -, hq | ⟨hq, -⟩⟩
      · exact absurd (h.older q _ hq).2 hnew.not_ge
      · exact hq
    · intro hq
      have hmem := hps q hq
      exact ⟨mem_append_left _ hmem, ne_of_mem_of_not_mem hmem hself, .inr ⟨hq, rfl⟩⟩

theorem barring_insert {bars : MemInst → Bool} {SNs : List InstSeqNum} (hb : Barring u bars SNs) :
    Barring (extended u e ps ready) bars
      (if bars e.inst then SNs.insert e.inst.seqNum else SNs) := by
  have hself : e.inst.seqNum ∉ u.instList := fun hmem =>
    absurd (h.recent _ hmem) hnew.not_ge
  refine ⟨by split; exacts [hb.1.insert, hb.1], fun x => ?_⟩
  have hlist : x ∈ (extended u e ps ready).instList ↔ x ∈ u.instList ∨ x = e.inst.seqNum := by
    simp [extended, insertBarrierSN]
  rw [hlist]
  by_cases hx : x = e.inst.seqNum
  · subst hx
    have hnot : e.inst.seqNum ∉ SNs := fun hmem => hself ((hb.2 _).mp hmem).1
    cases hbars : bars e.inst <;> simp [extended_entries_new, hbars, hnot]
  · rw [extended_frame hx]
    simp only [hx, or_false, ← hb.2 x]
    split <;> simp [mem_insert_iff, hx]

theorem extended_wf (hnodup : ps.Nodup) (hps : ∀ q ∈ ps, q ∈ u.instList ∧ Reason e (u.entries q))
    (hdep : e.dependInsts = []) (hsquashed : e.squashed = false) (hdeps : e.memDeps = ps.length)
    (hready : ready = true ↔ e.viaInsert = true ∧ e.regsReady = true ∧ e.memDeps = 0) :
    Wf (extended u e ps ready) := by
  have hne : ∀ x ≤ u.youngest, x ≠ e.inst.seqNum := fun x hx => (hx.trans_lt hnew).ne
  have hmem : ∀ x, x ∈ (extended u e ps ready).instList ↔
      x ∈ u.instList ∨ x = e.inst.seqNum := fun x => by
    simp [extended, insertBarrierSN]
  -- nothing was moved under the new number, as its entry was untouched
  have hunmoved : e.inst.seqNum ∉ moved u := by
    intro hmoved
    have := (h.settled _ hmoved).1
    rw [h.untouched _ hnew] at this
    cases this
  have hnamed : ∀ x, ((extended u e ps ready).entries x).inst.seqNum = x := by
    intro x
    by_cases hx : x = e.inst.seqNum
    · rw [hx, extended_entries_new]
    · rw [extended_frame hx]
      exact h.named x
  constructor
  case toReleased =>
    refine h.toReleased.move (if ready then [e.inst.seqNum] else []) ?_ hnamed
      (by split <;> simp) (fun w hw => ?_) (fun x hx => ?_) fun w hw hvia hregs hzero => ?_
    · cases ready <;> simp [extended, insertBarrierSN]
    · obtain ⟨hr, rfl⟩ : ready = true ∧ w = e.inst.seqNum := by
        split at hw <;> simp_all
      rw [extended_entries_new]
      exact ⟨hunmoved, (hready.mp hr).2.1, (hready.mp hr).2.2, hsquashed⟩
    · rw [extended_frame (ne_of_mem_of_not_mem hx hunmoved)]
      exact h.settled x hx
    · rcases (hmem w).mp hw with hw | rfl
      · rw [extended_frame (hne w (h.recent w hw))] at hvia hregs hzero
        exact .inl (h.ready w hw hvia hregs hzero)
      · rw [extended_entries_new] at hvia hregs hzero
        rw [hready.mpr ⟨hvia, hregs, hzero⟩]
        simp
  case sorted =>
    refine pairwise_append.mpr ⟨h.sorted, pairwise_singleton _ _, fun x hx y hy => ?_⟩
    exact mem_singleton.mp hy ▸ (h.recent x hx).trans_lt hnew
  case recent =>
    intro x hx
    rcases (hmem x).mp hx with hx | rfl
    · exact ((h.recent x hx).trans_lt hnew).le
    · exact le_rfl
  case untouched =>
    intro x hx
    have hold : u.youngest < x := hnew.trans hx
    rw [extended_entries_old (ne_of_gt hx), if_neg fun hq => ?_, h.untouched x hold]
    exact absurd (h.recent x (hps x hq).1) hold.not_ge
  case named => exact hnamed
  case unsquashed =>
    intro x hx
    rcases (hmem x).mp hx with hx | rfl
    · rw [extended_frame (hne x (h.recent x hx))]
      exact h.unsquashed x hx
    · rwa [extended_entries_new]
  case older =>
    intro q w hw
    obtain ⟨hq, hw | ⟨hqs, rfl⟩⟩ := (mem_extended_dependInsts hdep).mp hw
    · have := h.older q w hw
      exact ⟨this.1, (this.2.trans_lt hnew).le⟩
    · exact ⟨(h.recent q (hps q hqs).1).trans_lt hnew, le_rfl⟩
  case nodup =>
    intro q
    by_cases hq : q = e.inst.seqNum
    · rw [hq, extended_entries_new, hdep]
      exact .nil
    · rw [extended_entries_old hq]
      split
      · refine nodup_append.mpr ⟨h.nodup q, by simp, fun x hx y hy => ?_⟩
        rw [mem_singleton.mp hy]
        exact hne x (h.older q x hx).2
      · exact h.nodup q
  case reason =>
    intro q w hw
    obtain ⟨hq, hw | ⟨hqs, rfl⟩⟩ := (mem_extended_dependInsts hdep).mp hw
    · rw [extended_frame hq, extended_frame (hne w (h.older q w hw).2)]
      exact h.reason q w hw
    · rw [extended_entries_new, extended_frame hq]
      exact (hps q hqs).2
  case counted =>
    intro w hw
    rcases (hmem w).mp hw with hw | rfl
    · have hold := hne w (h.recent w hw)
      rw [producers_extended_old h hnew hdep hold, extended_frame hold]
      exact h.counted w hw
    · rw [extended_entries_new, hdeps,
        length_producers_extended_new h hnew hdep hnodup fun q hq => (hps q hq).1]
  case bounded =>
    intro w
    by_cases hw : w = e.inst.seqNum
    · rw [hw, extended_entries_new, hdeps,
        length_producers_extended_new h hnew hdep hnodup fun q hq => (hps q hq).1]
    · rw [producers_extended_old h hnew hdep hw, extended_frame hw]
      exact h.bounded w
  case loads => exact barring_insert h hnew h.loads
  case stores => exact barring_insert h hnew h.stores
  case predictor =>
    refine h.predictor.mono fun x hx => ⟨(hx.1.trans_lt hnew).le, ?_⟩
    rw [extended_frame (hne x hx.1)]
    exact hx.2
  case asserted => exact h.asserted

end

theorem insertStore_wf (hinst : (u.entries inst.seqNum).inst = inst)
    (hyoung : u.youngest = inst.seqNum) (href : inst.isMemRef = true) :
    Wf (u.insertStore p inst) := by
  unfold insertStore
  split
  next hstore =>
    refine h.depPred (h.predictor.insertStore inst.pc ⟨hyoung.ge, ?_⟩)
    rwa [hinst]
  next hstore =>
    have hload : inst.isLoad = true := by
      simp only [MemInst.isMemRef, Bool.or_eq_true] at href hstore
      tauto
    exact { h with asserted := by simp [h.asserted, hload] }

section

variable (hnew : u.youngest < inst.seqNum)
include hnew

theorem insert_wf (href : inst.isMemRef = true) (readyToIssue : Bool) :
    Wf (u.insert p inst readyToIssue) := by
  rw [insert_eq h hnew]
  refine insertStore_wf (extended_wf h hnew (found_nodup h inst) ?_ rfl rfl rfl ?_) ?_ rfl href
  · intro q hq
    exact ⟨by simpa using (List.mem_filter.mp hq).2, found_reason h hq readyToIssue⟩
  · simp only [newEntry, List.length_eq_zero_iff, Bool.and_eq_true, List.isEmpty_iff]
    tauto
  · exact congrArg MemDepEntry.inst
      (extended_entries_new (e := newEntry p u inst readyToIssue))

theorem insertBarrier_wf : Wf (u.insertBarrier inst) := by
  rw [insertBarrier_eq]
  exact extended_wf h hnew .nil nofun rfl rfl rfl (by simp)

theorem insertNonSpec_wf (href : inst.isMemRef = true) : Wf (u.insertNonSpec p inst) := by
  refine insertStore_wf (insertBarrier_wf h hnew) ?_ rfl href
  rw [insertBarrier_eq]
  exact congrArg MemDepEntry.inst (extended_entries_new (e := { inst }))

end

end

end

def readied (u : MemDepUnit assoc) (sn : InstSeqNum) : MemDepUnit assoc :=
  { u with
    entries := fun x => { u.entries x with regsReady := (u.entries x).regsReady || x == sn }
    moves := u.moves ++
      if (u.entries sn).memDeps == 0 then
        [⟨{ u.entries sn with regsReady := true }, .dependences⟩]
      else [] }

theorem regsReady_eq (h : Wf u) (hsn : sn ∈ u.instList) : u.regsReady sn = readied u sn := by
  have hentries : update u.entries sn { u.entries sn with regsReady := true } =
      (readied u sn).entries := by
    funext x
    by_cases hx : x = sn
    · simp [hx, readied]
    · have hbeq : (x == sn) = false := beq_eq_false_iff_ne.mpr hx
      simp only [update_of_ne hx, readied, hbeq, Bool.or_false]
  unfold regsReady modifyEntry findInHash
  simp only [hentries, hsn, decide_true, Bool.and_true]
  unfold moveToReady readied
  split <;> simp [h.unsquashed sn hsn]

theorem regsReady_wf (h : Wf u) (hsn : sn ∈ u.instList)
    (hregs : (u.entries sn).regsReady = false) : Wf (u.regsReady sn) := by
  rw [regsReady_eq h hsn]
  have hunmoved : sn ∉ moved u := fun hmem => by simp [(h.settled sn hmem).1] at hregs
  refine { h with toReleased := ?_, untouched := fun x hx => ?_ }
  · refine h.toReleased.move (if (u.entries sn).memDeps == 0 then [sn] else []) ?_ h.named
      (by split <;> simp) (fun w hw => ?_) (fun x hx => ?_) fun w hw hvia hregs' hzero => ?_
    · unfold readied
      split <;> simp
    · obtain ⟨hzero, rfl⟩ : (u.entries sn).memDeps = 0 ∧ w = sn := by
        split at hw <;> simp_all
      exact ⟨hunmoved, by simp [readied], hzero, h.unsquashed w hsn⟩
    · exact ⟨by simp [readied, (h.settled x hx).1], (h.settled x hx).2⟩
    · by_cases hw' : w = sn
      · subst hw'
        have hzero' : (u.entries w).memDeps = 0 := hzero
        simp [hzero']
      · refine .inl (h.ready w hw hvia ?_ hzero)
        simpa [readied, hw'] using hregs'
  · have hbeq : (x == sn) = false :=
      beq_eq_false_iff_ne.mpr ((h.recent sn hsn).trans_lt hx).ne'
    simp only [readied, hbeq, Bool.or_false]
    exact h.untouched x hx

section

def finished (u : MemDepUnit assoc) (sn : InstSeqNum) : MemDepUnit assoc :=
  let ws := (u.entries sn).dependInsts
  { u with
    entries := fun x =>
      if x = sn then { u.entries x with dependInsts := [] }
      else if x ∈ ws then woken (u.entries x) else u.entries x
    instList := u.instList.filter (· != sn)
    loadBarrierSNs := u.loadBarrierSNs.filter (· != sn)
    storeBarrierSNs := u.storeBarrierSNs.filter (· != sn)
    moves := u.moves ++ (ws.filter fun w => ripens (u.entries w)).map
      fun w => ⟨woken (u.entries w), .dependences⟩ }

theorem wakeDependents_eq (h : Wf u) (hsn : sn ∈ u.instList) :
    u.wakeDependents sn =
      { u with entries := (finished u sn).entries, moves := (finished u sn).moves } := by
  unfold wakeDependents
  split
  next hwakes =>
    have hnil : (u.entries sn).dependInsts = [] := by
      refine eq_nil_iff_forall_not_mem.mpr fun w hw => ?_
      simp [(h.reason sn w hw).wakes] at hwakes
    have hentries : (finished u sn).entries = u.entries := by
      funext x
      by_cases hx : x = sn
      · subst hx
        simp [finished, ← hnil]
      · simp [finished, hx, hnil]
    rw [hentries]
    simp [finished, hnil]
  next =>
    simp only [findInHash, hsn, decide_true, Bool.and_true]
    rw [foldl_wakeOne u (h.nodup sn) fun w hw => h.waits hsn hw]
    simp only [modifyEntry, finished, mk.injEq, and_true]
    funext x
    by_cases hx : x = sn
    · subst hx
      simp [h.irrefl]
    · simp [hx]

variable {SNs : List InstSeqNum} {bars : MemInst → Bool}

theorem filter_of_not_barring (hb : Barring u bars SNs) (hbars : bars (u.entries sn).inst = false) :
    SNs.filter (· != sn) = SNs := by
  refine filter_eq_self.mpr fun x hx => ?_
  have hne : x ≠ sn := by
    rintro rfl
    simp [((hb.2 x).mp hx).2] at hbars
  simpa using hne

theorem isEmpty_of_barring (hb : Barring u bars SNs) (hsn : sn ∈ u.instList)
    (hbars : bars (u.entries sn).inst = true) : SNs.isEmpty = false := by
  cases SNs with
  | nil => exact absurd ((hb.2 sn).mpr ⟨hsn, hbars⟩) not_mem_nil
  | cons => rfl

theorem completeInst_eq (h : Wf u) (hsn : sn ∈ u.instList) :
    u.completeInst sn = finished u sn := by
  unfold completeInst
  rw [wakeDependents_eq h hsn]
  unfold completed findInHash hasStoreBarrier
    hasLoadBarrier
  have hfinished : finished u sn =
      { u with
        entries := (finished u sn).entries
        moves := (finished u sn).moves
        instList := u.instList.filter (· != sn)
        loadBarrierSNs := u.loadBarrierSNs.filter (· != sn)
        storeBarrierSNs := u.storeBarrierSNs.filter (· != sn) } := rfl
  rw [hfinished]
  simp only [hsn, decide_true, Bool.and_true]
  cases hstores : (u.entries sn).inst.barsStores <;>
    cases hloads : (u.entries sn).inst.barsLoads <;>
    simp only [Bool.false_eq_true, if_true, if_false]
  · rw [filter_of_not_barring h.loads hloads, filter_of_not_barring h.stores hstores]
  · rw [filter_of_not_barring h.stores hstores, isEmpty_of_barring h.loads hsn hloads,
      Bool.not_false, Bool.and_true]
  · rw [filter_of_not_barring h.loads hloads, isEmpty_of_barring h.stores hsn hstores,
      Bool.not_false, Bool.and_true]
  · rw [isEmpty_of_barring h.loads hsn hloads, isEmpty_of_barring h.stores hsn hstores,
      Bool.not_false, Bool.and_true, Bool.and_true]

theorem finished_frame (u : MemDepUnit assoc) (sn x : InstSeqNum) :
    (finished u sn).entries x =
      { u.entries x with
        dependInsts := ((finished u sn).entries x).dependInsts
        memDeps := ((finished u sn).entries x).memDeps } := by
  unfold finished
  dsimp only
  split
  · rfl
  · split <;> rfl

theorem finished_dependInsts (u : MemDepUnit assoc) (sn x : InstSeqNum) :
    ((finished u sn).entries x).dependInsts =
      if x = sn then [] else (u.entries x).dependInsts := by
  unfold finished
  dsimp only
  split
  · rfl
  · split <;> rfl

private theorem finished_memDeps (h : Wf u) (x : InstSeqNum) :
    ((finished u sn).entries x).memDeps =
      if x ∈ (u.entries sn).dependInsts then (u.entries x).memDeps - 1
      else (u.entries x).memDeps := by
  unfold finished
  dsimp only
  by_cases hx : x = sn
  · simp [hx, h.irrefl]
  · rw [if_neg hx]
    split <;> rfl

private theorem producers_finished (u : MemDepUnit assoc) (sn w : InstSeqNum) :
    producers (finished u sn) w = (producers u w).filter (· != sn) := by
  unfold producers
  rw [filter_filter]
  change (u.instList.filter (· != sn)).filter _ = _
  rw [filter_filter]
  refine filter_congr fun q _ => ?_
  by_cases hq : q = sn <;> simp [finished_dependInsts, hq, Bool.and_comm]

private theorem length_producers_finished (h : Wf u) (hsn : sn ∈ u.instList) (w : InstSeqNum) :
    (producers (finished u sn) w).length =
      if w ∈ (u.entries sn).dependInsts then (producers u w).length - 1
      else (producers u w).length := by
  have hnodup : (producers u w).Nodup := h.nodup_instList.filter _
  rw [producers_finished, ← hnodup.erase_eq_filter]
  split
  next hw => exact length_erase_of_mem (Wf.mem_producers.mpr ⟨hsn, hw⟩)
  next hw => rw [erase_of_not_mem fun hmem => hw (Wf.mem_producers.mp hmem).2]

private theorem barring_finished (hb : Barring u bars SNs) :
    Barring (finished u sn) bars (SNs.filter (· != sn)) := by
  refine ⟨hb.1.filter _, fun x => ?_⟩
  have hlist : x ∈ (finished u sn).instList ↔ x ∈ u.instList ∧ x ≠ sn := by simp [finished]
  rw [mem_filter, hb.2 x, finished_frame]
  simp only [bne_iff_ne]
  tauto

theorem finished_wf (h : Wf u) (hsn : sn ∈ u.instList) : Wf (finished u sn) := by
  have hmem : ∀ x ∈ (finished u sn).instList, x ∈ u.instList := fun x hx =>
    mem_of_mem_filter hx
  -- what was moved does not wait any more
  have hsettled : ∀ x ∈ moved u, x ∉ (u.entries sn).dependInsts := fun x hx hdep =>
    h.not_moved (h.waits hsn hdep) hx
  have hnamed : ∀ x, ((finished u sn).entries x).inst.seqNum = x := by
    intro x
    rw [finished_frame]
    exact h.named x
  constructor
  case toReleased =>
    refine h.toReleased.move ((u.entries sn).dependInsts.filter fun w => ripens (u.entries w))
      ?_ hnamed ((h.nodup sn).filter _) (fun w hw => ?_) (fun x hx => ?_)
      fun w hw hvia hregs hzero => ?_
    · refine congrArg (u.moves ++ ·) (map_congr_left fun w hw => ?_)
      have hdep := mem_of_mem_filter hw
      simp [finished, ne_of_mem_of_not_mem hdep h.irrefl, hdep]
    · obtain ⟨hdep, hripe⟩ := mem_filter.mp hw
      simp only [ripens, Bool.and_eq_true, beq_iff_eq, Bool.not_eq_true'] at hripe
      rw [finished_memDeps h, finished_frame, if_pos hdep]
      exact ⟨fun hx => hsettled w hx hdep, hripe.1.2, hripe.1.1, hripe.2⟩
    · rw [finished_memDeps h, finished_frame, if_neg (hsettled x hx)]
      exact h.settled x hx
    · rw [finished_memDeps h] at hzero
      rw [finished_frame] at hvia hregs
      split at hzero
      next hdep =>
        refine .inr (mem_filter.mpr ⟨hdep, ?_⟩)
        have hregs : (u.entries w).regsReady = true := hregs
        simp [ripens, hzero, hregs, h.unsquashed w (hmem w hw)]
      next => exact .inl (h.ready w (hmem w hw) hvia hregs hzero)
  case sorted => exact h.sorted.filter _
  case recent => exact fun x hx => h.recent x (hmem x hx)
  case untouched =>
    intro x hx
    have hne : x ≠ sn := ((h.recent sn hsn).trans_lt hx).ne'
    have hnot : x ∉ (u.entries sn).dependInsts := fun hdep =>
      absurd (h.older sn x hdep).2 hx.not_ge
    simp only [finished, hne, hnot, if_false]
    exact h.untouched x hx
  case named => exact hnamed
  case unsquashed =>
    intro x hx
    rw [finished_frame]
    exact h.unsquashed x (hmem x hx)
  case older =>
    intro q w hw
    rw [finished_dependInsts] at hw
    split at hw
    · cases hw
    · exact h.older q w hw
  case nodup =>
    intro q
    rw [finished_dependInsts]
    split
    · exact .nil
    · exact h.nodup q
  case reason =>
    intro q w hw
    rw [finished_dependInsts] at hw
    rw [finished_frame u sn w, finished_frame u sn q]
    split at hw
    · cases hw
    · exact h.reason q w hw
  case counted =>
    intro w hw
    rw [finished_memDeps h, length_producers_finished h hsn, h.counted w (hmem w hw)]
  case bounded =>
    intro w
    have := h.bounded w
    rw [finished_memDeps h, length_producers_finished h hsn]
    split <;> omega
  case loads => exact barring_finished h.loads
  case stores => exact barring_finished h.stores
  case predictor =>
    refine h.predictor.mono fun x hx => ⟨hx.1, ?_⟩
    rw [finished_frame]
    exact hx.2
  case asserted => exact h.asserted

end

def cut (u : MemDepUnit assoc) (squashed_num : InstSeqNum) : MemDepUnit assoc :=
  let gone := fun x => decide (x ∈ u.instList ∧ squashed_num < x)
  { u with
    entries := fun x => { u.entries x with squashed := (u.entries x).squashed || gone x }
    instList := u.instList.filter (!gone ·)
    loadBarrierSNs := u.loadBarrierSNs.filter (!gone ·)
    storeBarrierSNs := u.storeBarrierSNs.filter (!gone ·)
    instsToReplay := u.instsToReplay.filter (· ≤ squashed_num)
    depPred := u.depPred.squash squashed_num }

theorem squash_eq (h : Wf u) (squashed_num : InstSeqNum) :
    u.squash squashed_num = cut u squashed_num := by
  have hloop := squashLoop_eq squashed_num
    { u with instsToReplay := u.instsToReplay.filter (· ≤ squashed_num) }
    (pairwise_reverse.mpr h.sorted) fun x hx => mem_reverse.mp hx
  unfold squash
  dsimp only
  rw [hloop]
  simp only [mem_reverse, cut, mk.injEq, and_true]
  funext x
  split
  next hgone => simp [squashed, hgone]
  next hgone => simp [hgone]

theorem mem_cut {squashed_num x : InstSeqNum} :
    x ∈ (cut u squashed_num).instList ↔ x ∈ u.instList ∧ x ≤ squashed_num := by
  simp only [cut, mem_filter, Bool.not_eq_true', decide_eq_false_iff_not, not_and, Nat.not_lt]
  tauto

private theorem producers_cut (u : MemDepUnit assoc) (squashed_num w : InstSeqNum) :
    producers (cut u squashed_num) w = (producers u w).filter (· ≤ squashed_num) := by
  change (u.instList.filter _).filter (fun q => decide (w ∈ (u.entries q).dependInsts)) = _
  unfold producers
  rw [filter_filter, filter_filter]
  refine filter_congr fun q hq => ?_
  by_cases hlt : squashed_num < q
  · simp [hq, hlt]
  · simp [hlt, Nat.not_lt.mp hlt]

theorem barring_cut {bars : MemInst → Bool} {SNs : List InstSeqNum} {squashed_num : InstSeqNum}
    (hb : Barring u bars SNs) :
    Barring (cut u squashed_num) bars
      (SNs.filter fun x => !decide (x ∈ u.instList ∧ squashed_num < x)) := by
  refine ⟨hb.1.filter _, fun x => ?_⟩
  rw [mem_filter, hb.2 x, mem_cut]
  simp only [Bool.not_eq_true', decide_eq_false_iff_not, not_and, Nat.not_lt]
  tauto

theorem squash_wf (h : Wf u) (squashed_num : InstSeqNum) : Wf (u.squash squashed_num) := by
  rw [squash_eq h]
  refine
    { h with
      sorted := h.sorted.filter _, recent := fun x hx => h.recent x (mem_cut.mp hx).1
      untouched := fun x hx => ?_, unsquashed := fun x hx => ?_, counted := fun w hw => ?_
      bounded := fun w => ?_, loads := barring_cut h.loads, stores := barring_cut h.stores
      predictor := h.predictor.shrink (shrinks_squash squashed_num)
      ready := fun w hw => h.ready w (mem_cut.mp hw).1 }
  · have hnot : x ∉ u.instList := fun hmem => absurd (h.recent x hmem) hx.not_ge
    have huntouched := h.untouched x hx
    simp only [cut, hnot, false_and, decide_false, Bool.or_false]
    exact huntouched
  · obtain ⟨hmem, hle⟩ := mem_cut.mp hx
    simp [cut, h.unsquashed x hmem, hle.not_gt]
  · -- the producers of what is left are left as well
    obtain ⟨hmem, hle⟩ := mem_cut.mp hw
    have hall : (producers u w).filter (· ≤ squashed_num) = producers u w := by
      refine filter_eq_self.mpr fun q hq => decide_eq_true ?_
      exact (h.older q w (Wf.mem_producers.mp hq).2).1.le.trans hle
    rw [producers_cut, hall]
    exact h.counted w hmem
  · rw [producers_cut]
    exact (length_filter_le _ _).trans (h.bounded w)

theorem otherMoves_wf (h : Wf u) (moves : List Move) (hm : ∀ m ∈ moves, m.cause ≠ .dependences) :
    Wf { u with moves := u.moves ++ moves } := by
  have hmoved : moved { u with moves := u.moves ++ moves } = moved u := by
    have hnone : moves.filter (·.cause = .dependences) = [] :=
      filter_eq_nil_iff.mpr fun m hmem => by simpa using hm m hmem
    simp [moved, hnone]
  refine
    { h with
      snapshots := fun m hmem hcause => ?_, settled := ?_, once := ?_, ready := ?_ }
  · rcases mem_append.mp hmem with hmem | hmem
    · exact h.snapshots m hmem hcause
    · exact absurd hcause (hm m hmem)
  · rw [hmoved]
    exact h.settled
  · rw [hmoved]
    exact h.once
  · rw [hmoved]
    exact h.ready

theorem moveToReady_eq (h : Wf u) (hsn : sn ∈ u.instList) (cause : Cause) :
    (u.findInHash sn).moveToReady sn cause =
      { u with moves := u.moves ++ [⟨u.entries sn, cause⟩] } := by
  simp [findInHash, moveToReady, hsn, h.unsquashed sn hsn]

theorem replayLoop_eq (h : Wf u) {sns : List InstSeqNum} (hsns : ∀ x ∈ sns, x ∈ u.instList) :
    sns.foldl (fun u sn => (u.findInHash sn).moveToReady sn .replay) u =
      { u with moves := u.moves ++ sns.map fun x => ⟨u.entries x, .replay⟩ } := by
  induction sns generalizing u with
  | nil => simp
  | cons x sns ih =>
    rw [foldl_cons, moveToReady_eq h (hsns x mem_cons_self)]
    have hwf := otherMoves_wf h [⟨u.entries x, .replay⟩] (by simp)
    rw [ih hwf fun y hy => hsns y (mem_cons_of_mem _ hy)]
    simp

theorem replay_eq (h : Wf u) (hreplay : ∀ x ∈ u.instsToReplay, x ∈ u.instList) :
    u.replay =
      { u with
        moves := u.moves ++ u.instsToReplay.map fun x => ⟨u.entries x, .replay⟩
        instsToReplay := [] } := by
  rw [replay, replayLoop_eq h hreplay]

/-- How the instruction queue calls the unit: instructions are entered in program order and are
memory references unless they are barriers, registers become ready once, and what is rescheduled,
completes or is replayed is in the unit. -/
def Allowed (u : MemDepUnit assoc) : Event assoc → Prop
  | .insert inst _ | .insertNonSpec inst => u.youngest < inst.seqNum ∧ inst.isMemRef = true
  | .insertBarrier barr_inst => u.youngest < barr_inst.seqNum
  | .regsReady sn => sn ∈ u.instList ∧ (u.entries sn).regsReady = false
  | .nonSpecInstReady sn => sn ∈ u.instList ∧ (u.entries sn).viaInsert = false
  | .reschedule sn => ∃ m ∈ u.moves, m.entry.inst.seqNum = sn
  | .replay => ∀ sn ∈ u.instsToReplay, sn ∈ u.instList
  | .completeInst sn => sn ∈ u.instList
  | .squash _ | .violation .. | .issue _ => True

instance (u : MemDepUnit assoc) : DecidablePred (Allowed u) := fun e => by
  cases e <;> dsimp only [Allowed] <;> infer_instance

theorem step_wf (h : Wf u) {e : Event assoc} (ha : Allowed u e) : Wf (step p u e) := by
  cases e with
  | insert inst readyToIssue => exact insert_wf h ha.1 ha.2 readyToIssue
  | insertNonSpec inst => exact insertNonSpec_wf h ha.1 ha.2
  | insertBarrier barr_inst => exact insertBarrier_wf h ha
  | regsReady sn => exact regsReady_wf h ha.1 ha.2
  | nonSpecInstReady sn =>
    change Wf ((u.findInHash sn).moveToReady sn .nonSpec)
    rw [moveToReady_eq h ha.1]
    exact otherMoves_wf h _ (by simp)
  | reschedule sn => exact { h with }
  | replay =>
    change Wf u.replay
    rw [replay_eq h ha]
    exact { otherMoves_wf h (u.instsToReplay.map fun x => ⟨u.entries x, .replay⟩) (by simp) with }
  | completeInst sn =>
    change Wf (u.completeInst sn)
    rw [completeInst_eq h ha]
    exact finished_wf h ha
  | squash squashed_num => exact squash_wf h squashed_num
  | violation store_PC load_PC storeVictim loadVictim =>
    exact h.depPred
      (h.predictor.shrink (shrinks_violation store_PC load_PC storeVictim loadVictim))
  | issue inst =>
    exact h.depPred (h.predictor.shrink (shrinks_issued inst.pc inst.seqNum inst.isStore))

theorem run_wf {events : List (Event assoc)} (hl : Legal (step p) Allowed {} events) :
    Wf (run (step p) {} events) :=
  run_inv Wf (fun _ _ h ha => step_wf h ha) events start_wf hl

/-- The event tells that the registers of an instruction are ready. -/
def Readies (w : InstSeqNum) : Event assoc → Prop
  | .insert inst readyToIssue => inst.seqNum = w ∧ readyToIssue = true
  | .regsReady sn => sn = w
  | _ => False

instance (w : InstSeqNum) (e : Event assoc) : Decidable (Readies w e) := by
  rcases e with _ | _ | _ | _ | _ <;> dsimp only [Readies] <;> infer_instance

def RegistersReady (events : List (Event assoc)) (w : InstSeqNum) : Prop :=
  ∃ e ∈ events, Readies w e

instance (events : List (Event assoc)) : DecidablePred (RegistersReady events) := fun w =>
  inferInstanceAs (Decidable (∃ e ∈ events, Readies w e))

section

theorem extended_regsReady (h : Wf u) {e : MemDepEntry} {ps : List InstSeqNum} {ready : Bool}
    (hnew : u.youngest < e.inst.seqNum) :
    ((extended u e ps ready).entries w).regsReady = true ↔
      (u.entries w).regsReady = true ∨ (e.inst.seqNum = w ∧ e.regsReady = true) := by
  by_cases hw : w = e.inst.seqNum
  · subst hw
    simp [extended_entries_new, h.untouched _ hnew]
  · rw [extended_frame hw]
    simp [Ne.symm hw]

private theorem insertStore_entries (u : MemDepUnit assoc) (inst : MemInst) :
    (u.insertStore p inst).entries = u.entries := by
  unfold insertStore
  split <;> rfl

theorem step_regsReady (h : Wf u) {e : Event assoc} (ha : Allowed u e) (w : InstSeqNum) :
    ((step p u e).entries w).regsReady = true ↔
      (u.entries w).regsReady = true ∨ Readies w e := by
  cases e with
  | insert inst readyToIssue =>
    rw [step, insert_eq h ha.1, insertStore_entries]
    exact extended_regsReady h ha.1
  | insertNonSpec inst =>
    rw [step, insertNonSpec, insertStore_entries, insertBarrier_eq,
      extended_regsReady h ha.1]
    simp [Readies]
  | insertBarrier barr_inst =>
    rw [step, insertBarrier_eq, extended_regsReady h (e := { inst := barr_inst }) ha]
    simp [Readies]
  | regsReady sn =>
    rw [step, regsReady_eq h ha.1]
    simp only [readied, Readies, Bool.or_eq_true, beq_iff_eq, @eq_comm _ sn w]
  | nonSpecInstReady sn =>
    exact (or_iff_left not_false).symm
  | replay =>
    rw [step, replay_eq h ha]
    exact (or_iff_left not_false).symm
  | completeInst sn =>
    rw [step, completeInst_eq h ha, finished_frame]
    exact (or_iff_left not_false).symm
  | squash squashed_num =>
    rw [step, squash_eq h]
    exact (or_iff_left not_false).symm
  | reschedule | violation | issue => exact (or_iff_left not_false).symm

/-- The flag of an entry says whether an event has told that the registers are ready. -/
theorem run_regsReady {events : List (Event assoc)} (hl : Legal (step p) Allowed {} events)
    (w : InstSeqNum) :
    ((run (step p) {} events).entries w).regsReady = true ↔ RegistersReady events w := by
  have hrun := run_past (fun past u => Wf u ∧
      ∀ w, (u.entries w).regsReady = true ↔ RegistersReady past w)
    (fun past u e h ha => ⟨step_wf h.1 ha, fun w => ?_⟩) [] events ⟨start_wf, ?_⟩ hl
  · exact hrun.2 w
  · rw [step_regsReady h.1 ha, h.2]
    simp [RegistersReady, or_and_right, exists_or]
  · simp [RegistersReady]

end

/-- Along every run, the count of an instruction in the unit is the number of older
instructions in the unit that will wake it, no assertion fails (so no count underflows),
and an instruction is moved to the ready list by its dependences at most once, with its
registers ready, nothing to wait for, and not squashed. Ready are the registers of which
an event has told it. -/
theorem dependences_counted (p : Params assoc) (events : List (Event assoc))
    (hl : Legal (step p) Allowed {} events) :
    let u := run (step p) {} events
    u.asserted = true ∧
      (∀ w ∈ u.instList, (u.entries w).memDeps = (producers u w).length ∧
        ∀ q ∈ producers u w, q ∈ u.instList ∧ q < w) ∧
      (moved u).Nodup ∧
      (∀ m ∈ u.moves, m.cause = .dependences →
        m.entry.regsReady = true ∧ m.entry.memDeps = 0 ∧ m.entry.squashed = false) ∧
      ∀ w, (u.entries w).regsReady = true ↔ RegistersReady events w := by
  intro u
  have h : Wf u := run_wf hl
  refine ⟨h.asserted, fun w hw => ⟨h.counted w hw, fun q hq => ?_⟩, h.once, h.snapshots,
    run_regsReady hl⟩
  obtain ⟨hmem, hdep⟩ := Wf.mem_producers.mp hq
  exact ⟨hmem, (h.older q w hdep).1⟩

/-- Both the load and the store wait for the barrier; the store is squashed before the
barrier completes. -/
def barrierThenSquash : List (Event 1) :=
  [.insertBarrier { seqNum := 1, isReadBarrier := true, isWriteBarrier := true },
    .insert { seqNum := 2, pc := 8, isLoad := true } false,
    .insert { seqNum := 3, pc := 12, isStore := true } true,
    .regsReady 2, .squash 2, .completeInst 1]

def oneSet : Params 1 where
  clearPeriod := 100
  LFSTSize := 4
  extractSet := fun _ => 0
  extractTag := fun pc => pc

theorem dependences_counted_barrierThenSquash :
    let u := run (step oneSet) {} barrierThenSquash
    u.instList = [2] ∧ moved u = [2] ∧ (u.entries 2).memDeps = (producers u 2).length ∧
      u.asserted = true := by
  have hrun := dependences_counted oneSet barrierThenSquash (by decide)
  exact ⟨by decide +kernel, by decide +kernel, (hrun.2.1 2 (by decide +kernel)).1, hrun.1⟩

end Gem5Core.O3.MemDepInv
