import Gem5Core.Pred.IndirectExact

/-! A corrected target is found again: the correction records it under the set and the tag that the
next lookup computes. The address is taken from the record, and only a lookup at prediction puts it
there. -/
namespace Gem5Core.Pred.IndirectCorrection
open Branch Indirect IndirectExact Lib.ShiftRegister Lib.Speculation Function List
open SimpleIndirectPredictor

variable {PC : Type}

section

variable {tag : Addr} {target : PC}

variable {ways : List (IPredEntry PC)} {i : Nat}

private theorem recordWays_eq_set (ways : List (IPredEntry PC)) (tag : Addr) (way : Nat) :
    ∃ i, (∀ target, recordWays ways tag target way =
        ways.set i { tag, target := some target }) ∧
      (way < ways.length → i < ways.length) ∧ ∀ entry ∈ ways.take i, entry.tag ≠ tag := by
  unfold recordWays
  cases hfound : ways.findIdx? (fun way => way.tag == tag) with
  | none =>
    refine ⟨way, fun _ => rfl, id, fun entry hentry => ?_⟩
    simpa using List.findIdx?_eq_none_iff.mp hfound entry (mem_of_mem_take hentry)
  | some i =>
    obtain ⟨hi, htag, hbefore⟩ := List.findIdx?_eq_some_iff_getElem.mp hfound
    refine ⟨i, fun target => ?_, fun _ => hi, fun entry hentry => ?_⟩
    · rw [← beq_iff_eq.mp htag]
      simp [modify_eq_set_getElem?, hi]
    · obtain ⟨j, hj, rfl⟩ := mem_take_iff_getElem.mp hentry
      simpa using hbefore j (by omega)

theorem findTarget_set_self (hi : i < ways.length) (hbefore : ∀ entry ∈ ways.take i, entry.tag ≠ tag) :
    findTarget (ways.set i { tag, target := some target }) tag =
      some target := by
  have hnone : (ways.take i).find? (fun way => way.tag == tag && way.target.isSome) = none := by
    simpa using fun entry hentry heq => absurd heq (hbefore entry hentry)
  rw [findTarget, set_eq_take_append_cons_drop, if_pos hi,
    List.find?_append, hnone]
  simp

private theorem findTarget_set_ne {tag' : Addr} (hne : tag ≠ tag') (target target' : PC) :
    findTarget (ways.set i { tag, target := some target }) tag' =
      findTarget (ways.set i { tag, target := some target' }) tag' := by
  have hskip (target : PC) : ((tag == tag') && (some target).isSome) = false := by simp [hne]
  simp only [findTarget, set_eq_take_append_cons_drop]
  split
  · simp only [List.find?_append, List.find?_cons, hskip]
  · rfl

end

theorem hashPath_eq (p : Indirect.Params) (info : ThreadInfo) (hash : Addr) :
    hashPath p info.pathHist hash =
      ((path info).take p.pathLength).zipIdx.foldl
        (fun hash (target, i) =>
          hash ^^^ target.ushiftRight (p.instShift + i * (Base.IntMath.floorLog2 p.numSets /
            p.pathLength)))
        hash := by
  have htargets : (path info).take p.pathLength =
      (info.pathHist.reverse.take p.pathLength).map HistoryEntry.targetAddr := by
    rw [path, ← map_reverse, map_take]
  rw [htargets, zipIdx_map, foldl_map]
  rfl

private theorem getSetIndex_congr (p : Indirect.Params) {info info' : ThreadInfo}
    (hghr : info.ghr = info'.ghr)
    (hpath : p.hashTargets = true →
      (path info).take p.pathLength = (path info').take p.pathLength) (pc : Addr) :
    getSetIndex p info pc =
      getSetIndex p info' pc := by
  unfold getSetIndex
  cases htargets : p.hashTargets with
  | false => simp only [hghr, Bool.false_eq_true, if_false]
  | true => simp only [hashPath_eq, hpath htargets, hghr]

/-- Where a target is recorded and looked up. -/
def key (p : Indirect.Params) (info : ThreadInfo) (pc : Addr) : Addr × Addr :=
  (getSetIndex p info pc, getTag p pc)

def Shaped (p : Indirect.Params) (iPred : SimpleIndirectPredictor PC) : Prop :=
  ∀ set_index, (iPred.targetCache set_index).length = p.numWays

section

variable [PCState PC] {p : Indirect.Params} {tid : ThreadID}

theorem update_targetCache (now : SimpleIndirectPredictor PC) (sn : InstSeqNum) (target : PC)
    {br_type : BranchType} (hindirect : isIndirectNoReturn br_type = true)
    (history : IndirectHistory) (rand : Nat) :
    (now.update p tid sn true true target br_type (some history) rand).1.targetCache =
      let info : ThreadInfo :=
        { pathHist := (now.threadInfo tid).pathHist.dropLast, ghr := history.ghr }
      let set_index := getSetIndex p info history.pcAddr
      update now.targetCache set_index
        (recordWays (now.targetCache set_index)
          (getTag p history.pcAddr) target (rand % p.numWays)) := by
  simp only [SimpleIndirectPredictor.update, updateRecord, hindirect,
    Bool.and_self, ↓reduceIte]
  rfl

omit [PCState PC] in
theorem lookup_setInfo (iPred : SimpleIndirectPredictor PC) (info : ThreadInfo) (pc : Addr) :
    ((iPred.setInfo tid info).lookup p tid pc none).1 =
      findTarget (iPred.targetCache (key p info pc).1)
        (key p info pc).2 := by
  simp [SimpleIndirectPredictor.lookup, check,
    genIndirectInfo, setInfo, key]

def recordedKey (p : Indirect.Params) (tid : ThreadID) (now : SimpleIndirectPredictor PC)
    (history : IndirectHistory) : Addr × Addr :=
  key p { pathHist := (now.threadInfo tid).pathHist.dropLast, ghr := history.ghr } history.pcAddr

/-- What a lookup finds after a correction with `target`, in terms of the two keys. -/
theorem lookup_update (p : Indirect.Params) (tid : ThreadID) (now : SimpleIndirectPredictor PC) (sn : InstSeqNum) {br_type : BranchType}
    (hindirect : isIndirectNoReturn br_type = true)
    (history : IndirectHistory) (rand : Nat) (info : ThreadInfo) (pc : Addr) :
    let recorded := recordedKey p tid now history
    ∃ i, (rand % p.numWays < (now.targetCache recorded.1).length →
        i < (now.targetCache recorded.1).length) ∧
      (∀ entry ∈ (now.targetCache recorded.1).take i, entry.tag ≠ recorded.2) ∧
      ∀ target, (((now.update p tid sn true true target br_type (some history) rand).1.setInfo tid
          info).lookup p tid pc none).1 =
        findTarget
          (update now.targetCache recorded.1 ((now.targetCache recorded.1).set i
            { tag := recorded.2, target := some target }) (key p info pc).1) (key p info pc).2 := by
  intro recorded
  obtain ⟨i, hset, hlt, hbefore⟩ :=
    recordWays_eq_set (now.targetCache recorded.1) recorded.2 (rand % p.numWays)
  refine ⟨i, hlt, hbefore, fun target => ?_⟩
  rw [lookup_setInfo, update_targetCache now sn target hindirect, ← hset]
  rfl

theorem update_found_iff [Nontrivial PC] {now : SimpleIndirectPredictor PC}
    (hshaped : Shaped p now) (sn : InstSeqNum) {br_type : BranchType}
    (hindirect : isIndirectNoReturn br_type = true)
    {history : IndirectHistory} {info : ThreadInfo} {pc : Addr} :
    (∀ target rand, (((now.update p tid sn true true target br_type (some history)
        rand).1.setInfo tid info).lookup p tid pc none).1 = some target) ↔
      0 < p.numWays ∧ recordedKey p tid now history = key p info pc := by
  constructor
  · intro hfound
    obtain ⟨i, hlt, -, hlookup⟩ :=
      lookup_update p tid now sn hindirect history 0 info pc
    obtain ⟨a, b, hab⟩ := exists_pair_ne PC
    have ha := (hlookup a).symm.trans (hfound a 0)
    have hb := (hlookup b).symm.trans (hfound b 0)
    refine ⟨Nat.pos_of_ne_zero fun hzero => ?_, ?_⟩
    · have hnil (set_index : Addr) : now.targetCache set_index = [] :=
        eq_nil_of_length_eq_zero ((hshaped set_index).trans hzero)
      simp [update_apply, hnil, findTarget] at ha
    -- under another key the lookup does not depend on the target
    by_contra hne
    apply hab
    rw [Prod.ext_iff, not_and_or] at hne
    by_cases hset : (key p info pc).1 = (recordedKey p tid now history).1
    · rw [hset, update_self] at ha hb
      rw [findTarget_set_ne (hne.resolve_left fun h => h hset.symm) a b] at ha
      exact Option.some.inj (ha.symm.trans hb)
    · rw [update_of_ne hset] at ha hb
      exact Option.some.inj (ha.symm.trans hb)
  · rintro ⟨hways, hkey⟩ target rand
    obtain ⟨i, hlt, hbefore, hlookup⟩ :=
      lookup_update p tid now sn hindirect history rand info pc
    rw [hlookup, ← hkey, update_self]
    refine findTarget_set_self (hlt ?_) hbefore
    rw [hshaped]
    exact Nat.mod_lt _ hways

/-- A record holds the address of the branch only if it was looked up. -/
theorem predict_record (p : Indirect.Params) (tid : ThreadID) (iPred : SimpleIndirectPredictor PC) (b : Branch PC) :
    ∃ history, (predict p tid iPred b).2 = some history ∧
      history.pcAddr = (if b.lookedUp then b.pc else -1) ∧
      history.ghr = (iPred.threadInfo tid).ghr := by
  unfold predict SimpleIndirectPredictor.update updateRecord
  cases b.lookedUp <;> exact ⟨_, rfl, rfl, rfl⟩

end

/-- The branch is predicted in the state `before`, and corrected in the state `now`,
when nothing younger is in flight. After the correction a lookup under the histories of
`before` returns the target, whichever it is, exactly when it computes the key
under which the correction recorded it. It does if the branch was looked up and, where
targets are hashed, of the path the entry of the branch and what the hash reads before it
are still there. -/
theorem correction_found [PCState PC] [Nontrivial PC] {p : Indirect.Params} (tid : ThreadID)
    (before : SimpleIndirectPredictor PC) {now : SimpleIndirectPredictor PC} (hshaped : Shaped p now)
    (b : Branch PC) (hindirect : isIndirect b = true) (sn : InstSeqNum) :
    let recorded := key p
      { pathHist := (now.threadInfo tid).pathHist.dropLast, ghr := (before.threadInfo tid).ghr }
      (if b.lookedUp then b.pc else -1)
    ((∀ target rand, (((now.update p tid sn true true target b.type (predict p tid before b).2
        rand).1.setInfo tid (before.threadInfo tid)).lookup p tid b.pc none).1 = some target) ↔
      0 < p.numWays ∧ recorded = key p (before.threadInfo tid) b.pc) ∧
    (b.lookedUp = true →
      (p.hashTargets = true → (path (now.threadInfo tid)).take (p.pathLength + 1) =
        (path ((predict p tid before b).1.threadInfo tid)).take (p.pathLength + 1)) →
      recorded = key p (before.threadInfo tid) b.pc) := by
  obtain ⟨iPred', record, hpredict, -, hpushed, -, -⟩ := predict_spec p tid before b
  obtain ⟨history, hhistory, hpc, hghr⟩ := predict_record p tid before b
  refine ⟨?_, fun hlooked hpath => ?_⟩
  · rw [hhistory, update_found_iff hshaped sn hindirect, recordedKey, hpc, hghr]
  · rw [if_pos hlooked]
    refine Prod.ext ?_ rfl
    refine getSetIndex_congr p (by rfl) (fun htargets => ?_) _
    have hdrop := congrArg (List.drop 1) (hpath htargets)
    rw [List.drop_take, List.drop_take, List.drop_one, List.drop_one, Nat.add_sub_cancel,
      hpredict, hpushed, if_pos hindirect, List.tail_cons] at hdrop
    rw [← hdrop, ← path_popped]
    rfl

/-- A jump that was looked up, predicted to 0x200 and went elsewhere. -/
theorem correction_found_jump :
    let b : Branch Addr := ⟨1, 0x100, .indirectUncond, true, true, 0x200⟩
    let before : SimpleIndirectPredictor Addr := .init .defaults
    let now := (predict .defaults 0 before b).1
    ∀ target rand, (((now.update .defaults 0 1 true true target b.type
      (predict .defaults 0 before b).2 rand).1.setInfo 0 (before.threadInfo 0)).lookup .defaults 0
        0x100 none).1 = some target := by
  have hshaped : Shaped .defaults
      (predict .defaults 0 (.init .defaults : SimpleIndirectPredictor Addr)
        ⟨1, 0x100, .indirectUncond, true, true, 0x200⟩).1 := fun _ => rfl
  have : Nontrivial Addr := ⟨0, 1, by decide⟩
  have hfound := correction_found 0 (.init .defaults) hshaped
    ⟨1, 0x100, .indirectUncond, true, true, 0x200⟩ rfl 1
  exact hfound.1.mpr ⟨by decide, hfound.2 rfl fun _ => rfl⟩

/-- A conditional jump that was predicted not taken is not looked up. Its correction
records the target under the address `MaxAddr`, and the lookup misses. -/
theorem correction_lost :
    let b : Branch Addr := ⟨1, 0x100, .indirectCond, false, false, 0x104⟩
    let before : SimpleIndirectPredictor Addr := .init .defaults
    let now := (predict .defaults 0 before b).1
    let after := (now.update .defaults 0 1 true true 0x300 b.type (predict .defaults 0 before b).2
      7).1
    isIndirect b = true ∧
      ((after.setInfo 0 (before.threadInfo 0)).lookup .defaults 0 0x100 none).1 = none ∧
      ((after.setInfo 0 (before.threadInfo 0)).lookup .defaults 0 (-1) none).1 = some 0x300 := by
  decide +kernel

end Gem5Core.Pred.IndirectCorrection
