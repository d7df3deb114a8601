import Gem5Core.Pred.Gehl

/-! What the components of the corrector read and what they train. The two agree where they make the
same calls, which they do not for the backward history of the 64KB corrector. The length of a
history is honoured as long as its mask fits an `int`. -/
namespace Gem5Core.Pred.GehlAgreement
open Branch StatisticalCorrector Gehl Function List
open Base.IntMath (ones)

section

variable (p : GehlParams)

def entries (c : Call) : List Entry :=
  (List.range (p.component c.gehl).nbr).map (fun i =>
    .counter c.gehl i (select p (p.component c.gehl) c.branch_pc c.hist i)) ++
  [.weight c.gehl (getIndUpds p c.branch_pc)]

def owner : Entry → GehlId
  | .counter g _ _ => g
  | .weight g _ => g

variable {p} {c : Call} {g : GehlId} {i : Nat}

theorem owner_of_mem {e : Entry} (h : e ∈ entries p c) : owner e = c.gehl := by
  obtain h | h := mem_append.mp h
  · obtain ⟨i, -, rfl⟩ := mem_map.mp h
    rfl
  · rw [mem_singleton.mp h]
    rfl

theorem counter_mem_entries {index : Register} :
    Entry.counter g i index ∈ entries p c ↔
      g = c.gehl ∧ i < (p.component c.gehl).nbr ∧
        index = select p (p.component c.gehl) c.branch_pc c.hist i := by
  simp only [entries, mem_append, mem_map, mem_range, mem_singleton,
    reduceCtorEq, or_false, Entry.counter.injEq]
  constructor
  · rintro ⟨j, hj, rfl, rfl, rfl⟩
    exact ⟨rfl, hj, rfl⟩
  · rintro ⟨rfl, hi, rfl⟩
    exact ⟨i, hi, rfl, rfl, rfl⟩

theorem weight_mem_entries {index : BitVec 32} :
    Entry.weight g index ∈ entries p c ↔ g = c.gehl ∧ index = getIndUpds p c.branch_pc := by
  simp [entries]

private theorem readCounters (t : GehlTable) (l : List Nat) (sum : Int × List Entry) :
    (l.foldl (readCounter p t c) sum).2 = sum.2 ++ l.map fun i =>
      .counter c.gehl i (select p (p.component c.gehl) c.branch_pc c.hist i) := by
  induction l generalizing sum with
  | nil => simp
  | cons i l ih => simp [ih, readCounter]

theorem gPredict_entries (t : GehlTable) (c : Call) : (gPredict p t c).2 = entries p c := by
  simp [gPredict, readCounters, entries]

theorem trainCounters (taken : Bool) {l : List Nat} (hnodup : l.Nodup)
    (s : GehlTable × Int × List Entry) :
    let s' := l.foldl (trainCounter p c taken) s
    (∀ i index, s'.1.tab i index =
      if i ∈ l ∧ index = select p (p.component c.gehl) c.branch_pc c.hist i then
        ctrUpdate (s.1.tab i index) taken p.scCountersWidth
      else s.1.tab i index) ∧
    s'.1.w = s.1.w ∧
    s'.2.2 = s.2.2 ++ l.map fun i =>
      .counter c.gehl i (select p (p.component c.gehl) c.branch_pc c.hist i) := by
  induction l generalizing s with
  | nil => simp
  | cons j l ih =>
    obtain ⟨hj, hnodup⟩ := nodup_cons.mp hnodup
    obtain ⟨htab, hw, htrained⟩ := ih hnodup (trainCounter p c taken s j)
    refine ⟨fun i index => ?_, hw, ?_⟩
    · rw [foldl_cons, htab]
      by_cases hij : i = j
      · -- the rest of the loop leaves this table alone
        subst hij
        simp only [hj, false_and, if_false, mem_cons, true_or, true_and]
        simp only [trainCounter, update_self, update_apply]
        split
        next heq => rw [heq]
        next => rfl
      · simp [hij, trainCounter]
    · rw [foldl_cons, htrained]
      simp [trainCounter]

theorem gUpdate_spec (t : GehlTable) (c : Call) (taken : Bool) (bi : Info) :
    (gUpdate p t c taken bi).2 = entries p c ∧
    (∀ i index, (gUpdate p t c taken bi).1.tab i index =
      if Entry.counter c.gehl i index ∈ entries p c then
        ctrUpdate (t.tab i index) taken p.scCountersWidth
      else t.tab i index) ∧
    ∀ index, Entry.weight c.gehl index ∉ entries p c →
      (gUpdate p t c taken bi).1.w index = t.w index := by
  obtain ⟨htab, hw, htrained⟩ := trainCounters (p := p) (c := c) taken
    (nodup_range (n := (p.component c.gehl).nbr)) (t, 0, [])
  refine ⟨?_, fun i index => ?_, fun index hindex => ?_⟩
  · simp [gUpdate, htrained, entries]
  · have hcounter : (Entry.counter c.gehl i index ∈ entries p c) ↔
        (i ∈ List.range (p.component c.gehl).nbr ∧
          index = select p (p.component c.gehl) c.branch_pc c.hist i) := by
      rw [counter_mem_entries, mem_range]
      exact ⟨And.right, fun h => ⟨rfl, h⟩⟩
    simp only [gUpdate, htab, hcounter]
  · have hne : index ≠ getIndUpds p c.branch_pc := fun h => hindex (weight_mem_entries.mpr ⟨rfl, h⟩)
    simp only [gUpdate, update_of_ne hne, hw]

end

section

variable {p : GehlParams}

private theorem gPredictions_entries (tables : Tables) (branch_pc : Addr) (bi : Info) (lsum : Int) :
    (gPredictions p tables branch_pc bi lsum).2.2 =
      (readCalls p branch_pc bi).flatMap (entries p) := by
  simp [gPredictions, gPredict_entries, flatMap_map]

theorem trainCall_fold (taken : Bool) (bi : Info) {calls : List Call}
    (hnodup : (calls.map Call.gehl).Nodup) (s : Tables × List Entry) :
    let s' := calls.foldl (trainCall p taken bi) s
    s'.2 = s.2 ++ calls.flatMap (entries p) ∧
    (∀ c ∈ calls, s'.1.gehl c.gehl = (gUpdate p (s.1.gehl c.gehl) c taken bi).1) ∧
    ∀ g ∉ calls.map Call.gehl, s'.1.gehl g = s.1.gehl g := by
  induction calls generalizing s with
  | nil => simp
  | cons c calls ih =>
    rw [map_cons, nodup_cons] at hnodup
    obtain ⟨htrained, hcalls, hothers⟩ := ih hnodup.2 (trainCall p taken bi s c)
    refine ⟨?_, fun c' hc' => ?_, fun g hg => ?_⟩
    · rw [foldl_cons, htrained]
      simp [trainCall, (gUpdate_spec (p := p) (s.1.gehl c.gehl) c taken bi).1]
    · rw [foldl_cons]
      obtain rfl | hc' := mem_cons.mp hc'
      · rw [hothers _ hnodup.1]
        simp [trainCall]
      · have hne : c'.gehl ≠ c.gehl := fun h => hnodup.1 (h ▸ mem_map_of_mem hc')
        rw [hcalls c' hc']
        simp [trainCall, update_of_ne hne]
    · rw [map_cons, mem_cons, not_or] at hg
      rw [foldl_cons, hothers g hg.2]
      simp [trainCall, update_of_ne hg.1]

private theorem trainCalls_nodup (pc : Addr) (bi : Info) :
    ((trainCalls p pc bi).map Call.gehl).Nodup := by
  unfold trainCalls
  cases p.variant <;> simp

variable (p) in
/-- Every counter that was read is trained and no other; of the weights, only those that were read
may change. -/
structure TrainsRead (g : GehlId) (read : List Entry) (taken : Bool) (tables : Tables)
    (result : Tables × List Entry) : Prop where
  entries : ∀ e, owner e = g → (e ∈ result.2 ↔ e ∈ read)
  counters : ∀ i index, (result.1.gehl g).tab i index =
    if .counter g i index ∈ read then
      ctrUpdate ((tables.gehl g).tab i index) taken p.scCountersWidth
    else (tables.gehl g).tab i index
  weights : ∀ index, .weight g index ∉ read → (result.1.gehl g).w index = (tables.gehl g).w index

/-- The entries that the calls for one component select decide whether it trains what it reads. -/
theorem trainsRead_iff {pc : Addr} {bi : Info} {g : GehlId} (tables : Tables) (taken : Bool)
    (lsum : Int) :
    TrainsRead p g (gPredictions p tables pc bi lsum).2.2 taken tables
        (gUpdates p tables pc taken bi) ↔
      ∀ e, owner e = g → (e ∈ (trainCalls p pc bi).flatMap (entries p) ↔
        e ∈ (readCalls p pc bi).flatMap (entries p)) := by
  have hnodup := trainCalls_nodup (p := p) pc bi
  obtain ⟨htrained, hown, hothers⟩ := trainCall_fold (p := p) taken bi hnodup (tables, [])
  rw [← gUpdates] at htrained hown hothers
  rw [gPredictions_entries]
  constructor
  · intro h
    have hentries := h.entries
    rwa [htrained] at hentries
  intro hsame
  by_cases hg : ∃ c ∈ trainCalls p pc bi, c.gehl = g
  · obtain ⟨c, hc, rfl⟩ := hg
    obtain ⟨-, hcounters, hweights⟩ := gUpdate_spec (p := p) (tables.gehl c.gehl) c taken bi
    -- the component has no other call
    have honly : ∀ e, owner e = c.gehl →
        (e ∈ (readCalls p pc bi).flatMap (entries p) ↔ e ∈ entries p c) := by
      intro e he
      rw [← hsame e he, mem_flatMap]
      constructor
      · rintro ⟨c', hc', hmem⟩
        have heq : c'.gehl = c.gehl := (owner_of_mem hmem).symm.trans he
        rwa [← inj_on_of_nodup_map hnodup hc' hc heq]
      · exact fun hmem => ⟨c, hc, hmem⟩
    refine ⟨fun e he => ?_, fun i index => ?_, fun index hindex => ?_⟩
    · rw [htrained]
      exact hsame e he
    · rw [hown c hc, hcounters]
      exact if_congr (honly _ rfl).symm rfl rfl
    · rw [hown c hc]
      exact hweights index fun hmem => hindex ((honly _ rfl).mpr hmem)
  · have hnone : ∀ e, owner e = g → e ∉ (readCalls p pc bi).flatMap (entries p) := by
      intro e he hmem
      obtain ⟨c, hc, hin⟩ := mem_flatMap.mp ((hsame e he).mpr hmem)
      exact hg ⟨c, hc, (owner_of_mem hin).symm.trans he⟩
    have hkept : (gUpdates p tables pc taken bi).1.gehl g = tables.gehl g := by
      refine hothers g fun hmem => hg ?_
      obtain ⟨c, hc, hin⟩ := mem_map.mp hmem
      exact ⟨c, hc, hin⟩
    refine ⟨fun e he => ?_, fun i index => ?_, fun index _ => ?_⟩
    · rw [htrained]
      exact hsame e he
    · rw [hkept, if_neg (hnone _ rfl)]
    · rw [hkept]

private theorem calls_agree (pc : Addr) (bi : Info) {g : GehlId}
    (hg : g = .bwgehl → p.instShiftAmt = 0) {c : Call} (hc : c.gehl = g) :
    c ∈ readCalls p pc bi ↔ c ∈ trainCalls p pc bi := by
  unfold readCalls trainCalls
  cases p.variant with
  | kb8 => rfl
  | kb64 second third logTnb =>
    by_cases hbw : g = .bwgehl
    · rw [hg hbw, BitVec.ushiftRight_zero]
    · have hne : ∀ pc' hist, c ≠ ⟨.bwgehl, pc', hist⟩ := by
        rintro pc' hist rfl
        exact hbw hc.symm
      simp only [mem_cons, hne, false_or]

theorem trainsRead_of_calls (tables : Tables) (pc : Addr) (taken : Bool) (bi : Info) (lsum : Int)
    {g : GehlId} (hg : g = .bwgehl → p.instShiftAmt = 0) :
    TrainsRead p g (gPredictions p tables pc bi lsum).2.2 taken tables
      (gUpdates p tables pc taken bi) := by
  rw [trainsRead_iff]
  intro e he
  simp only [mem_flatMap]
  refine exists_congr fun c => and_congr_left fun hmem => ?_
  exact (calls_agree pc bi hg ((owner_of_mem hmem).symm.trans he)).symm

end

section

variable {s : Nat} {g : GehlId} {pc pc' : Addr} {hist : Register} {pred : Addr}

private theorem mem_entries_of_owner {p : GehlParams} {e : Entry} {c : Call} {calls : List Call}
    (he : owner e = c.gehl) (hne : ∀ c' ∈ calls, c'.gehl ≠ c.gehl) :
    e ∈ (c :: calls).flatMap (entries p) ↔ e ∈ entries p c := by
  rw [flatMap_cons, mem_append, or_iff_left]
  intro hmem
  obtain ⟨c', hc', hin⟩ := mem_flatMap.mp hmem
  exact hne c' hc' ((owner_of_mem hin).symm.trans he)

theorem entries_same_iff {p : GehlParams} :
    (∀ e, owner e = g → (e ∈ entries p ⟨g, pc, hist⟩ ↔ e ∈ entries p ⟨g, pc', hist⟩)) ↔
      (∀ i < (p.component g).nbr, select p (p.component g) pc hist i =
        select p (p.component g) pc' hist i) ∧ getIndUpds p pc = getIndUpds p pc' := by
  constructor
  · intro h
    refine ⟨fun i hi => ?_, ?_⟩
    · exact (counter_mem_entries.mp
        ((h _ rfl).mp (counter_mem_entries.mpr ⟨rfl, hi, rfl⟩))).2.2
    · exact (weight_mem_entries.mp ((h _ rfl).mp (weight_mem_entries.mpr ⟨rfl, rfl⟩))).2
  · rintro ⟨hcounters, hweight⟩ e he
    have hsame : entries p ⟨g, pc, hist⟩ = entries p ⟨g, pc', hist⟩ := by
      unfold entries
      rw [hweight, map_congr_left fun i hi => by rw [hcounters i (mem_range.mp hi)]]
    rw [hsame]

private theorem asr_xor (x y : Register) (k : Int) : asr (x ^^^ y) k = asr x k ^^^ asr y k :=
  BitVec.sshiftRight_xor_distrib x y _

theorem asr_zero (k : Int) : asr 0 k = 0 := by
  simp [asr]

theorem xor_and (x y m : Register) : (x ^^^ y) &&& m = (x &&& m) ^^^ (y &&& m) := by
  apply BitVec.eq_of_getLsbD_eq
  intro i _
  simp only [BitVec.getLsbD_and, BitVec.getLsbD_xor, Bool.and_xor_distrib_right]

theorem and_congr_low {x y m : Register} (n : Nat) (hm : ∀ k < 64, n ≤ k → m.getLsbD k = false)
    (h : ∀ k < n, x.getLsbD k = y.getLsbD k) : x &&& m = y &&& m := by
  apply BitVec.eq_of_getLsbD_eq
  intro k hk
  rw [BitVec.getLsbD_and, BitVec.getLsbD_and]
  by_cases hkn : k < n
  · rw [h k hkn]
  · rw [hm k hk (by omega), Bool.and_false, Bool.and_false]

/-- The argument of the calls for the backward history. -/
def withPred (bi : Info) (x : Addr) : Addr := (x <<< 1) + if bi.predBeforeSC then 1 else 0

private theorem getLsbD_withPred (bi : Info) (x : Addr) {j : Nat} (hj : 1 ≤ j) (hlt : j < 64) :
    (withPred bi x).getLsbD j = x.getLsbD (j - 1) := by
  have hbit : ∀ k, (if bi.predBeforeSC then 1 else 0 : Addr).getLsbD (k + 1) = false := by
    intro k
    cases bi.predBeforeSC <;> simp [BitVec.getLsbD_one]
  have hor : withPred bi x = (x <<< 1) ||| if bi.predBeforeSC then 1 else 0 := by
    apply BitVec.add_eq_or_of_and_eq_zero
    apply BitVec.eq_of_getLsbD_eq
    intro k hk
    cases k with
    | zero => simp
    | succ k => rw [BitVec.getLsbD_and, hbit, Bool.and_false, BitVec.getLsbD_zero]
  obtain ⟨k, rfl⟩ := Nat.exists_eq_add_of_le' hj
  rw [hor, BitVec.getLsbD_or, hbit, BitVec.getLsbD_shiftLeft]
  simp [hlt]

theorem getLsbD_shifted (bi : Info) (x : Addr) (hpos : 1 ≤ s) (hs : s ≤ 54) {k : Nat} (hk : k < 10) :
    (asr (withPred bi x) s).getLsbD k = x.getLsbD (s - 1 + k) ∧
      (withPred bi x >>> s).getLsbD k = x.getLsbD (s - 1 + k) := by
  have hbit : (withPred bi x).getLsbD (s + k) = x.getLsbD (s - 1 + k) := by
    rw [getLsbD_withPred bi x (by omega) (by omega), Nat.sub_add_comm hpos]
  have hcount : ((s : Int) % 64).toNat = s := by omega
  rw [asr, hcount, BitVec.getLsbD_sshiftRight, BitVec.getLsbD_ushiftRight, hbit,
    if_pos (by omega), decide_eq_false (by omega)]
  exact ⟨rfl, rfl⟩

theorem gIndex_eq_iff {p : GehlParams} {logs nbr i : Nat} {x y : Addr} :
    gIndex p x hist logs nbr i = gIndex p y hist logs nbr i ↔
      asr x p.instShiftAmt &&& (ones ((logs : Int) - gIndexLogsSubstr p nbr i)).signExtend 64 =
        asr y p.instShiftAmt &&& (ones ((logs : Int) - gIndexLogsSubstr p nbr i)).signExtend 64 := by
  unfold gIndex
  simp only [BitVec.xor_assoc, xor_and _ _ (BitVec.signExtend _ _)]
  exact BitVec.xor_left_inj _

private theorem getIndUpds_congr {p : GehlParams} (hlog : p.logSizeUp = 6) {x y : Addr}
    (h : ∀ k < 5, (x >>> p.instShiftAmt).getLsbD k = (y >>> p.instShiftAmt).getLsbD k) :
    getIndUpds p x = getIndUpds p y := by
  unfold getIndUpds pcHash
  rw [hlog]
  generalize x >>> p.instShiftAmt = x', y >>> p.instShiftAmt = y' at h ⊢
  refine congrArg (BitVec.setWidth 32) (and_congr_low 3 (by decide) fun k hk => ?_)
  rw [BitVec.getLsbD_xor, BitVec.getLsbD_xor, BitVec.getLsbD_ushiftRight,
    BitVec.getLsbD_ushiftRight, h k (by omega), h (2 + k) (by omega)]

theorem indices_same_iff (bi : Info) (x y : Addr) (hist : Nat → Register) (hpos : 1 ≤ s)
    (hs : s ≤ 54) :
    (∀ i < 3, gIndex (.defaults64KB s) (withPred bi x) (hist i) 10 3 i =
        gIndex (.defaults64KB s) (withPred bi y) (hist i) 10 3 i) ∧
      getIndUpds (.defaults64KB s) (withPred bi x) = getIndUpds (.defaults64KB s) (withPred bi y) ↔
    ∀ k < 10, x.getLsbD (s - 1 + k) = y.getLsbD (s - 1 + k) := by
  have hbits (k : Nat) (hk : k < 10) := getLsbD_shifted bi x hpos hs hk
  have hbits' (k : Nat) (hk : k < 10) := getLsbD_shifted bi y hpos hs hk
  simp only [gIndex_eq_iff]
  constructor
  · intro h k hk
    -- the first table is indexed with all ten bits
    have hmask : ∀ k < 10, ((ones ((10 : Int) - (0 : Nat))).signExtend 64).getLsbD k = true := by
      decide
    have hbit : (_ &&& (ones ((10 : Int) - (0 : Nat))).signExtend 64).getLsbD k =
        (_ &&& (ones ((10 : Int) - (0 : Nat))).signExtend 64).getLsbD k :=
      congrArg (·.getLsbD k) (h.1 0 (by omega))
    rw [BitVec.getLsbD_and, BitVec.getLsbD_and, hmask k hk, Bool.and_true, Bool.and_true] at hbit
    exact (hbits k hk).1.symm.trans (hbit.trans (hbits' k hk).1)
  · intro h
    have hmask : ∀ i < 3, ∀ k < 64, 10 ≤ k →
        ((ones ((10 : Int) - gIndexLogsSubstr (.defaults64KB 0) 3 i)).signExtend 64).getLsbD k =
          false := by
      decide +kernel
    refine ⟨fun i hi => and_congr_low 10 (hmask i hi) fun k hk => ?_, ?_⟩
    · exact (hbits k hk).1.trans ((h k hk).trans (hbits' k hk).1.symm)
    · refine getIndUpds_congr rfl fun k hk => ?_
      exact (hbits k (by omega)).2.trans ((h k (by omega)).trans (hbits' k (by omega)).2.symm)

theorem bwTrainsRead_iff (tables : Tables) (pc : Addr) (taken : Bool) (bi : Info) (lsum : Int)
    (hpos : 1 ≤ s) (hs : s ≤ 54) :
    TrainsRead (.defaults64KB s) .bwgehl (gPredictions (.defaults64KB s) tables pc bi lsum).2.2
        taken tables (gUpdates (.defaults64KB s) tables pc taken bi) ↔
      ∀ k < 10, pc.getLsbD (s - 1 + k) = pc.getLsbD (2 * s - 1 + k) := by
  have htrain (e : Entry) (he : owner e = .bwgehl) :
      e ∈ (trainCalls (.defaults64KB s) pc bi).flatMap (entries (.defaults64KB s)) ↔
        e ∈ entries (.defaults64KB s) ⟨.bwgehl, withPred bi pc, bi.bwHist⟩ :=
    mem_entries_of_owner he (by simp)
  have hread (e : Entry) (he : owner e = .bwgehl) :
      e ∈ (readCalls (.defaults64KB s) pc bi).flatMap (entries (.defaults64KB s)) ↔
        e ∈ entries (.defaults64KB s) ⟨.bwgehl, withPred bi (pc >>> s), bi.bwHist⟩ :=
    mem_entries_of_owner he (by simp)
  have hbit (k : Nat) : (pc >>> s).getLsbD (s - 1 + k) = pc.getLsbD (2 * s - 1 + k) := by
    rw [BitVec.getLsbD_ushiftRight, show s + (s - 1 + k) = 2 * s - 1 + k by omega]
  rw [trainsRead_iff, forall_congr' fun e => forall_congr' fun he =>
    iff_congr (htrain e he) (hread e he), entries_same_iff]
  exact (indices_same_iff bi pc (pc >>> s) _ hpos hs).trans (by simp only [hbit])

/-- Read and training agree for every component but the one of the backward
history, and for that one where the address is not shifted. In the shipped 64KB corrector
its calls shift the address once and twice, and agree on those branches where this
does not show in the ten bits of an index. -/
theorem trains_what_it_read (tables : Tables) (pc : Addr) (taken : Bool) (bi : Info) (lsum : Int)
    (g : GehlId) :
    (∀ p : GehlParams, (g = .bwgehl → p.instShiftAmt = 0) →
      TrainsRead p g (gPredictions p tables pc bi lsum).2.2 taken tables
        (gUpdates p tables pc taken bi)) ∧
    ∀ s ≤ 54, TrainsRead (.defaults64KB s) g (gPredictions (.defaults64KB s) tables pc bi lsum).2.2
        taken tables (gUpdates (.defaults64KB s) tables pc taken bi) ↔
      (g = .bwgehl → s = 0 ∨ ∀ k < 10, pc.getLsbD (s - 1 + k) = pc.getLsbD (2 * s - 1 + k)) := by
  refine ⟨fun p hg => trainsRead_of_calls tables pc taken bi lsum hg, fun s hs => ?_⟩
  by_cases hsame : g = .bwgehl → s = 0
  · exact iff_of_true (trainsRead_of_calls tables pc taken bi lsum hsame) fun hg => .inl (hsame hg)
  · obtain ⟨rfl, hpos⟩ := Classical.not_imp.mp hsame
    rw [bwTrainsRead_iff tables pc taken bi lsum (by omega) hs]
    simp [hpos]

/-- A branch whose address is not shifted, and one whose shifts do not show. -/
theorem trains_what_it_read_some :
    let trains := fun (s : Nat) (pc : Addr) => TrainsRead (.defaults64KB s) .bwgehl
      (gPredictions (.defaults64KB s) (.init (.defaults64KB s)) pc { bwHist := 5 } 0).2.2 true
      (.init (.defaults64KB s))
      (gUpdates (.defaults64KB s) (.init (.defaults64KB s)) pc true { bwHist := 5 })
    trains 0 0x1004 ∧ trains 2 0xaaaa ∧ ¬ trains 2 0x1004 := by
  refine ⟨?_, ?_, ?_⟩
  · exact (trains_what_it_read _ _ _ _ _ .bwgehl).1 _ fun _ => rfl
  · exact ((trains_what_it_read _ _ _ _ _ .bwgehl).2 2 (by decide)).mpr (by decide +kernel)
  · exact ((trains_what_it_read _ _ _ _ _ .bwgehl).2 2 (by decide)).not.mpr (by decide +kernel)

end

section

variable {p : GehlParams}

/-- With the shipped shift of two, the branch at address 4 reads counter 0 of the
first backward table and trains counter 2. -/
theorem bw_trains_unread :
    let p := GehlParams.defaults64KB 2
    let read := (gPredictions p (.init p) 4 {} 0).2.2
    let trained := (gUpdates p (.init p) 4 true {}).2
    Entry.counter .bwgehl 0 0 ∈ read ∧ Entry.counter .bwgehl 0 0 ∉ trained ∧
      Entry.counter .bwgehl 0 2 ∈ trained ∧ Entry.counter .bwgehl 0 2 ∉ read := by
  decide +kernel

end

section

variable {p : GehlParams}

theorem lengthMask_eq :
    ∀ length < 64, lengthMask length = BitVec.ofNat 64 (2 ^ (length % 32) - 1) := by
  decide

def recent (hist : Register) (length : Nat) : Register := BitVec.ofNat 64 (hist.toNat % 2 ^ length)

private theorem and_lengthMask (hist : Register) {length : Nat} (hlength : length ≤ 63) :
    hist &&& lengthMask length = recent hist (length % 32) := by
  have hpow : 2 ^ (length % 32) ≤ 2 ^ 31 := Nat.pow_le_pow_right (by decide) (by omega)
  rw [lengthMask_eq length (by omega), recent]
  apply BitVec.eq_of_toNat_eq
  rw [BitVec.toNat_and, BitVec.toNat_ofNat, BitVec.toNat_ofNat,
    Nat.mod_eq_of_lt (a := 2 ^ (length % 32) - 1) (by omega), Nat.and_two_pow_sub_one_eq_mod,
    Nat.mod_eq_of_lt (a := hist.toNat % 2 ^ (length % 32)) (by omega)]

theorem select_eq {c : Component} {i : Nat} (hlength : c.length i ≤ 63) (branch_pc : Addr)
    (hist : Register) :
    select p c branch_pc hist i =
      gIndex p branch_pc (recent hist (c.length i % 32)) c.logs c.nbr i := by
  rw [select, and_lengthMask hist hlength]

private theorem recent_mod_congr {hist hist' : Register} {length : Nat} (hlength : length ≤ 63)
    (h : recent hist length = recent hist' length) :
    recent hist (length % 32) = recent hist' (length % 32) := by
  have hpow : 2 ^ length ≤ 2 ^ 63 := Nat.pow_le_pow_right (by decide) hlength
  have hdvd : 2 ^ (length % 32) ∣ 2 ^ length := Nat.pow_dvd_pow 2 (Nat.mod_le _ _)
  have hmod : hist.toNat % 2 ^ length = hist'.toNat % 2 ^ length := by
    have hnat := congrArg BitVec.toNat h
    have hlt (x : Nat) : x % 2 ^ length < 2 ^ 64 :=
      (Nat.mod_lt x (Nat.two_pow_pos length)).trans_le (by omega)
    rwa [recent, recent, BitVec.toNat_ofNat, BitVec.toNat_ofNat, Nat.mod_eq_of_lt (hlt _),
      Nat.mod_eq_of_lt (hlt _)] at hnat
  rw [recent, recent, ← Nat.mod_mod_of_dvd _ hdvd, hmod, Nat.mod_mod_of_dvd _ hdvd]

/-- The outcomes that a mask of 32 bits drops, which are none if there are less. -/
def dropped (hist : Register) (length : Nat) : Register :=
  recent hist (length % 32) ^^^ recent hist length

theorem xor_eq_left_iff {x y : Register} : x ^^^ y = x ↔ y = 0#64 := by
  have h := BitVec.xor_right_inj x (x := y) (y := 0#64)
  rwa [BitVec.xor_zero] at h

theorem gIndex_xor (branch_pc : Addr) (x y : Register) (logs nbr i : Nat) :
    gIndex p branch_pc (x ^^^ y) logs nbr i =
      gIndex p branch_pc x logs nbr i ^^^ gIndex p 0 y logs nbr i := by
  unfold gIndex
  rw [← xor_and]
  simp only [asr_xor, asr_zero, show (0 : Register) ^^^ y = y from BitVec.zero_xor]
  congr 1
  ac_rfl

private theorem select_xor (c : Component) (branch_pc : Addr) (hist outcome : Register) (i : Nat) :
    select p c branch_pc (hist ^^^ outcome) i =
      select p c branch_pc hist i ^^^ select p c 0 outcome i := by
  rw [select, xor_and, gIndex_xor]
  rfl

/-- The outcomes of a shipped component that do not reach its counter: those that the mask of
length 40 drops, and the eighth bit of the iteration count, whose table has seven index bits. -/
def Lost (g : GehlId) (i j : Nat) : Prop := (g = .bwgehl ∧ i = 0 ∧ 8 ≤ j) ∨ (g = .igehl ∧ j = 7)

instance (g : GehlId) (i j : Nat) : Decidable (Lost g i j) := inferInstanceAs (Decidable (_ ∨ _))

theorem outcome_selects_iff (g : GehlId) :
    ∀ i < ((GehlParams.defaults64KB 0).component g).nbr,
      ((GehlParams.defaults64KB 0).component g).length i ≤ 63 ∧
      ∀ j < ((GehlParams.defaults64KB 0).component g).length i,
        (select (.defaults64KB 0) ((GehlParams.defaults64KB 0).component g) 0
          (BitVec.twoPow 64 j) i = 0#64 ↔ Lost g i j) := by
  cases g <;> decide +kernel

theorem select_unshifted (instShiftAmt : Nat) (c : Component) (outcome : Register) (i : Nat) :
    select (.defaults64KB instShiftAmt) c 0 outcome i = select (.defaults64KB 0) c 0 outcome i := by
  simp only [select, gIndex, asr_zero]
  rfl

/-- The counter that is read and trained is the one for the `L` most recent outcomes
exactly when those that an `int` mask drops cancel in the index; below 32 none is
dropped. Older outcomes never matter. In the shipped 64KB corrector each of the `L`
outcomes changes the counter, but for those that are lost. -/
theorem history_lengths (p : GehlParams) (t : GehlTable) (c : Call) (taken : Bool) (bi : Info)
    {i : Nat} (hi : i < (p.component c.gehl).nbr) (hL : (p.component c.gehl).length i ≤ 63) :
    let L := (p.component c.gehl).length i
    let index := fun pc hist => gIndex p pc hist (p.component c.gehl).logs (p.component c.gehl).nbr i
    (((∀ x, .counter c.gehl i x ∈ (gPredict p t c).2 ↔ x = index c.branch_pc (recent c.hist L)) ∧
        ∀ x, .counter c.gehl i x ∈ (gUpdate p t c taken bi).2 ↔
          x = index c.branch_pc (recent c.hist L)) ↔
      index 0 (dropped c.hist L) = 0#64) ∧
    (L ≤ 31 → dropped c.hist L = 0#64) ∧
    (∀ hist, recent hist L = recent c.hist L →
      select p (p.component c.gehl) c.branch_pc hist i =
        select p (p.component c.gehl) c.branch_pc c.hist i) ∧
    (p = .defaults64KB p.instShiftAmt → ∀ j < L,
      (select p (p.component c.gehl) c.branch_pc (c.hist ^^^ BitVec.twoPow 64 j) i ≠
        select p (p.component c.gehl) c.branch_pc c.hist i ↔ ¬Lost c.gehl i j)) := by
  intro L index
  have hcounter : ∀ x, .counter c.gehl i x ∈ entries p c ↔
      x = index c.branch_pc (recent c.hist (L % 32)) := by
    intro x
    rw [counter_mem_entries, select_eq hL]
    exact ⟨fun h => h.2.2, fun h => ⟨rfl, hi, h⟩⟩
  have hsum : index c.branch_pc (recent c.hist L) =
      index c.branch_pc (recent c.hist (L % 32)) ^^^ index 0 (dropped c.hist L) := by
    have hrecent : recent c.hist L = recent c.hist (L % 32) ^^^ dropped c.hist L := by
      rw [dropped, ← BitVec.xor_assoc, BitVec.xor_self, BitVec.zero_xor]
    rw [← gIndex_xor, ← hrecent]
  refine ⟨?_, fun hle => ?_, fun hist hrecent => ?_, fun hshipped j hj => ?_⟩
  · rw [gPredict_entries, (gUpdate_spec t c taken bi).1, and_self, hsum]
    constructor
    · intro h
      exact xor_eq_left_iff.mp ((hcounter _).mp ((h _).mpr rfl))
    · intro hzero x
      rw [hcounter, hzero, BitVec.xor_zero]
  · rw [dropped, Nat.mod_eq_of_lt (by omega), BitVec.xor_self]
  · rw [select_eq hL, select_eq hL, recent_mod_congr hL hrecent]
  · rw [select_xor, ne_eq, xor_eq_left_iff]
    generalize p.instShiftAmt = shift at hshipped
    subst hshipped
    rw [select_unshifted]
    exact ((outcome_selects_iff c.gehl i hi).2 j hj).not

/-- The two longer lengths of the backward history. -/
theorem history_lengths_backward :
    let p := GehlParams.defaults64KB 2
    let c := p.component .bwgehl
    (∀ x, .counter .bwgehl 1 x ∈ (gPredict p ((Tables.init p).gehl .bwgehl) ⟨.bwgehl, 0x1004, 5⟩).2 ↔
      x = gIndex p 0x1004 (recent 5 24) 10 3 1) ∧
    select p c 0x1004 (5 ^^^ BitVec.twoPow 64 23) 1 ≠ select p c 0x1004 5 1 ∧
    ¬select p c 0x1004 (5 ^^^ BitVec.twoPow 64 39) 0 ≠ select p c 0x1004 5 0 := by
  have hlong := fun i (hi : i < 3) (hL : [40, 24, 10].getD i 0 ≤ 63) =>
    history_lengths (.defaults64KB 2) ((Tables.init (.defaults64KB 2)).gehl .bwgehl)
      ⟨.bwgehl, 0x1004, 5⟩ true {} hi hL
  exact ⟨((hlong 1 (by decide) (by decide)).1.mpr (by decide +kernel)).1,
    ((hlong 1 (by decide) (by decide)).2.2.2 rfl 23 (by decide)).mpr (by decide),
    ((hlong 0 (by decide) (by decide)).2.2.2 rfl 39 (by decide)).not.mpr (by decide)⟩

/-- The first length of the shipped backward component is 40. Of the 40 outcomes
the counter depends on eight; neither does the iteration count's eighth bit
reach its counter. -/
theorem history_lengths_lost :
    let p := GehlParams.defaults64KB 2
    let c : Call := ⟨.bwgehl, 0, 0x100⟩
    (p.component .bwgehl).length 0 = 40 ∧
    Entry.counter .bwgehl 0 (gIndex p 0 (recent 0x100 40) 10 3 0) ∉
      (gPredict p ((Tables.init p).gehl .bwgehl) c).2 ∧
    (∀ j < 40, 8 ≤ j → select p (p.component .bwgehl) 0 (BitVec.twoPow 64 j) 0 =
      select p (p.component .bwgehl) 0 0 0) ∧
    select p (p.component .igehl) 0 0x80 0 = select p (p.component .igehl) 0 0 0 := by
  decide +kernel

end

end Gem5Core.Pred.GehlAgreement
