import Gem5Core.ValuePred.Confidence
import Gem5Core.ValuePred.PlainHistory
import Mathlib.Data.Nat.Periodic

/-! Convergence on a repeating pattern of strides: once the ring holds nothing but the pattern,
every phase consults one table entry and trains it once in each period with one stride. -/
namespace Gem5Core.ValuePred.Convergence
open Base.IntMath MarkovLVP Training ContextHash Lib.RotateMix List BitVec
open PlainHistory (differences differences_cons Follows Tracks follows_learn run_follows index
  index_lt)

section

/-- How far an entry is on its way to predicting `a`: below `maxConf` it has to
unlearn another stride, above it it gains confidence. -/
def rank (maxConf : Unsigned) (a : Word) (m : MarkovEntry) : Nat :=
  if m.valid then
    if m.predictedStride = a then maxConf.toNat + m.confidence.toNat
    else maxConf.toNat - m.confidence.toNat
  else maxConf.toNat

variable {maxConf : Unsigned} {a : Word} {m : MarkovEntry}

theorem rank_le (h : Confidence.InRange maxConf m) : rank maxConf a m ≤ 2 * maxConf.toNat := by
  unfold rank
  split
  · rename_i hv
    have hrange := h hv
    split <;> omega
  · omega

private theorem of_lt_rank (h : maxConf.toNat < rank maxConf a m) :
    m.valid = true ∧ m.predictedStride = a ∧
      m.confidence.toNat = rank maxConf a m - maxConf.toNat := by
  unfold rank at h ⊢
  split at h
  · rename_i hv
    split at h
    · rename_i ha
      rw [if_pos hv, if_pos ha]
      exact ⟨hv, ha, by omega⟩
    · omega
  · omega

theorem rank_train (hpos : 1 ≤ maxConf.toNat) (hmax : maxConf.toNat ≤ 255)
    (h : Confidence.InRange maxConf m) :
    min (2 * maxConf.toNat) (rank maxConf a m + 1) ≤ rank maxConf a (m.train maxConf a) := by
  unfold MarkovEntry.train
  by_cases hv : m.valid = true
  · have hrange := h hv
    rw [if_neg (by simp [hv])]
    by_cases ha : a = m.predictedStride
    · rw [if_pos ha]
      split
      · have hinc := Confidence.increment_toNat m.confidence (by omega)
        simp only [rank, hv, ha, if_true]
        omega
      · simp only [rank, hv, ha, if_true]
        omega
    · have hdec := Confidence.decrement_toNat m.confidence (by omega)
      rw [if_neg ha]
      simp only [if_pos (show 0 < m.confidence.toNat from hrange.1)]
      split
      · simp only [rank, hv, Ne.symm ha, if_true, if_false]
        omega
      · simp only [rank, hv, Ne.symm ha, if_true, if_false]
        omega
  · rw [if_pos (by simpa using hv)]
    simp only [rank, hv, if_true, if_false, Bool.false_eq_true]
    have hone : (1 : BitVec 8).toNat = 1 := rfl
    omega

end

section

/-- A table trained at `idx i` with `stride i` in round `i`, where both repeat
with period `q` and the index determines the stride. -/
structure Rounds (p : Params) (q : Nat) (idx : Nat → Nat) (stride : Nat → Word)
    (table : Nat → List MarkovEntry) : Prop where
  train : ∀ i, table (i + 1) =
    (table i).set (idx i) (((table i).getD (idx i) {}).train p.maxConf (stride i))
  lt : ∀ i, idx i < (table i).length
  inRange : ∀ i, ∀ m ∈ table i, Confidence.InRange p.maxConf m
  period : ∀ i, idx (i + q) = idx i
  determines : ∀ i j, idx i = idx j → stride i = stride j

variable {p : Params} {q : Nat} {idx : Nat → Nat} {stride : Nat → Word}
  {table : Nat → List MarkovEntry}

section

variable (h : Rounds p q idx stride table)
include h

theorem Rounds.rank_succ (hpos : 1 ≤ p.maxConf.toNat) (hmax : p.maxConf.toNat ≤ 255) (i j : Nat) :
    (if idx i = idx j then
        min (2 * p.maxConf.toNat) (rank p.maxConf (stride j) ((table i).getD (idx j) {}) + 1)
      else rank p.maxConf (stride j) ((table i).getD (idx j) {})) ≤
      rank p.maxConf (stride j) ((table (i + 1)).getD (idx j) {}) := by
  rw [h.train i]
  split
  · rename_i heq
    have hlt : idx j < ((table i).set (idx i)
        (((table i).getD (idx i) {}).train p.maxConf (stride i))).length := by
      rw [length_set, ← heq]
      exact h.lt i
    rw [getD_eq_getElem _ _ hlt]
    simp only [heq, getElem_set_self, h.determines i j heq]
    exact rank_train hpos hmax (Confidence.getD_inRange _ (h.inRange i) _)
  · rename_i hne
    simp only [getD_eq_getElem?_getD, List.getElem?_set_ne hne]
    exact le_rfl

theorem Rounds.rank_mono (hpos : 1 ≤ p.maxConf.toNat) (hmax : p.maxConf.toNat ≤ 255) {i i' : Nat}
    (hle : i ≤ i') (j : Nat) :
    rank p.maxConf (stride j) ((table i).getD (idx j) {}) ≤
      rank p.maxConf (stride j) ((table i').getD (idx j) {}) := by
  induction i', hle using Nat.le_induction with
  | base => exact le_rfl
  | succ i' _ ih =>
    have hstep := h.rank_succ hpos hmax i' j
    have hle := rank_le (a := stride j) (Confidence.getD_inRange _ (h.inRange i') (idx j))
    split at hstep <;> omega

theorem Rounds.idx_add_mul (j r : Nat) : idx (j + r * q) = idx j := by
  induction r with
  | zero => rw [Nat.zero_mul, Nat.add_zero]
  | succ r ih => rw [Nat.succ_mul, ← Nat.add_assoc, h.period, ih]

theorem Rounds.rank_ge (hpos : 1 ≤ p.maxConf.toNat) (hmax : p.maxConf.toNat ≤ 255) (hq : 0 < q)
    (j r : Nat) :
    min (2 * p.maxConf.toNat) r ≤
      rank p.maxConf (stride j) ((table (j + r * q)).getD (idx j) {}) := by
  induction r with
  | zero => omega
  | succ r ih =>
    have htrained := h.rank_succ hpos hmax (j + r * q) j
    rw [if_pos (h.idx_add_mul j r)] at htrained
    have hround : j + r * q + 1 ≤ j + (r + 1) * q := by
      rw [Nat.succ_mul]
      omega
    have hlater := h.rank_mono hpos hmax hround j
    omega

theorem Rounds.learned (hmax : p.maxConf.toNat ≤ 255) (hthr : 1 ≤ p.confThreshold.toNat)
    (hle : p.confThreshold.toNat ≤ p.maxConf.toNat) (hq : 0 < q) {i : Nat}
    (hi : q * (p.maxConf.toNat + p.confThreshold.toNat) ≤ i) :
    confident p.confThreshold ((table i).getD (idx i) {}) = true ∧
      ((table i).getD (idx i) {}).predictedStride = stride i := by
  have hsplit : i % q + i / q * q = i := by
    rw [Nat.mul_comm]
    exact Nat.mod_add_div i q
  have hidx : idx i = idx (i % q) := by
    rw [← h.idx_add_mul (i % q) (i / q), hsplit]
  have hrank := h.rank_ge (by omega) hmax hq (i % q) (i / q)
  rw [hsplit, ← hidx, ← h.determines i (i % q) hidx] at hrank
  have hperiods : p.maxConf.toNat + p.confThreshold.toNat ≤ i / q :=
    (Nat.le_div_iff_mul_le hq).mpr (by rw [Nat.mul_comm]; exact hi)
  have hlt : p.maxConf.toNat < rank p.maxConf (stride i) ((table i).getD (idx i) {}) := by omega
  obtain ⟨hvalid, hstride, hconf⟩ := of_lt_rank hlt
  exact ⟨(confident_iff _ _).mpr ⟨hvalid, by omega⟩, hstride⟩

end

end

section

/-- `n` steps on one PC, each an `update` with the next value and a `predict`. -/
def drive (pc : Addr) (value : Nat → Word) (arg : Nat → Bool × Word) (n : Nat) : List Call :=
  (List.range n).flatMap fun k => [.update pc (value k) (arg k).1 (arg k).2, .predict pc]

def learnedAfter (p : Params) (k : Knowledge) (pc : Addr) (value : Nat → Word) : Nat → Knowledge
  | 0 => k
  | n + 1 => learn p (learnedAfter p k pc value n) pc (value n)

theorem of_drive (p : Params) (calls : List Call) (pc : Addr) (value : Nat → Word)
    (arg : Nat → Bool × Word) (n : Nat) :
    of (run p (calls ++ drive pc value arg n)) =
      learnedAfter p (of (run p calls)) pc value n := by
  induction n with
  | zero => rw [drive, range_zero, flatMap_nil, append_nil, learnedAfter]
  | succ n ih =>
    have hlast : calls ++ drive pc value arg (n + 1) =
        calls ++ drive pc value arg n ++ [.update pc (value n) (arg n).1 (arg n).2] ++
          [.predict pc] := by
      simp [drive, range_succ]
    rw [hlast, run_concat, run_concat, of_step, of_step, ih]
    rfl

theorem predict_drive (p : Params) (calls : List Call) (pc : Addr) (value : Nat → Word)
    (arg : Nat → Bool × Word) (n : Nat) :
    (predict p (run p (calls ++ drive pc value arg n ++
        [.update pc (value n) (arg n).1 (arg n).2])) pc).2 =
      answer p (learnedAfter p (of (run p calls)) pc value (n + 1)) pc := by
  rw [predict_snd, run_concat, of_step, of_drive]
  rfl

def valuesAfter (old : List Word) (value : Nat → Word) : Nat → List Word
  | 0 => old
  | n + 1 => value n :: valuesAfter old value n

variable {pc : Addr} {k : Knowledge} {old : List Word} {p : Params}

private theorem follows_learnedAfter (h : Follows p old (k.vht pc)) (value : Nat → Word) (n : Nat) :
    Follows p (valuesAfter old value n) ((learnedAfter p k pc value n).vht pc) := by
  induction n with
  | zero => exact h
  | succ n ih => exact follows_learn _ pc (value n) ih

variable {value δ : Nat → Word}

theorem getD_differences (old : List Word) (hδ : ∀ k, value (k + 1) - value k = δ k) (n i : Nat)
    (hi : i < n) : (differences (valuesAfter old value (n + 1))).getD i 0 = δ (n - 1 - i) := by
  induction n generalizing i with
  | zero => omega
  | succ n ih =>
    rw [valuesAfter, differences_cons (value (n + 1)) (value n) _ rfl, hδ]
    cases i with
    | zero => rfl
    | succ i =>
      rw [getD_cons_succ, ih i (by omega)]
      congr 1
      omega

theorem length_differences (old : List Word) (value : Nat → Word) (n : Nat) :
    (differences (valuesAfter old value (n + 1))).length = old.length + n := by
  have hlen : ∀ n, (valuesAfter old value n).length = old.length + n := by
    intro n
    induction n with
    | zero => rfl
    | succ n ih => rw [valuesAfter, length_cons, ih, Nat.add_assoc]
  rw [differences, length_zipWith, length_tail, hlen]
  omega

private theorem learnedAfter_vht (h : Follows p old (k.vht pc)) (value : Nat → Word) (n : Nat) :
    ∃ e, (learnedAfter p k pc value (n + 1)).vht pc = some e ∧
      Tracks p (valuesAfter old value (n + 1)) e := by
  have hf := follows_learnedAfter h value (n + 1)
  cases he : (learnedAfter p k pc value (n + 1)).vht pc with
  | none =>
    rw [he] at hf
    cases hf
  | some e =>
    rw [he] at hf
    exact ⟨e, rfl, hf⟩

/-- The context, newest first, that precedes stride `i + depth` of a pattern. -/
def phase (p : Params) (δ : Nat → Word) (i : Nat) : List Word :=
  (List.range p.depth).map fun k => δ (i + p.depth - 1 - k)

theorem getD_phase (p : Params) (δ : Nat → Word) (i : Nat) {k : Nat} (hk : k < p.depth) :
    (phase p δ i).getD k 0 = δ (i + p.depth - 1 - k) := by
  rw [getD_eq_getElem _ _ (by simpa [phase] using hk)]
  simp [phase]

/-- Contexts that share a table index are followed by the same stride. -/
def Separated (p : Params) (pc : Addr) (δ : Nat → Word) : Prop :=
  ∀ i j, index p pc (phase p δ i) = index p pc (phase p δ j) →
    δ (i + p.depth) = δ (j + p.depth)

section
variable {q : Nat} (hper : ∀ k, δ (k + q) = δ k)
include hper

theorem phase_periodic (p : Params) : (phase p δ).Periodic q := by
  intro i
  apply map_congr_left
  intro k hk
  have hkd := mem_range.mp hk
  rw [← hper (i + p.depth - 1 - k)]
  congr 1
  omega

/-- Within one period the condition on the hash can be computed. -/
theorem separated_of_period (p : Params) (pc : Addr) (hq : 0 < q)
    (h : ∀ i < q, ∀ j < q, index p pc (phase p δ i) = index p pc (phase p δ j) →
      δ (i + p.depth) = δ (j + p.depth)) : Separated p pc δ := by
  have hnext := Function.Periodic.add_const hper p.depth
  intro i j hij
  rw [← (phase_periodic hper p).map_mod_nat i, ← (phase_periodic hper p).map_mod_nat j] at hij
  have hmod := h _ (Nat.mod_lt i hq) _ (Nat.mod_lt j hq) hij
  rwa [hnext.map_mod_nat i, hnext.map_mod_nat j] at hmod

end

private theorem separated_of_constant (p : Params) (pc : Addr) (h : ∀ k, δ (k + 1) = δ k) :
    Separated p pc δ := by
  apply separated_of_period h p pc Nat.one_pos
  intro i hi j hj _
  rw [Nat.lt_one_iff.mp hi, Nat.lt_one_iff.mp hj]

theorem index_phase (hδ : ∀ k, value (k + 1) - value k = δ k) {e : Training.Entry} {i : Nat}
    (h : Tracks p (valuesAfter old value (i + p.depth + 1)) e)
    (hwrap : e.writePtr + p.depth ≤ 2 ^ 32) : e.index p pc = index p pc (phase p δ i) := by
  rw [Training.Entry.index, contextHash_eq_strideHash, index]
  rw [strideHash_congr p.depth pc fun k hk => ?_]
  rw [h.visited_eq hwrap hk, getD_differences old hδ _ _ (by omega), getD_phase p δ i hk]

theorem learnedAfter_entry (h : Follows p old (k.vht pc)) (value : Nat → Word) {n : Nat}
    (hn : 0 < n) : ∃ e, (learnedAfter p k pc value (n + 1)).vht pc = some e ∧
      Tracks p (valuesAfter old value (n + 1)) e ∧ e.valid = true ∧ e.strideValid = true ∧
      e.lastVal = value n := by
  obtain ⟨e, he, ht⟩ := learnedAfter_vht h value n
  refine ⟨e, he, ht, ht.valid, ?_, ?_⟩
  · rw [ht.strideValid, Bool.not_eq_true', isEmpty_eq_false_iff]
    intro hnil
    have hlen := length_differences old value n
    rw [hnil, length_nil] at hlen
    omega
  · exact (Option.some.inj ht.lastVal).symm

theorem rounds_of_pattern (p : Params) (hd : p.depth ≤ 2 ^ 31) (hpos : 1 ≤ p.maxConf.toNat)
    (hmax : p.maxConf.toNat ≤ 255) (calls : List Call) (pc : Addr)
    (hδ : ∀ k, value (k + 1) - value k = δ k) {q : Nat} (hper : ∀ k, δ (k + q) = δ k)
    (hsep : Separated p pc δ) :
    Rounds p q (fun i => index p pc (phase p δ i)) (fun i => δ (i + p.depth))
      (fun i => (learnedAfter p (of (run p calls)) pc value (i + p.depth + 1)).markovTable) where
  train := by
    intro i
    obtain ⟨e, he, ht, hv, hs, hlast⟩ :=
      learnedAfter_entry (run_follows p calls pc) value (n := i + p.depth)
        (by have := p.contextDepth_pos; rw [Params.depth]; omega)
    have hround : i + 1 + p.depth + 1 = i + p.depth + 1 + 1 := by omega
    rw [hround, learnedAfter, learn_next p he hv, if_pos hs, hlast, hδ,
      index_phase hδ ht (no_wrap hd ht.writePtr_lt)]
  lt := by
    intro i
    rw [← of_drive p calls pc value (fun _ => (false, 0)), of_markovTable, run_length]
    exact index_lt p pc _
  inRange := by
    intro i
    rw [← of_drive p calls pc value (fun _ => (false, 0))]
    exact Confidence.run_inRange p hpos hmax _
  period := by
    intro i
    rw [phase_periodic hper p i]
  determines := hsep

end

def alternating (k : Nat) : Word := if k % 2 = 0 then 268435456 else 0

def stairs (k : Nat) : Word := BitVec.ofNat 64 (268435456 * ((k + 1) / 2))

theorem stairs_succ (k : Nat) : stairs (k + 1) - stairs k = alternating k := by
  unfold stairs alternating
  split
  · have hhalf : (k + 1 + 1) / 2 = (k + 1) / 2 + 1 := by omega
    rw [hhalf, Nat.mul_succ, BitVec.ofNat_add, BitVec.add_comm, BitVec.add_sub_cancel]
    rfl
  · have hhalf : (k + 1 + 1) / 2 = (k + 1) / 2 := by omega
    rw [hhalf, BitVec.sub_self]
    rfl

theorem alternating_period (k : Nat) : alternating (k + 2) = alternating k := by
  simp [alternating]

def stepping : Params := Params.defaults.withDepth 2 (by decide)

private theorem separated_stepping : Separated stepping 64 alternating :=
  separated_of_period alternating_period _ _ (by decide) (by decide +kernel)

/-- From any reachable state, updating one PC along a pattern of strides of
period `q` makes every later prediction of it right, and a constant stride needs
no condition on the hash. -/
theorem patterns_converge (p : Params) (hd : p.depth ≤ 2 ^ 31)
    (hthr : 1 ≤ p.confThreshold.toNat) (hle : p.confThreshold.toNat ≤ p.maxConf.toNat)
    (hmax : p.maxConf.toNat ≤ 255) (calls : List Call) (pc : Addr) (value : Nat → Word)
    (arg : Nat → Bool × Word) (δ : Nat → Word) (hδ : ∀ k, value (k + 1) - value k = δ k)
    (q : Nat) (hq : 0 < q) (hper : ∀ k, δ (k + q) = δ k) :
    (Separated p pc δ →
      ∀ n, p.depth + q * (p.maxConf.toNat + p.confThreshold.toNat + 1) ≤ n →
        (predict p (run p (calls ++ drive pc value arg n ++
          [.update pc (value n) (arg n).1 (arg n).2])) pc).2 = some (value (n + 1))) ∧
    (q = 1 → Separated p pc δ) := by
  constructor
  · intro hsep n hn
    have hrounds := rounds_of_pattern p hd (by omega) hmax calls pc hδ hper hsep
    have hexpand : q * (p.maxConf.toNat + p.confThreshold.toNat + 1) =
        q * (p.maxConf.toNat + p.confThreshold.toNat) + q := Nat.mul_succ _ _
    obtain ⟨hconf, hstride⟩ := hrounds.learned hmax hthr hle hq (i := n - p.depth) (by omega)
    have hnd : n - p.depth + p.depth = n := by omega
    rw [hnd] at hconf hstride
    obtain ⟨e, he, ht, hv, hs, hlast⟩ :=
      learnedAfter_entry (run_follows p calls pc) value (n := n) (by omega)
    have hidx : e.index p pc = index p pc (phase p δ (n - p.depth)) :=
      index_phase hδ (by rw [hnd]; exact ht) (no_wrap hd ht.writePtr_lt)
    rw [predict_drive]
    simp only [answer, he, hv, hs, hidx, hconf, hstride, hlast, Bool.and_self, if_true]
    rw [← hδ n, BitVec.add_comm, BitVec.sub_add_cancel]
  · intro hone
    subst hone
    exact separated_of_constant p pc hper

/-- A stride of `2 ^ 28` and none in turn, at depth two, after an unrelated update. -/
theorem patterns_converge_stairs :
    (predict stepping (run stepping ([.update 64 7 false 0] ++
        drive 64 stairs (fun _ => (false, 0)) 36 ++ [.update 64 (stairs 36) false 0])) 64).2 =
      some (stairs 37) := by
  obtain ⟨hconverge, -⟩ := patterns_converge stepping (by decide) (by decide) (by decide)
    (by decide) [.update 64 7 false 0] 64 stairs (fun _ => (false, 0)) alternating stairs_succ 2
    (by decide) alternating_period
  exact hconverge separated_stepping 36 (by decide)

theorem alternating_congr {j k : Nat} (h : j % 2 = k % 2) : alternating j = alternating k := by
  simp only [alternating, h]

theorem strideHash_deep {s : Nat → Word} (hs : ∀ k, k + 64 < 2 ^ 31 → s (k + 64) = s k) :
    strideHash deep.depth 0 s = (s (2 ^ 31) * 2654435761#64).rotateLeft 5 := by
  have hzero : xorSum (contribution (2 ^ 31 + 1) s) (2 ^ 31) = 0#64 := by
    have hcancel := xorSum_cancel (f := contribution (2 ^ 31 + 1) s) 64 (2 ^ 24) fun k hk => by
      have hround : 5 * (2 ^ 31 + 1 - (k + 64)) % 64 = 5 * (2 ^ 31 + 1 - k) % 64 := by omega
      rw [contribution, contribution, hround, hs k (by omega)]
    exact hcancel
  have hpc : ((0 : Addr) ^^^ ((0 : Addr) >>> 32)).rotateLeft (5 * deep.depth % 64) = 0#64 := by
    decide
  rw [strideHash_eq, hpc, zero_xor, deep_depth, xorSum_succ, hzero, zero_xor]
  rfl

private theorem index_deep (history : List Word) (x : Word)
    (h : strideHash deep.depth 0 (fun i => history.getD i 0) =
      (x * 2654435761#64).rotateLeft 5) :
    index deep 0 history =
      (((x * 2654435761#64).rotateLeft 5).truncate 32 &&& (deep.tableSize - 1)).toNat := by
  rw [index, h]

theorem index_phase_deep (i : Nat) :
    index deep 0 (phase deep alternating i) = if i % 2 = 0 then 1 else 0 := by
  have hhash : strideHash deep.depth 0 (fun k => (phase deep alternating i).getD k 0) =
      (alternating i * 2654435761#64).rotateLeft 5 := by
    rw [strideHash_deep]
    · have hlast : i + (2 ^ 31 + 1) - 1 - 2 ^ 31 = i := by omega
      rw [getD_phase deep alternating i (by rw [deep_depth]; omega), deep_depth, hlast]
    · intro k hk
      rw [getD_phase deep alternating i (by rw [deep_depth]; omega),
        getD_phase deep alternating i (by rw [deep_depth]; omega), deep_depth]
      apply alternating_congr
      omega
  rw [index_deep _ _ hhash, alternating]
  split <;> decide

private theorem separated_deep : Separated deep 0 alternating := by
  intro i j h
  rw [index_phase_deep, index_phase_deep] at h
  apply alternating_congr
  split at h <;> split at h <;> omega

private theorem strideHash_missed {s : Nat → Word} (h0 : s 0 = 0)
    (hs : ∀ k, 0 < k → k < 2 ^ 31 + 1 → s k = alternating (2 ^ 32 - k)) :
    strideHash deep.depth 0 s = 0#64 := by
  have hreplace : strideHash deep.depth 0 s =
      strideHash deep.depth 0 (fun k => alternating (2 ^ 32 - k)) ^^^
        (contribution deep.depth (fun k => alternating (2 ^ 32 - k)) 0 ^^^
          contribution deep.depth s 0) :=
    strideHash_replace 0 (by decide) fun j hj hne => hs j (Nat.pos_of_ne_zero hne) hj
  have hpattern : strideHash deep.depth 0 (fun k => alternating (2 ^ 32 - k)) =
      (alternating (2 ^ 32 - 2 ^ 31) * 2654435761#64).rotateLeft 5 :=
    strideHash_deep fun k hk => alternating_congr (by omega)
  rw [hreplace, hpattern, contribution, contribution, h0]
  decide

private theorem train_ceiling_one {m : MarkovEntry} (h : Confidence.InRange 1 m) (a : Word) :
    m.train 1 a = ⟨a, 1, true⟩ := by
  unfold MarkovEntry.train
  by_cases hv : m.valid = true
  · have hrange := h hv
    have hconf : m.confidence = 1 := eq_of_toNat_eq (by
      change m.confidence.toNat = 1
      have hone : (1 : Unsigned).toNat = 1 := rfl
      omega)
    rw [if_neg (by simp [hv])]
    by_cases ha : a = m.predictedStride
    · rw [if_pos ha, hconf, if_neg (by decide), ha, ← hconf, ← hv]
    · rw [if_neg ha, hconf]
      simp [hv]
  · rw [if_pos (by simpa using hv)]

theorem stairs_follows (n : Nat) (hn : 0 < n) :
    ∃ e, (learnedAfter deep (of (run deep [])) 0 stairs (n + 1)).vht 0 = some e ∧
      Tracks deep (valuesAfter [] stairs (n + 1)) e ∧ e.valid = true ∧ e.strideValid = true ∧
      e.lastVal = stairs n ∧ e.writePtr = n % (2 ^ 31 + 1) := by
  obtain ⟨e, he, ht, hv, hs, hlast⟩ :=
    learnedAfter_entry (run_follows deep [] 0) stairs hn
  refine ⟨e, he, ht, hv, hs, hlast, ?_⟩
  rw [ht.writePtr, length_differences, deep_depth]
  simp [PlainHistory.valuesOf]

theorem table_before_turn :
    (learnedAfter deep (of (run deep [])) 0 stairs (2 ^ 32 + 1 + 1)).markovTable.getD 0 {} =
      ⟨alternating (2 ^ 32), 1, true⟩ := by
  obtain ⟨e, he, ht, hv, hs, hlast, hw⟩ := stairs_follows (2 ^ 32) (by decide)
  have hidx : e.index deep 0 = 0 := by
    rw [index_phase stairs_succ (i := 2 ^ 31 - 1) ht (by rw [hw]; decide), index_phase_deep]
    decide
  rw [learnedAfter, learn_next deep he hv, if_pos hs, hlast, hidx]
  have hof := of_drive deep [] 0 stairs (fun _ => (false, 0)) (2 ^ 32 + 1)
  have hlen : 0 < (learnedAfter deep (of (run deep [])) 0 stairs (2 ^ 32 + 1)).markovTable.length := by
    rw [← hof, of_markovTable, run_length]
    decide
  have hrange : Confidence.InRange 1 ((learnedAfter deep (of (run deep [])) 0 stairs
      (2 ^ 32 + 1)).markovTable.getD 0 {}) := by
    rw [← hof, of_markovTable]
    exact Confidence.getD_inRange _ (Confidence.run_inRange deep (by decide) (by decide) _) 0
  rw [getD_eq_getElem _ _ (by simpa using hlen), getElem_set_self]
  exact train_ceiling_one hrange _

private theorem index_at_turn {e : Training.Entry}
    (ht : Tracks deep (valuesAfter [] stairs (2 ^ 32 + 1 + 1)) e) (hw : e.writePtr = 2 ^ 31) : e.index deep 0 = 0 := by
  have hread : ∀ k, k < 2 ^ 31 + 1 →
      e.strides.getD (Lib.RingHistory.slot (2 ^ 31 + 1) (2 ^ 31) k) 0 = alternating (2 ^ 32 - k) := by
    intro k hk
    have hslot := (ht.getD_slot hk).trans (getD_differences [] stairs_succ _ _ (by omega))
    rw [hw, deep_depth] at hslot
    exact hslot
  have hhash : strideHash deep.depth 0 (visited deep.depth e.writePtr e.strides) = 0#64 := by
    apply strideHash_missed
    · rw [visited, hw, deep_depth, contextSlot_deep (by decide)]
      exact hread (2 ^ 31 - 1) (by decide)
    · intro k hpos hk
      rw [visited, hw, deep_depth, contextSlot_deep hk, if_neg (by omega), hread k hk]
  rw [Training.Entry.index, contextHash_eq_strideHash, hhash]
  decide

private theorem mispredicts_at_turn {n : Nat} (hn : n = 2 ^ 32 + 1) (arg : Nat → Bool × Word) :
    (predict deep (run deep ([] ++ drive 0 stairs arg n ++
      [.update 0 (stairs n) (arg n).1 (arg n).2])) 0).2 ≠ some (stairs (n + 1)) := by
  obtain ⟨e, he, ht, hv, hs, hlast, hw⟩ := stairs_follows n (by omega)
  have htable := table_before_turn
  rw [← hn] at htable
  have hidx : e.index deep 0 = 0 := index_at_turn (hn ▸ ht) (by omega)
  have hconf : confident deep.confThreshold ⟨alternating (2 ^ 32), 1, true⟩ = true := by decide
  rw [predict_drive]
  simp only [answer, he, hv, hs, hidx, htable, hconf, hlast, Bool.and_self, if_true]
  rw [Ne, Option.some.injEq]
  intro heq
  have hzero : alternating (2 ^ 32) = alternating n := by
    rw [← stairs_succ n, ← heq, add_comm, add_sub_cancel]
  rw [hn] at hzero
  revert hzero
  decide

/-- At a depth above `2 ^ 31` a pattern of period two, separated by the hash, is
mispredicted long after the bound. -/
theorem deep_mispredicts :
    (∀ k, stairs (k + 1) - stairs k = alternating k) ∧
      (∀ k, alternating (k + 2) = alternating k) ∧ Separated deep 0 alternating ∧
      ∀ arg : Nat → Bool × Word,
        ∃ n, deep.depth + 2 * (deep.maxConf.toNat + deep.confThreshold.toNat + 1) ≤ n ∧
          (predict deep (run deep ([] ++ drive 0 stairs arg n ++
            [.update 0 (stairs n) (arg n).1 (arg n).2])) 0).2 ≠ some (stairs (n + 1)) := by
  refine ⟨stairs_succ, alternating_period, separated_deep, ?_⟩
  intro arg
  exact ⟨2 ^ 32 + 1, by decide, mispredicts_at_turn rfl arg⟩

end Gem5Core.ValuePred.Convergence
