import Gem5Core.Lib.Protocol
import Gem5Core.Pred.LoopPredictor
import Gem5Core.Pred.TageInvariant

/-! Convergence of the loop predictor on a loop with a fixed trip count. What an execution does to
the entry it hits is a function of three numbers; whole rounds of the loop are computed on these. -/
namespace Gem5Core.Pred.LoopConvergence
open Branch TageTables LoopPredictor
open Lib.Protocol (run run_always)

section

/-- The three numbers of an entry that decide its predictions. -/
structure Count where
  cur : Nat
  num : Nat
  conf : Nat
deriving DecidableEq

def Count.goesOn (x : Count) : Bool := decide (x.cur + 1 ≠ x.num)

def Count.advance (b : Nat) (x : Count) : Count :=
  let cur := (x.cur + 1) % 2 ^ b
  if x.num < cur then ⟨cur, 0, 0⟩ else ⟨cur, x.num, x.conf⟩

def Count.leave (T : Nat) (x : Count) : Count :=
  if x.cur = x.num then
    if x.num < 3 then ⟨0, 0, 0⟩ else ⟨0, x.num, if x.conf < T then x.conf + 1 else x.conf⟩
  else if x.num = 0 then ⟨0, x.cur, 0⟩
  else ⟨0, 0, 0⟩

def Count.execute (b T : Nat) (x : Count) (taken : Bool) : Count :=
  if x.conf = T ∧ taken ≠ x.goesOn then ⟨0, 0, 0⟩
  else if taken then x.advance b else (x.advance b).leave T

variable {b T N : Nat}

theorem execute_taken_doubtful {c n f : Nat} (h : f ≠ T) :
    (Count.mk c n f).execute b T true = (Count.mk c n f).advance b := by
  simp [Count.execute, h]

theorem execute_left_doubtful {c n f : Nat} (h : f ≠ T) :
    (Count.mk c n f).execute b T false = ((Count.mk c n f).advance b).leave T := by
  simp [Count.execute, h]

theorem execute_trusted_right {c n : Nat} {taken : Bool} (h : taken = decide (c + 1 ≠ n)) :
    (Count.mk c n T).execute b T taken =
      if taken then (Count.mk c n T).advance b else ((Count.mk c n T).advance b).leave T := by
  rw [Count.execute, if_neg]
  exact fun hne => hne.2 h

theorem execute_trusted_wrong {c n : Nat} {taken : Bool} (h : taken ≠ decide (c + 1 ≠ n)) :
    (Count.mk c n T).execute b T taken = ⟨0, 0, 0⟩ := by
  rw [Count.execute, if_pos ⟨rfl, h⟩]

def Count.body (b T : Nat) (x : Count) (j : Nat) : Count :=
  (fun x => x.execute b T true)^[j] x

theorem body_succ (x : Count) (j : Nat) :
    x.body b T (j + 1) = (x.body b T j).execute b T true :=
  Function.iterate_succ_apply' _ _ _

def Count.round (b T N : Nat) (x : Count) : Count := (x.body b T (N - 1)).execute b T false

theorem advance_of_le {c n f : Nat} (hb : c + 1 < 2 ^ b) (hle : c + 1 ≤ n) :
    (Count.mk c n f).advance b = ⟨c + 1, n, f⟩ := by
  simp [Count.advance, Nat.mod_eq_of_lt hb, hle.not_gt]

theorem advance_of_lt {c n f : Nat} (hb : c + 1 < 2 ^ b) (hlt : n < c + 1) :
    (Count.mk c n f).advance b = ⟨c + 1, 0, 0⟩ := by
  simp [Count.advance, Nat.mod_eq_of_lt hb, hlt]

section

variable (hT : 1 ≤ T)
include hT

theorem execute_taken_unknown {c : Nat} (hb : c + 1 < 2 ^ b) :
    (Count.mk c 0 0).execute b T true = ⟨c + 1, 0, 0⟩ := by
  rw [execute_taken_doubtful (by omega), advance_of_lt hb (Nat.succ_pos c)]

theorem execute_left_unknown {c : Nat} (hb : c + 1 < 2 ^ b) :
    (Count.mk c 0 0).execute b T false = ⟨0, c + 1, 0⟩ := by
  rw [execute_left_doubtful (by omega), advance_of_lt hb (Nat.succ_pos c)]
  simp [Count.leave]

private theorem body_doubtful {n f : Nat} (hf : f < T) {j : Nat} (hb : j < 2 ^ b) :
    (Count.mk 0 n f).body b T j = if j ≤ n then ⟨j, n, f⟩ else ⟨j, 0, 0⟩ := by
  induction j with
  | zero => rfl
  | succ j ih =>
    rw [body_succ, ih (by omega)]
    by_cases hj : j ≤ n
    · rw [if_pos hj, execute_taken_doubtful (by omega)]
      by_cases hj' : j + 1 ≤ n
      · rw [if_pos hj', advance_of_le hb hj']
      · rw [if_neg hj', advance_of_lt hb (by omega)]
    · rw [if_neg hj, if_neg (by omega), execute_taken_unknown hT hb]

theorem body_trusted {n : Nat} (hn : 1 ≤ n) {j : Nat} (hb : j < 2 ^ b) :
    (Count.mk 0 n T).body b T j = if j < n then ⟨j, n, T⟩ else ⟨j - n, 0, 0⟩ := by
  induction j with
  | zero =>
    have hpos : 0 < n := hn
    rw [if_pos hpos]
    rfl
  | succ j ih =>
    rw [body_succ, ih (by omega)]
    by_cases hj : j < n
    · rw [if_pos hj]
      by_cases hj' : j + 1 < n
      · rw [if_pos hj', execute_trusted_right (by simpa using hj'.ne), if_pos rfl,
          advance_of_le hb hj'.le]
      · have hend : j + 1 = n := by omega
        rw [if_neg hj', execute_trusted_wrong (by simp [hend]), hend, Nat.sub_self]
    · have hnext : j + 1 - n = j - n + 1 := by omega
      rw [if_neg hj, if_neg (by omega), execute_taken_unknown hT (by omega), hnext]

private theorem body_numberless {j : Nat} (hb : j + 1 < 2 ^ b) :
    (Count.mk 0 0 T).body b T (j + 1) = ⟨j + 1, 0, 0⟩ := by
  induction j with
  | zero =>
    change (Count.mk 0 0 T).execute b T true = ⟨0 + 1, 0, 0⟩
    rw [execute_trusted_right (show true = decide (0 + 1 ≠ 0) by decide), if_pos rfl,
      advance_of_lt hb (Nat.succ_pos 0)]
  | succ j ih => rw [body_succ, ih (by omega), execute_taken_unknown hT hb]

end

section

variable (hT : 1 ≤ T) (hN : 3 ≤ N) (hb : N < 2 ^ b)
include hT hN hb

/-- A round from a fresh start without trust: a smaller number is replaced by the
right one, the right one gains trust, a larger one is forgotten. -/
theorem round_doubtful {n f : Nat} (hf : f < T) :
    (Count.mk 0 n f).round b T N =
      if n < N then ⟨0, N, 0⟩ else if n = N then ⟨0, N, f + 1⟩ else ⟨0, 0, 0⟩ := by
  have hlast : N - 1 + 1 = N := by omega
  unfold Count.round
  rw [body_doubtful hT hf (by omega)]
  by_cases hle : N - 1 ≤ n
  · rw [if_pos hle, execute_left_doubtful (by omega)]
    by_cases hlt : n < N
    · have hne : N ≠ 0 := by omega
      rw [if_pos hlt, advance_of_lt (by omega) (by omega), hlast]
      simp [Count.leave, hne]
    · rw [if_neg hlt, advance_of_le (by omega) (by omega), hlast]
      by_cases heq : n = N
      · subst heq
        simp [Count.leave, hN.not_gt, hf]
      · have hne : N ≠ n := Ne.symm heq
        have hzero : n ≠ 0 := by omega
        simp [Count.leave, heq, hne, hzero]
  · rw [if_neg hle, if_pos (by omega), execute_left_unknown hT (by omega), hlast]

private theorem round_converged : (Count.mk 0 N T).round b T N = ⟨0, N, T⟩ := by
  have hlast : N - 1 + 1 = N := by omega
  unfold Count.round
  rw [body_trusted hT (by omega) (by omega), if_pos (by omega),
    execute_trusted_right (by simp [hlast]), advance_of_le (by omega) (by omega),
    hlast]
  simp [Count.leave, hN.not_gt]

private theorem round_trusted_wrong {n : Nat} (hne : n ≠ N) :
    ∃ n' ≤ N, (Count.mk 0 n T).round b T N = ⟨0, n', 0⟩ := by
  unfold Count.round
  rcases Nat.eq_zero_or_pos n with rfl | hn
  · have hlen : N - 1 = N - 2 + 1 := by omega
    rw [hlen, body_numberless hT (by omega), execute_left_unknown hT (by omega)]
    exact ⟨_, by omega, rfl⟩
  · rw [body_trusted hT hn (by omega)]
    by_cases hlt : N - 1 < n
    · have hgoes : N - 1 + 1 ≠ n := by omega
      rw [if_pos hlt, execute_trusted_wrong (by simp [hgoes])]
      exact ⟨0, Nat.zero_le N, rfl⟩
    · rw [if_neg hlt, execute_left_unknown hT (by omega)]
      exact ⟨_, by omega, rfl⟩

theorem round_right {f : Nat} (hf : f ≤ T) :
    ∃ f' ≤ T, min T (f + 1) ≤ f' ∧ (Count.mk 0 N f).round b T N = ⟨0, N, f'⟩ := by
  rcases Nat.lt_or_eq_of_le hf with hlt | rfl
  · refine ⟨f + 1, hlt, Nat.min_le_right _ _, ?_⟩
    rw [round_doubtful hT hN hb hlt, if_neg (lt_irrefl N), if_pos rfl]
  · exact ⟨f, le_rfl, Nat.min_le_left _ _, round_converged hT hN hb⟩

omit hT hN hb in
theorem round_fresh {x : Count} (hconf : x.conf ≤ T) :
    (x.round b T N).cur = 0 ∧ (x.round b T N).conf ≤ T := by
  have hadvance : ∀ y : Count, y.conf ≤ T → (y.advance b).conf ≤ T := by
    intro y hy
    unfold Count.advance
    dsimp only
    split
    · exact Nat.zero_le T
    · exact hy
  have hbody : ∀ j, (x.body b T j).conf ≤ T := by
    intro j
    induction j with
    | zero => exact hconf
    | succ j ih =>
      rw [body_succ, Count.execute]
      split
      · exact Nat.zero_le T
      · exact hadvance _ ih
  unfold Count.round Count.execute
  split
  · exact ⟨rfl, Nat.zero_le T⟩
  · have hlast := hadvance _ (hbody (N - 1))
    unfold Count.leave
    rw [if_neg (by simp)]
    split
    · split
      · exact ⟨rfl, Nat.zero_le T⟩
      · refine ⟨rfl, ?_⟩
        dsimp only
        split <;> omega
    · split
      · exact ⟨rfl, Nat.zero_le T⟩
      · exact ⟨rfl, Nat.zero_le T⟩

theorem round_cases {n f : Nat} (hf : f ≤ T) :
    (∃ f' ≤ T, (Count.mk 0 n f).round b T N = ⟨0, N, f'⟩) ∨
      ∃ n' < N, (Count.mk 0 n f).round b T N = ⟨0, n', 0⟩ := by
  by_cases heq : n = N
  · subst heq
    obtain ⟨f', hf', _, hround⟩ := round_right hT hN hb hf
    exact .inl ⟨f', hf', hround⟩
  · rcases Nat.lt_or_eq_of_le hf with hlt | rfl
    · have hround := round_doubtful hT hN hb (n := n) hlt
      split at hround
      · exact .inl ⟨0, Nat.zero_le T, hround⟩
      · exact .inr ⟨0, by omega, hround⟩
    · obtain ⟨n', hn', hround⟩ := round_trusted_wrong hT hN hb heq
      rcases Nat.lt_or_eq_of_le hn' with hlt | rfl
      · exact .inr ⟨n', hlt, hround⟩
      · exact .inl ⟨0, Nat.zero_le f, hround⟩

private theorem three_rounds {x : Count} (hconf : x.conf ≤ T) :
    ∃ f ≤ T, (Count.round b T N)^[3] x = ⟨0, N, f⟩ := by
  obtain ⟨hcur, hconf'⟩ := round_fresh (b := b) (N := N) hconf
  have hone : x.round b T N = ⟨0, (x.round b T N).num, (x.round b T N).conf⟩ := by
    rw [← hcur]
  have hthree : (Count.round b T N)^[3] x = ((x.round b T N).round b T N).round b T N := rfl
  rw [hthree, hone]
  rcases round_cases hT hN hb hconf' with ⟨f, hf, htwo⟩ | ⟨n, hn, htwo⟩
  · obtain ⟨f', hf', _, hround⟩ := round_right hT hN hb hf
    exact ⟨f', hf', by rw [htwo, hround]⟩
  · exact ⟨0, Nat.zero_le T, by rw [htwo, round_doubtful hT hN hb (by omega), if_pos hn]⟩

private theorem rounds_converge {x : Count} (hconf : x.conf ≤ T) (r : Nat) :
    (Count.round b T N)^[r + (T + 3)] x = ⟨0, N, T⟩ := by
  have hclimb : ∀ k, ∃ f ≤ T, min T k ≤ f ∧ (Count.round b T N)^[k + 3] x = ⟨0, N, f⟩ := by
    intro k
    induction k with
    | zero =>
      obtain ⟨f, hf, hthree⟩ := three_rounds hT hN hb hconf
      refine ⟨f, hf, by omega, ?_⟩
      rw [hthree]
    | succ k ih =>
      obtain ⟨f, hf, hmin, hround⟩ := ih
      obtain ⟨f', hf', hmore, hnext⟩ := round_right hT hN hb hf
      refine ⟨f', hf', by omega, ?_⟩
      rw [Function.iterate_succ_apply', hround, hnext]
  obtain ⟨f, hf, hmin, hround⟩ := hclimb (r + T)
  have hfull : f = T := by omega
  rw [← Nat.add_assoc, hround, hfull]

end

def outcome (N k : Nat) : Bool := decide (k % N ≠ N - 1)

def Count.after (b T N : Nat) (x : Count) : Nat → Count
  | 0 => x
  | k + 1 => (x.after b T N k).execute b T (outcome N k)

private theorem outcome_body {r j : Nat} (hj : j + 1 < N) : outcome N (N * r + j) = true := by
  rw [outcome, Nat.mul_add_mod, Nat.mod_eq_of_lt (by omega)]
  simp only [ne_eq, decide_eq_true_eq]
  omega

private theorem outcome_end (hN : 0 < N) (r : Nat) : outcome N (N * r + (N - 1)) = false := by
  rw [outcome, Nat.mul_add_mod, Nat.mod_eq_of_lt (by omega)]
  simp

theorem after_body (x : Count) (r j : Nat) (hj : j < N) :
    x.after b T N (N * r + j) = (x.after b T N (N * r)).body b T j := by
  induction j with
  | zero => rfl
  | succ j ih =>
    rw [← Nat.add_assoc, Count.after, ih (by omega), outcome_body hj, body_succ]

private theorem after_rounds (hN : 0 < N) (x : Count) (r : Nat) :
    x.after b T N (N * r) = (Count.round b T N)^[r] x := by
  induction r with
  | zero => rfl
  | succ r ih =>
    have hlast : N * (r + 1) = N * r + (N - 1) + 1 := by
      rw [Nat.mul_succ]
      omega
    rw [hlast, Count.after, after_body x r (N - 1) (by omega), ih, outcome_end hN,
      Function.iterate_succ_apply', Count.round]

theorem after_converged (hT : 1 ≤ T) (hN : 3 ≤ N) (hb : N < 2 ^ b) {x : Count} (hconf : x.conf ≤ T)
    (r : Nat) {j : Nat} (hj : j < N) :
    x.after b T N (N * (r + (T + 3)) + j) = ⟨j, N, T⟩ := by
  rw [after_body x _ _ hj, after_rounds (by omega), rounds_converge hT hN hb hconf,
    body_trusted hT (by omega) (by omega), if_pos hj]

theorem after_predicts (hT : 1 ≤ T) (hN : 3 ≤ N) (hb : N < 2 ^ b) {x : Count} (hconf : x.conf ≤ T)
    {k : Nat} (hk : N * (T + 4) ≤ k) :
    (x.after b T N k).conf = T ∧ (x.after b T N k).goesOn = outcome N k := by
  have hj : k % N < N := Nat.mod_lt _ (by omega)
  have hr : T + 4 ≤ k / N := (Nat.le_div_iff_mul_le (by omega)).mpr (by rw [Nat.mul_comm]; exact hk)
  obtain ⟨r, hround⟩ := Nat.exists_eq_add_of_le' (show T + 3 ≤ k / N by omega)
  have hstate := after_converged hT hN hb hconf r hj
  rw [← hround, Nat.div_add_mod] at hstate
  rw [hstate]
  refine ⟨rfl, ?_⟩
  rw [Count.goesOn, outcome, decide_eq_decide]
  dsimp only
  omega

end

section

/-- The variant without speculation, direction bit and hashing, with the widths that
`init` and `unsignedCtrUpdate` assert. -/
structure Basic (lp : Params) : Prop where
  speculation : lp.useSpeculation = false
  direction : lp.useDirectionBit = false
  hashing : lp.useHashing = false
  iterBits : lp.loopTableIterBits ≤ 16
  ageBits : lp.loopTableAgeBits ≤ 8
  confidenceBits : lp.loopTableConfidenceBits ≤ 8

def view (entry : LoopEntry) : Count :=
  ⟨entry.currentIter.toNat, entry.numIter.toNat, entry.confidence⟩

variable {lp : Params} (hlp : Basic lp)
include hlp

theorem bodyDir_eq (entry : LoopEntry) : bodyDir lp entry = true := by
  rw [bodyDir, hlp.direction]
  rfl

private theorem increment_toNat (c : BitVec 16) :
    ((c + 1) &&& loopNumIterMask lp).toNat = (c.toNat + 1) % 2 ^ lp.loopTableIterBits := by
  have hdvd : 2 ^ lp.loopTableIterBits ∣ 2 ^ 16 := Nat.pow_dvd_pow 2 hlp.iterBits
  have hmask : 2 ^ lp.loopTableIterBits - 1 < 2 ^ 16 := by
    have hle := Nat.pow_le_pow_right Nat.two_pos hlp.iterBits
    omega
  rw [BitVec.toNat_and, loopNumIterMask, BitVec.toNat_ofNat, Nat.mod_eq_of_lt hmask,
    Nat.and_two_pow_sub_one_eq_mod]
  exact Nat.mod_mod_of_dvd _ hdvd

private theorem view_countIter (entry : LoopEntry) :
    view (countIter lp entry) = (view entry).advance lp.loopTableIterBits := by
  have hcur := increment_toNat hlp entry.currentIter
  rw [Count.advance, ← show _ = ((view entry).cur + 1) % 2 ^ lp.loopTableIterBits from hcur,
    countIter]
  by_cases hlonger : (entry.currentIter + 1) &&& loopNumIterMask lp > entry.numIter
  · rw [if_pos hlonger, if_pos (show (view entry).num < _ from hlonger)]
    by_cases hnum : entry.numIter = 0
    · rw [hnum]
      rfl
    · rw [if_pos hnum]
      rfl
  · rw [if_neg hlonger, if_neg (show ¬(view entry).num < _ from hlonger)]
    rfl

omit hlp in
private theorem view_endLoop (taken : Bool) (entry : LoopEntry) :
    view (endLoop lp taken entry) = (view entry).leave (confidenceThreshold lp) := by
  have hequal : (view entry).cur = (view entry).num ↔ entry.currentIter = entry.numIter :=
    BitVec.toNat_inj
  have hzero : (view entry).num = 0 ↔ entry.numIter = 0 := BitVec.toNat_inj (y := 0#16)
  rw [Count.leave, endLoop]
  by_cases hend : entry.currentIter = entry.numIter
  · rw [if_pos hend, if_pos (hequal.mpr hend)]
    by_cases hsmall : entry.numIter < 3
    · rw [if_pos hsmall, if_pos (show (view entry).num < 3 from hsmall)]
      rfl
    · rw [if_neg hsmall, if_neg (show ¬(view entry).num < 3 from hsmall)]
      rfl
  · rw [if_neg hend, if_neg (mt hequal.mp hend)]
    by_cases hnum : entry.numIter = 0
    · rw [if_pos hnum, if_pos (hzero.mpr hnum)]
      rfl
    · rw [if_neg hnum, if_neg (mt hzero.mp hnum)]
      rfl

theorem view_trainHit (taken tage_pred : Bool) (bi : BranchInfo) (entry : LoopEntry)
    (hvalid : bi.loopPredValid = calcConf lp entry) (hpred : bi.loopPred = (view entry).goesOn) :
    view (trainHit lp taken bi tage_pred entry) =
      (view entry).execute lp.loopTableIterBits (confidenceThreshold lp) taken := by
  have hconf : calcConf lp entry = true ↔ (view entry).conf = confidenceThreshold lp := by
    simp [calcConf, view]
  have hfail : (bi.loopPredValid && (taken != bi.loopPred)) = true ↔
      (view entry).conf = confidenceThreshold lp ∧ taken ≠ (view entry).goesOn := by
    rw [hvalid, hpred, Bool.and_eq_true, hconf, bne_iff_ne]
  unfold trainHit Count.execute
  simp only [hfail, bodyDir_eq hlp]
  split
  · rfl
  · -- the age is no part of the view
    generalize haged : (if bi.loopPredValid && (bi.loopPred != tage_pred) then
      { entry with age := unsignedCtrUpdate entry.age true lp.loopTableAgeBits } else entry) = aged
    have hview : view aged = view entry := by
      rw [← haged]
      split <;> rfl
    cases taken with
    | true =>
      rw [if_neg (by simp), if_pos rfl, view_countIter hlp, hview]
    | false =>
      rw [if_pos (by simp), if_neg (by simp), view_endLoop, view_countIter hlp, hview]

omit hlp in
@[simp] theorem countIter_tag (entry : LoopEntry) : (countIter lp entry).tag = entry.tag := by
  unfold countIter
  dsimp only
  split
  · split <;> rfl
  · rfl

omit hlp in
@[simp] theorem endLoop_tag (taken : Bool) (entry : LoopEntry) :
    (endLoop lp taken entry).tag = entry.tag := by
  unfold endLoop
  dsimp only
  split
  · split <;> rfl
  · split <;> rfl

omit hlp in
@[simp] theorem trainHit_tag (taken tage_pred : Bool) (bi : BranchInfo) (entry : LoopEntry) :
    (trainHit lp taken bi tage_pred entry).tag = entry.tag := by
  unfold trainHit
  split
  · rfl
  · dsimp only
    split <;> split <;> simp

end

section

/-- The calls that change the table. -/
inductive Call where
  | loopPredict (branch_pc : Addr) (cond_branch : Bool) (bi : BranchInfo) (prev_pred_taken : Bool)
  | condBranchUpdate (branch_pc : Addr) (taken tage_pred : Bool) (bi : BranchInfo)
      (choice nrand : BitVec 32)
  | squash (bi : BranchInfo)
  | squashLoop (bi : BranchInfo)

def call (lp : Params) (instShiftAmt : Nat) (s : State) : Call → State
  | .loopPredict branch_pc cond_branch bi prev_pred_taken =>
      (loopPredict lp s branch_pc cond_branch bi prev_pred_taken instShiftAmt).2.1
  | .condBranchUpdate branch_pc taken tage_pred bi choice nrand =>
      condBranchUpdate lp s branch_pc taken tage_pred bi instShiftAmt choice nrand
  | .squash bi => squash lp s bi
  | .squashLoop bi => squashLoop lp s bi

def Bounded (lp : Params) (s : State) : Prop :=
  ∀ i, (s.ltable i).confidence ≤ confidenceThreshold lp

variable {lp : Params} {s : State}

private theorem countIter_confidence_le (entry : LoopEntry) :
    (countIter lp entry).confidence ≤ entry.confidence := by
  unfold countIter
  dsimp only
  split
  · split <;> exact Nat.zero_le _
  · exact Nat.le_refl _

private theorem endLoop_confidence_le {entry : LoopEntry} (taken : Bool)
    (h : entry.confidence ≤ confidenceThreshold lp) :
    (endLoop lp taken entry).confidence ≤ confidenceThreshold lp := by
  unfold endLoop
  dsimp only
  split
  · split
    · exact Nat.zero_le _
    · exact TageInvariant.unsignedCtrUpdate_le true h
  · split <;> exact Nat.zero_le _

theorem trainHit_confidence_le {entry : LoopEntry} (taken tage_pred : Bool) (bi : BranchInfo)
    (h : entry.confidence ≤ confidenceThreshold lp) :
    (trainHit lp taken bi tage_pred entry).confidence ≤ confidenceThreshold lp := by
  unfold trainHit
  split
  · exact Nat.zero_le _
  · generalize haged : (if bi.loopPredValid && (bi.loopPred != tage_pred) then
      { entry with age := unsignedCtrUpdate entry.age true lp.loopTableAgeBits } else entry) = aged
    have hcounted : (countIter lp aged).confidence ≤ confidenceThreshold lp := by
      refine (countIter_confidence_le aged).trans (le_of_eq_of_le ?_ h)
      rw [← haged]
      split <;> rfl
    dsimp only
    split
    · exact endLoop_confidence_le taken hcounted
    · exact hcounted

theorem Bounded.modify (h : Bounded lp s) (index : Nat) {f : LoopEntry → LoopEntry}
    (hf : ∀ entry, entry.confidence ≤ confidenceThreshold lp →
      (f entry).confidence ≤ confidenceThreshold lp) : Bounded lp (s.modify index f) := by
  intro i
  by_cases hi : i = index
  · rw [hi, modify_ltable_self]
    exact hf _ (h index)
  · rw [modify_ltable_other f hi]
    exact h i

theorem Bounded.allocate (taken : Bool) (bi : BranchInfo) (nrand : BitVec 32) (steps : List Nat)
    (h : Bounded lp s) : Bounded lp (allocate lp taken bi nrand steps s) := by
  induction steps generalizing s with
  | nil => exact h
  | cons i rest ih =>
    rw [LoopPredictor.allocate]
    dsimp only
    split
    · exact h.modify _ fun _ _ => Nat.zero_le _
    · split
      · exact h.modify _ fun _ hentry => hentry
      · exact ih (h.modify _ fun _ hentry => hentry)

theorem Bounded.specLoopUpdate (h : Bounded lp s) (taken : Bool) (bi : BranchInfo) :
    Bounded lp (specLoopUpdate lp s taken bi) := by
  unfold LoopPredictor.specLoopUpdate
  split
  · exact h.modify _ fun _ hentry => hentry
  · exact h

theorem Bounded.rewindSpec (h : Bounded lp s) (bi : BranchInfo) :
    Bounded lp (rewindSpec lp s bi) := by
  unfold LoopPredictor.rewindSpec
  split
  · exact h.modify _ fun _ hentry => hentry
  · exact h

theorem Bounded.call (h : Bounded lp s) (instShiftAmt : Nat) (c : Call) :
    Bounded lp (call lp instShiftAmt s c) := by
  cases c with
  | loopPredict branch_pc cond_branch bi prev_pred_taken =>
    unfold LoopConvergence.call LoopPredictor.loopPredict
    dsimp only
    split
    · exact h
    · cases lp.useSpeculation with
      | false => exact h
      | true => exact h.specLoopUpdate _ _
  | condBranchUpdate branch_pc taken tage_pred bi choice nrand =>
    have hused (bi : BranchInfo) : Bounded lp (countUse lp s taken bi) := by
      intro i
      rw [countUse_ltable]
      exact h i
    unfold LoopConvergence.call LoopPredictor.condBranchUpdate loopUpdate
    dsimp only
    split
    · exact (hused _).modify _ fun _ hentry => trainHit_confidence_le _ _ _ hentry
    · split
      · exact (hused _).allocate _ _ _ _
      · exact hused _
  | squash bi => exact h.rewindSpec bi
  | squashLoop bi => exact h.rewindSpec bi

/-- The confidence of an entry saturates at the threshold, so the entries of a run are in range. -/
theorem run_bounded (instShiftAmt : Nat) (calls : List Call) :
    Bounded lp (run (call lp instShiftAmt) {} calls) :=
  run_always (Bounded lp) (fun _ c h => h.call instShiftAmt c) calls fun _ => Nat.zero_le _

end

section
variable (lp : Params) (pc : Addr) (instShiftAmt : Nat)

def slot (way : Nat) : Nat := finallindex lp (lindex lp pc instShiftAmt) 0 way

def hitWay (s : State) : Option Nat :=
  (List.range (2 ^ lp.logLoopTableAssoc)).find? fun way =>
    (s.ltable (slot lp pc instShiftAmt way)).tag == tagOf lp pc instShiftAmt

/-- What one execution is given besides the outcome: the branch record, the direction
of the main predictor and the random numbers. -/
structure Inputs where
  bi : BranchInfo := {}
  tage_pred : Bool := false
  choice : BitVec 32 := 0
  nrand : BitVec 32 := 0

def execute (s : State) (taken : Bool) (e : Inputs) : State :=
  let (loopPred, bi) := getLoop lp s pc e.bi false instShiftAmt
  loopUpdate lp s taken { bi with loopPred } e.tage_pred e.choice e.nrand

def runLoop (N : Nat) (inputs : Nat → Inputs) (s : State) : Nat → State
  | 0 => s
  | k + 1 => execute lp pc instShiftAmt (runLoop N inputs s k) (outcome N k) (inputs k)

variable {lp pc instShiftAmt}

private theorem hitWay_modify (s : State) (index : Nat) {f : LoopEntry → LoopEntry}
    (htag : ∀ entry, (f entry).tag = entry.tag) :
    hitWay lp pc instShiftAmt (s.modify index f) = hitWay lp pc instShiftAmt s := by
  have hsame : ∀ i, ((s.modify index f).ltable i).tag = (s.ltable i).tag := by
    intro i
    by_cases hi : i = index
    · rw [hi, modify_ltable_self, htag]
    · rw [modify_ltable_other f hi]
  unfold hitWay
  simp only [hsame]

variable (hlp : Basic lp) {s : State} {way : Nat} (hhit : hitWay lp pc instShiftAmt s = some way)
include hlp

theorem entryAt_locate (s : State) (bi : BranchInfo) (way : Nat) :
    entryAt lp s (locate lp pc instShiftAmt bi) way = s.ltable (slot lp pc instShiftAmt way) := by
  simp [entryAt, locate, slot, finallindex, hlp.hashing]

theorem findWay_locate (s : State) (bi : BranchInfo) :
    findWay lp s (locate lp pc instShiftAmt bi) = hitWay lp pc instShiftAmt s := by
  unfold findWay hitWay
  simp only [entryAt_locate hlp]
  rfl

include hhit

theorem getLoop_hit (bi : BranchInfo) :
    getLoop lp s pc bi false instShiftAmt =
      ((view (s.ltable (slot lp pc instShiftAmt way))).goesOn,
        { locate lp pc instShiftAmt bi with
          loopHit := way
          loopPredValid := calcConf lp (s.ltable (slot lp pc instShiftAmt way)) }) := by
  rw [getLoop]
  simp only [findWay_locate hlp, hhit, entryAt_locate hlp, bodyDir_eq hlp, Bool.false_eq_true,
    if_false, Bool.not_true]
  rw [Count.goesOn]
  dsimp only [view]
  split <;> simp [*]

theorem execute_hit (taken : Bool) (e : Inputs) :
    hitWay lp pc instShiftAmt (execute lp pc instShiftAmt s taken e) = some way ∧
      view ((execute lp pc instShiftAmt s taken e).ltable (slot lp pc instShiftAmt way)) =
        (view (s.ltable (slot lp pc instShiftAmt way))).execute lp.loopTableIterBits
          (confidenceThreshold lp) taken := by
  rw [execute, getLoop_hit hlp hhit]
  dsimp only
  have hindex : hitIndex lp
      { locate lp pc instShiftAmt e.bi with
        loopHit := (way : Int)
        loopPredValid := calcConf lp (s.ltable (slot lp pc instShiftAmt way))
        loopPred := (view (s.ltable (slot lp pc instShiftAmt way))).goesOn } =
      slot lp pc instShiftAmt way := by
    simp [hitIndex, slot, locate, finallindex, hlp.hashing]
  rw [loopUpdate, if_pos (Int.natCast_nonneg way), hindex]
  refine ⟨?_, ?_⟩
  · rw [hitWay_modify s _ (trainHit_tag taken _ _), hhit]
  · rw [modify_ltable_self]
    exact view_trainHit hlp taken _ _ _ rfl rfl

private theorem runLoop_hit (N : Nat) (inputs : Nat → Inputs) (k : Nat) :
    hitWay lp pc instShiftAmt (runLoop lp pc instShiftAmt N inputs s k) = some way ∧
      view ((runLoop lp pc instShiftAmt N inputs s k).ltable (slot lp pc instShiftAmt way)) =
        (view (s.ltable (slot lp pc instShiftAmt way))).after lp.loopTableIterBits
          (confidenceThreshold lp) N k := by
  induction k with
  | zero => exact ⟨hhit, rfl⟩
  | succ k ih =>
    obtain ⟨hway, hview⟩ := execute_hit hlp ih.1 (outcome N k) (inputs k)
    refine ⟨hway, ?_⟩
    rw [runLoop, hview, ih.2]
    rfl

omit hhit in
/-- A branch that hits an entry, whatever the calls before have left there, executed again
and again taken `N - 1` times and then not taken: after `confidenceThreshold + 4` complete
loops every prediction is valid and right. -/
theorem loop_converges (hT : 1 ≤ confidenceThreshold lp) (before : List Call)
    (hs : s = run (call lp instShiftAmt) {} before) {bi₀ : BranchInfo}
    (hfound : findWay lp s (locate lp pc instShiftAmt bi₀) = some way)
    {N : Nat} (hN : 3 ≤ N) (hbits : N ≤ 2 ^ lp.loopTableIterBits - 1) (inputs : Nat → Inputs)
    {k : Nat} (hk : N * (confidenceThreshold lp + 4) ≤ k) (bi : BranchInfo) :
    let s' := runLoop lp pc instShiftAmt N inputs s k
    (getLoop lp s' pc bi false instShiftAmt).2.loopPredValid = true ∧
      (getLoop lp s' pc bi false instShiftAmt).1 = outcome N k := by
  intro s'
  rw [findWay_locate hlp] at hfound
  have hconf : (s.ltable (slot lp pc instShiftAmt way)).confidence ≤ confidenceThreshold lp := by
    rw [hs]
    exact run_bounded instShiftAmt before _
  obtain ⟨hhit, hview⟩ := runLoop_hit hlp hfound N inputs k
  obtain ⟨htrusted, hright⟩ :=
    after_predicts hT hN (show N < 2 ^ lp.loopTableIterBits by omega) (b := lp.loopTableIterBits)
      (x := view (s.ltable (slot lp pc instShiftAmt way))) hconf hk
  rw [getLoop_hit hlp hhit bi]
  refine ⟨?_, ?_⟩
  · rw [← hview] at htrusted
    exact beq_iff_eq.mpr htrusted
  · rw [← hview] at hright
    exact hright

end

/-- A loop of five, and two iterations of the next. -/
def learned : List Call :=
  [true, true, true, true, false, true, true].map fun taken =>
    .condBranchUpdate 0 taken taken {} 0 0

private theorem defaults_basic : Basic Params.defaults :=
  ⟨rfl, rfl, rfl, by decide, by decide, by decide⟩

/-- An entry that has learned another count, and stands in the middle of a loop of four. -/
theorem loop_converges_learned :
    let s := run (call Params.defaults 0) {} learned
    let s' := runLoop Params.defaults 0 0 4 (fun _ => {}) s 30
    view (s.ltable 0) = ⟨2, 5, 0⟩ ∧
    (getLoop Params.defaults s' 0 {} false 0).2.loopPredValid = true ∧
      (getLoop Params.defaults s' 0 {} false 0).1 = outcome 4 30 := by
  have hfound : findWay Params.defaults (run (call Params.defaults 0) {} learned)
      (locate Params.defaults 0 0 {}) = some 0 := by decide +kernel
  exact ⟨by decide +kernel, loop_converges defaults_basic (by decide) learned rfl hfound (by decide)
    (by decide) (fun _ => {}) (by decide) {}⟩

end Gem5Core.Pred.LoopConvergence
