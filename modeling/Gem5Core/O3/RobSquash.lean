import Mathlib.Algebra.Order.BigOperators.Group.Finset
import Gem5Core.Lib.Protocol
import Gem5Core.O3.Rob

/-! Squashing in the reorder buffer is spread over several calls, with an iterator that survives
between them. The run is compared with the one that does not squash: the two lists differ by the
marks on the instructions the iterator has passed. -/
namespace Gem5Core.O3.RobSquash
open Pred.Branch Rob Function List
open Lib.Protocol (run Legal run_inv)
open ThreadROB DynInst

def markAbove (sn : InstSeqNum) (inst : DynInst) : DynInst :=
  if sn < inst.seqNum then inst.squash else inst

variable (inst : DynInst)

@[simp] theorem squash_seqNum : inst.squash.seqNum = inst.seqNum := rfl

@[simp] theorem complete_seqNum : inst.complete.seqNum = inst.seqNum := by
  unfold complete
  split <;> rfl

private theorem squash_complete : inst.complete.squash = inst.squash := by
  unfold complete
  split <;> rfl

theorem complete_squash : inst.squash.complete = inst.squash := rfl

@[simp] theorem markAbove_seqNum (sn : InstSeqNum) (inst : DynInst) :
    (markAbove sn inst).seqNum = inst.seqNum := by
  unfold markAbove
  split <;> rfl

theorem map_markAbove {sn : InstSeqNum} {s u : List DynInst} (hs : ∀ inst ∈ s, inst.seqNum ≤ sn)
    (hu : ∀ inst ∈ u, sn < inst.seqNum) :
    (s ++ u).map (markAbove sn) = s ++ u.map DynInst.squash := by
  have hold : s.map (markAbove sn) = s := by
    refine (map_congr_left fun inst hmem => ?_).trans (map_id s)
    simp [markAbove, hs inst hmem]
  have hyoung : u.map (markAbove sn) = u.map DynInst.squash := by
    refine map_congr_left fun inst hmem => ?_
    simp [markAbove, hu inst hmem]
  rw [map_append, hold, hyoung]

def InOrder (l : List DynInst) : Prop := l.Pairwise fun a b => a.seqNum < b.seqNum

theorem InOrder.split {s u : List DynInst} {x : DynInst} (h : InOrder (s ++ x :: u)) :
    (∀ inst ∈ s, inst.seqNum < x.seqNum) ∧ ∀ inst ∈ u, x.seqNum < inst.seqNum := by
  obtain ⟨-, hxu, hcross⟩ := pairwise_append.mp h
  exact ⟨fun inst hs => hcross inst hs x (by simp), (pairwise_cons.mp hxu).1⟩

section

/-- The iterator of a squash in progress points to `x`, and the instructions behind it
are marked; the thread's list without the marks is `s ++ x :: u`. -/
structure At (sn : InstSeqNum) (s u : List DynInst) (x : DynInst) (t : ThreadROB) : Prop where
  instList : t.instList = s ++ x :: u.map squash
  squashIt : t.squashIt = some x.seqNum
  squashedSeqNum : t.squashedSeqNum = sn
  behind : ∀ inst ∈ u, sn < inst.seqNum

variable {sn : InstSeqNum} {s u : List DynInst} {x : DynInst} {t : ThreadROB}

theorem At.squashInst (h : At sn s u x t) (hl : InOrder (s ++ x :: u)) :
    t.squashInst = some x := by
  have hs : ∀ inst ∈ s, (inst.seqNum == x.seqNum) = false := fun inst hmem => by
    have := hl.split.1 inst hmem
    simp [Nat.ne_of_lt this]
  have hnone : s.find? (fun inst => inst.seqNum == x.seqNum) = none := by
    simpa using hs
  simp [ThreadROB.squashInst, h.squashIt, h.instList, List.find?_append, hnone]

theorem At.older (h : At sn s u x t) (hl : InOrder (s ++ x :: u)) : t.older x.seqNum = s := by
  have hs : ∀ inst ∈ s, (inst.seqNum != x.seqNum) = true := fun inst hmem => by
    have := hl.split.1 inst hmem
    simp [Nat.ne_of_lt this]
  rw [ThreadROB.older, h.instList, takeWhile_append_of_pos hs]
  simp

theorem At.squashOne (h : At sn s u x t) (hl : InOrder (s ++ x :: u)) :
    (t.squashOne x.seqNum).instList = s ++ (x :: u).map DynInst.squash := by
  have hs : s.map (fun inst => if inst.seqNum = x.seqNum then inst.squash else inst) = s := by
    apply map_congr_left .. |>.trans (map_id s)
    intro inst hmem
    simp [Nat.ne_of_lt (hl.split.1 inst hmem)]
  have hu : (u.map DynInst.squash).map
      (fun inst => if inst.seqNum = x.seqNum then inst.squash else inst) = u.map DynInst.squash := by
    rw [map_map]
    apply map_congr_left
    intro inst hmem
    simp [Nat.ne_of_gt (hl.split.2 inst hmem)]
  simp only [ThreadROB.squashOne, h.instList, map_append, map_cons, hs, hu]
  simp

def pending (sn : InstSeqNum) (l : List DynInst) : Nat := l.countP fun inst => sn < inst.seqNum

structure Kept (t t' : ThreadROB) : Prop where
  threadEntries : t'.threadEntries = t.threadEntries
  asserted : t'.asserted = t.asserted

structure Finished (sn : InstSeqNum) (plain : List DynInst) (t : ThreadROB) : Prop where
  doneSquashing : t.doneSquashing = true
  instList : t.instList = plain.map (markAbove sn)

theorem squashLoop_spec (n : Nat) :
    ∀ {s u : List DynInst} {x : DynInst} {t : ThreadROB}, At sn s u x t → InOrder (s ++ x :: u) →
      Kept t (squashLoop n t).1 ∧
      ((squashLoop n t).2 = true ∧
          Finished sn (s ++ x :: u) (squashLoop n t).1 ∨
        (squashLoop n t).2 = false ∧
          (squashLoop n t).1.doneSquashing = t.doneSquashing ∧
          ∃ s' x' u', s' ++ x' :: u' = s ++ x :: u ∧ At sn s' u' x' (squashLoop n t).1 ∧
            (x'.seqNum ≤ sn ∨ pending sn (s' ++ [x']) + n = pending sn (s ++ [x]))) := by
  induction n with
  | zero =>
    intro s u x t h hl
    exact ⟨⟨rfl, rfl⟩, .inr ⟨rfl, rfl, s, x, u, rfl, h, .inr rfl⟩⟩
  | succ n ih =>
    intro s u x t h hl
    simp only [squashLoop, h.squashInst hl, h.squashedSeqNum, h.older hl]
    by_cases hx : sn < x.seqNum
    · rw [if_pos hx]
      have hlist := h.squashOne hl
      have hbehind : ∀ inst ∈ x :: u, sn < inst.seqNum := by
        intro inst hmem
        obtain rfl | hmem := mem_cons.mp hmem
        · exact hx
        · exact h.behind inst hmem
      rcases eq_nil_or_concat s with rfl | ⟨s', before, rfl⟩
      · refine ⟨⟨rfl, rfl⟩, .inl ⟨rfl, rfl, ?_⟩⟩
        have hmark := map_markAbove (s := []) (by simp) hbehind
        simpa [finish] using hlist.trans hmark.symm
      · have hnext : At sn s' (x :: u) before
            { t.squashOne x.seqNum with squashIt := some before.seqNum } :=
          ⟨by simpa using hlist, rfl, h.squashedSeqNum, hbehind⟩
        have hl' : InOrder (s' ++ before :: x :: u) := by simpa using hl
        obtain ⟨hkept, hcases⟩ := ih hnext hl'
        simp only [concat_eq_append, List.getLast?_append, List.getLast?_singleton,
          Option.some_or, append_assoc, cons_append, nil_append] at hcases ⊢
        refine ⟨{ hkept with }, ?_⟩
        obtain hdone | ⟨hret, hflag, s'', x', u', heq, hat, hcount⟩ := hcases
        · exact .inl hdone
        · refine .inr ⟨hret, hflag, s'', x', u', heq, hat, hcount.imp_right fun hcount => ?_⟩
          have : pending sn (s' ++ [before, x]) = pending sn (s' ++ [before]) + 1 := by
            simp [pending, countP_append, countP_cons, hx]
            omega
          omega
    · rw [if_neg hx]
      exact ⟨⟨rfl, rfl⟩, .inr ⟨rfl, rfl, s, x, u, rfl, h, .inl (Nat.le_of_not_lt hx)⟩⟩

theorem At.finish (h : At sn s u x t) (hl : InOrder (s ++ x :: u)) (hx : x.seqNum ≤ sn) :
    Finished sn (s ++ x :: u) t.finish := by
  refine ⟨rfl, h.instList.trans ?_⟩
  have hs : ∀ inst ∈ s ++ [x], inst.seqNum ≤ sn := by
    intro inst hmem
    rw [mem_append, mem_singleton] at hmem
    obtain hmem | rfl := hmem
    · exact (hl.split.1 inst hmem).le.trans hx
    · exact hx
  simpa using (map_markAbove hs h.behind).symm

theorem doSquash_spec (n : Nat) (h : At sn s u x t) (hl : InOrder (s ++ x :: u)) :
    Kept t (t.doSquash n) ∧
      (Finished sn (s ++ x :: u) (t.doSquash n) ∨
        (t.doSquash n).doneSquashing = t.doneSquashing ∧
        ∃ s' x' u', s' ++ x' :: u' = s ++ x :: u ∧ At sn s' u' x' (t.doSquash n) ∧
          sn < x'.seqNum ∧ pending sn (s' ++ [x']) + n = pending sn (s ++ [x])) := by
  obtain ⟨hkept, hcases⟩ := squashLoop_spec n h hl
  simp only [doSquash, h.squashInst hl, h.squashedSeqNum]
  by_cases hx : x.seqNum < sn
  · rw [if_pos hx]
    exact ⟨⟨rfl, rfl⟩, .inl (h.finish hl hx.le)⟩
  · rw [if_neg hx]
    obtain ⟨hret, hdone⟩ | ⟨hret, hflag, s', x', u', heq, hat, hcount⟩ := hcases
    · rw [if_pos hret]
      exact ⟨hkept, .inl hdone⟩
    · have hl' : InOrder (s' ++ x' :: u') := heq ▸ hl
      rw [if_neg (by simp [hret])]
      simp only [hat.squashInst hl', hat.squashedSeqNum]
      by_cases hx' : x'.seqNum ≤ sn
      · rw [if_pos hx']
        exact ⟨{ hkept with }, .inl (heq ▸ hat.finish hl' hx')⟩
      · rw [if_neg hx']
        exact ⟨hkept, .inr ⟨hflag, s', x', u', heq, hat, Nat.lt_of_not_le hx',
          hcount.resolve_left hx'⟩⟩

end

section

/-- `t` squashes where `plain` does not. `calls` counts the calls of `doSquash`, each of
which squashes `w` of at most `k` instructions unless it is the last one. -/
structure Follows (sn : InstSeqNum) (w k calls : Nat) (plain t : ThreadROB) : Prop where
  inOrder : InOrder plain.instList
  threadEntries : t.threadEntries = plain.threadEntries
  asserted : t.asserted = plain.asserted
  within : calls ≤ (k + w - 1) / w + 1
  squashing : Finished sn plain.instList t ∨
    t.doneSquashing = false ∧ ∃ s x u, plain.instList = s ++ x :: u ∧ At sn s u x t ∧
      sn < x.seqNum ∧ calls * w + pending sn (s ++ [x]) ≤ k

variable {p : Params} {sn : InstSeqNum} {k calls : Nat} {plain t : ThreadROB}

def width (p : Params) : Nat := p.squashWidth.getD p.numEntries

theorem pending_pos {s : List DynInst} {x : DynInst} (hx : sn < x.seqNum) :
    0 < pending sn (s ++ [x]) := by
  simp [pending, countP_append, hx]

theorem calls_lt {w : Nat} (hw : 0 < w) (h : calls * w < k) : calls + 1 ≤ (k + w - 1) / w := by
  rw [Nat.le_div_iff_mul_le hw, Nat.add_mul]
  omega

theorem doSquash_follows {s u : List DynInst} {x : DynInst} (calls : Nat)
    (hk : k ≤ p.numEntries) (exiting : Bool) (hplain : plain.instList = s ++ x :: u)
    (hl : InOrder plain.instList) (he : t.threadEntries = plain.threadEntries)
    (ha : t.asserted = plain.asserted) (hd : t.doneSquashing = false) (h : At sn s u x t)
    (hcalls : calls + 1 ≤ (k + width p - 1) / width p + 1)
    (hcount : calls * width p + pending sn (s ++ [x]) ≤ k) :
    Follows sn (width p) k (calls + 1) plain (t.doSquash (numInstsToSquash p exiting)) := by
  obtain ⟨hkept, hcases⟩ := doSquash_spec (numInstsToSquash p exiting) h (hplain ▸ hl)
  refine ⟨hl, hkept.threadEntries.trans he, hkept.asserted.trans ha, hcalls, ?_⟩
  obtain hdone | ⟨hflag, s', x', u', heq, hat, hx', hpend⟩ := hcases
  · exact .inl (hplain ▸ hdone)
  · refine .inr ⟨hflag.trans hd, s', x', u', hplain.trans heq.symm, hat, hx', ?_⟩
    have hpos := pending_pos (s := s') hx'
    rw [Nat.add_mul]
    cases exiting with
    | true =>
      -- all instructions are squashed by one such call
      have hn : numInstsToSquash p true = p.numEntries := rfl
      omega
    | false =>
      have hn : numInstsToSquash p false = width p := rfl
      omega

theorem InOrder.map {l : List DynInst} (h : InOrder l) {f : DynInst → DynInst}
    (hf : ∀ inst, (f inst).seqNum = inst.seqNum) : InOrder (l.map f) := by
  refine pairwise_map.mpr (h.imp fun hlt => ?_)
  simpa [hf] using hlt

private theorem pending_map (sn : InstSeqNum) (l : List DynInst) {f : DynInst → DynInst}
    (hf : ∀ inst, (f inst).seqNum = inst.seqNum) : pending sn (l.map f) = pending sn l := by
  simp [pending, countP_map, comp_def, hf]

@[simp] theorem completeAt_seqNum (c : InstSeqNum) (inst : DynInst) :
    (inst.completeAt c).seqNum = inst.seqNum := by
  unfold completeAt
  split <;> simp

theorem completeAt_squash (c : InstSeqNum) (inst : DynInst) :
    (inst.squash).completeAt c = (inst.completeAt c).squash := by
  unfold completeAt
  by_cases h : inst.seqNum = c
  · simp [h, complete_squash, squash_complete]
  · simp [h]

private theorem completeAt_markAbove (c : InstSeqNum) (inst : DynInst) :
    (markAbove sn inst).completeAt c = markAbove sn (inst.completeAt c) := by
  unfold markAbove
  rw [completeAt_seqNum]
  split
  · exact completeAt_squash c inst
  · rfl

theorem At.complete {s u : List DynInst} {x : DynInst} (h : At sn s u x t) (c : InstSeqNum) :
    At sn (s.map (completeAt c)) (u.map (completeAt c)) (x.completeAt c)
      (t.markCompleted c) where
  instList := by
    simp [markCompleted, h.instList, comp_def, completeAt_squash]
  squashIt := h.squashIt.trans (by simp)
  squashedSeqNum := h.squashedSeqNum
  behind := by
    intro inst hmem
    obtain ⟨inst', hmem', rfl⟩ := mem_map.mp hmem
    simpa using h.behind inst' hmem'

theorem Follows.complete {w : Nat} (h : Follows sn w k calls plain t) (c : InstSeqNum) :
    Follows sn w k calls (plain.markCompleted c) (t.markCompleted c) where
  inOrder := h.inOrder.map (completeAt_seqNum c)
  threadEntries := h.threadEntries
  asserted := h.asserted
  within := h.within
  squashing := by
    obtain hdone | ⟨hflag, s, x, u, heq, hat, hx, hcount⟩ := h.squashing
    · refine .inl ⟨hdone.doneSquashing, ?_⟩
      simp [markCompleted, hdone.instList, comp_def, completeAt_markAbove]
    · refine .inr ⟨hflag, s.map (completeAt c), x.completeAt c,
        u.map (completeAt c), ?_, hat.complete c, by simpa using hx, ?_⟩
      · simp [markCompleted, heq]
      · have hmap := pending_map sn (s ++ [x]) (completeAt_seqNum c)
        rw [map_append, map_singleton] at hmap
        rw [hmap]
        exact hcount

theorem Follows.retireHead {w : Nat} (h : Follows sn w k calls plain t) (numInstsInROB : Nat)
    (hhead : ∀ inst ∈ t.instList.head?, inst.seqNum ≤ sn) :
    Follows sn w k calls (plain.retireHead numInstsInROB) (t.retireHead numInstsInROB) := by
  have hin := h.inOrder
  obtain hdone | ⟨hflag, s, x, u, heq, hat, hx, hcount⟩ := h.squashing
  · cases hplain : plain.instList with
    | nil =>
      have ht : t.instList = [] := by simp [hdone.instList, hplain]
      simp only [ThreadROB.retireHead, hplain, ht]
      exact ⟨by simpa [hplain] using hin, h.threadEntries, rfl, h.within,
        .inl ⟨hdone.doneSquashing, rfl⟩⟩
    | cons head rest =>
      have ht : t.instList = markAbove sn head :: rest.map (markAbove sn) := by
        simp [hdone.instList, hplain]
      have hle : head.seqNum ≤ sn := by
        simpa using hhead (markAbove sn head) (by simp [ht])
      have hsame : markAbove sn head = head := by simp [markAbove, hle]
      simp only [ThreadROB.retireHead, hplain, ht, hsame, h.threadEntries, h.asserted]
      rw [hplain] at hin
      exact ⟨(pairwise_cons.mp hin).2, rfl, rfl, h.within, .inl ⟨hdone.doneSquashing, rfl⟩⟩
  · -- the iterator is behind the head, which stays older than the target
    cases s with
    | nil =>
      have hle := hhead x (by simp [hat.instList])
      exact absurd hle hx.not_ge
    | cons head s =>
      have hle : head.seqNum ≤ sn := hhead head (by simp [hat.instList])
      have ht : t.instList = head :: (s ++ x :: u.map squash) := by simp [hat.instList]
      simp only [ThreadROB.retireHead, heq, ht, h.threadEntries, h.asserted]
      rw [heq] at hin
      refine ⟨(pairwise_cons.mp hin).2, rfl, rfl, h.within,
        .inr ⟨hflag, s, x, u, rfl, ⟨rfl, hat.squashIt, hat.squashedSeqNum, hat.behind⟩, hx, ?_⟩⟩
      have hpend : pending sn (head :: s ++ [x]) = pending sn (s ++ [x]) := by
        simp [pending, countP_cons, hle.not_gt]
      rw [hpend] at hcount
      exact hcount

structure Shadow (p : Params) (sn : InstSeqNum) (tid : ThreadID) (k calls : Nat)
    (plain rob : ROB) : Prop where
  others : ∀ t, t ≠ tid → rob.threads t = plain.threads t
  numInstsInROB : rob.numInstsInROB = plain.numInstsInROB
  thread : Follows sn (width p) k calls (plain.threads tid) (rob.threads tid)

end

section

variable {p : Params}

theorem step_other (rob : ROB) (e : Event) {t : ThreadID} (h : t ≠ e.tid) :
    (step p rob e).threads t = rob.threads t := by
  cases e <;> exact update_of_ne h _ _

theorem step_congr {rob rob' : ROB} (e : Event) (ht : rob.threads e.tid = rob'.threads e.tid)
    (hn : rob.numInstsInROB = rob'.numInstsInROB) :
    (step p rob e).threads e.tid = (step p rob' e).threads e.tid ∧
      (step p rob e).numInstsInROB = (step p rob' e).numInstsInROB := by
  cases e <;>
    simp_all [step, Event.tid, ROB.modify, ROB.insertInst, ROB.retireHead]

/-- What may happen in thread `tid` while it squashes down to `sn`. -/
def Admissible (sn : InstSeqNum) (tid : ThreadID) (rob : ROB) : Event → Prop
  | .insertInst inst => inst.threadNumber ≠ tid
  | .markCompleted _ _ => True
  | .retireHead t => t = tid → ∀ inst ∈ (rob.threads tid).instList.head?, inst.seqNum ≤ sn
  | .squash _ t _ => t ≠ tid
  | .doSquash t _ => t = tid → (rob.threads tid).doneSquashing = false

instance (sn : InstSeqNum) (tid : ThreadID) (rob : ROB) : DecidablePred (Admissible sn tid rob) := fun e => by
  cases e <;> dsimp only [Admissible] <;> infer_instance

def isCall (tid : ThreadID) : Event → Bool
  | .doSquash t _ => t == tid
  | _ => false

variable {sn : InstSeqNum} {tid : ThreadID} {k calls : Nat} {plain rob : ROB}

theorem Shadow.doSquash (h : Shadow p sn tid k calls plain rob) (hw : 0 < width p)
    (hk : k ≤ p.numEntries) (exiting : Bool) (hd : (rob.threads tid).doneSquashing = false) :
    Shadow p sn tid k (calls + 1) plain (step p rob (.doSquash tid exiting)) where
  others := fun t ht => (step_other rob (.doSquash tid exiting) ht).trans (h.others t ht)
  numInstsInROB := h.numInstsInROB
  thread := by
    obtain hdone | ⟨hflag, s, x, u, heq, hat, hx, hcount⟩ := h.thread.squashing
    · simp [hdone.doneSquashing] at hd
    · have hpos := pending_pos (s := s) hx
      have hcalls := calls_lt hw ((Nat.lt_add_of_pos_right hpos).trans_le hcount)
      have hthread : (step p rob (.doSquash tid exiting)).threads tid =
          (rob.threads tid).doSquash (numInstsToSquash p exiting) := update_self ..
      rw [hthread]
      exact doSquash_follows calls hk exiting heq h.thread.inOrder h.thread.threadEntries
        h.thread.asserted hd hat (Nat.le_succ_of_le hcalls) hcount

theorem Shadow.step (h : Shadow p sn tid k calls plain rob) {e : Event}
    (ha : Admissible sn tid rob e) (hc : isCall tid e = false) :
    Shadow p sn tid k calls (step p plain e) (step p rob e) := by
  by_cases he : e.tid = tid
  · cases e with
    | insertInst inst => exact absurd he ha
    | squash squash_num t exiting => exact absurd he ha
    | doSquash t exiting =>
      cases he
      simp [isCall, Event.tid] at hc
    | markCompleted t c =>
      cases he
      refine ⟨fun t ht => ?_, h.numInstsInROB, ?_⟩
      · rw [step_other _ _ ht, step_other _ _ ht, h.others t ht]
      · simpa [Rob.step, ROB.modify, Event.tid] using h.thread.complete c
    | retireHead t =>
      cases he
      refine ⟨fun t ht => ?_, ?_, ?_⟩
      · rw [step_other _ _ ht, step_other _ _ ht, h.others t ht]
      · simp [Rob.step, ROB.retireHead, h.numInstsInROB]
      · simpa [Rob.step, ROB.retireHead, ROB.modify, Event.tid, h.numInstsInROB] using
          h.thread.retireHead plain.numInstsInROB (ha rfl)
  · obtain ⟨hthread, hnum⟩ := step_congr (p := p) e (h.others e.tid he) h.numInstsInROB
    refine ⟨fun t ht => ?_, hnum, ?_⟩
    · by_cases het : t = e.tid
      · rw [het, hthread]
      · rw [step_other _ _ het, step_other _ _ het, h.others t ht]
    · rw [step_other _ _ (Ne.symm he), step_other _ _ (Ne.symm he)]
      exact h.thread

theorem Shadow.run (hw : 0 < width p) (hk : k ≤ p.numEntries) (events : List Event) :
    ∀ {calls : Nat} {plain rob : ROB}, Shadow p sn tid k calls plain rob →
      Legal (Rob.step p) (Admissible sn tid) rob events →
      Shadow p sn tid k (calls + events.countP (isCall tid))
        (Lib.Protocol.run (Rob.step p) plain (events.filter fun e => !isCall tid e))
        (Lib.Protocol.run (Rob.step p) rob events) := by
  induction events with
  | nil => exact fun h _ => h
  | cons e events ih =>
    intro calls plain rob h ha
    cases hc : isCall tid e with
    | true =>
      obtain ⟨t, exiting, rfl⟩ : ∃ t exiting, e = .doSquash t exiting := by
        cases e <;> simp_all [isCall]
      obtain rfl : t = tid := by simpa [isCall] using hc
      have hnext := ih (h.doSquash hw hk exiting (ha.1 rfl)) ha.2
      simpa [hc, Nat.add_assoc, Nat.add_comm 1] using hnext
    | false =>
      have hnext := ih (h.step ha.1 hc) ha.2
      simpa [hc] using hnext

end

section

/-- The thread's list is in program order, and a squash in progress is at an instruction
that has to go. -/
structure ThreadWf (t : ThreadROB) : Prop where
  inOrder : InOrder t.instList
  threadEntries : t.threadEntries = t.instList.length
  squashing : t.doneSquashing = false → ∃ s x u, At t.squashedSeqNum s u x t ∧
    t.squashedSeqNum < x.seqNum

structure Wf (p : Params) (rob : ROB) : Prop where
  thread : ∀ t, ThreadWf (rob.threads t)
  empty : ∀ t, p.numThreads ≤ t → (rob.threads t).instList = []
  total : ∑ t ∈ Finset.range p.numThreads, (rob.threads t).instList.length = rob.numInstsInROB
  capacity : rob.numInstsInROB ≤ p.numEntries

variable {p : Params} {rob : ROB}

theorem Wf.length_le (h : Wf p rob) (tid : ThreadID) :
    (rob.threads tid).instList.length ≤ rob.numInstsInROB := by
  by_cases ht : tid < p.numThreads
  · have hle := Finset.single_le_sum (f := fun t => (rob.threads t).instList.length)
      (fun t _ => Nat.zero_le _) (Finset.mem_range.mpr ht)
    exact hle.trans h.total.le
  · simp [h.empty tid (Nat.le_of_not_lt ht)]

theorem start_wf : Wf p {} where
  thread := fun t => ⟨List.Pairwise.nil, rfl, fun h => nomatch h⟩
  empty := fun t _ => rfl
  total := by simp
  capacity := Nat.zero_le _

/-- Instructions enter in program order while there is room and no squash is in progress, the head
retires once it is committable, older than the target of a squash in progress, and `doSquash` is
called until it is done. -/
def Allowed (p : Params) (rob : ROB) : Event → Prop
  | .insertInst inst => inst.threadNumber < p.numThreads ∧ rob.numInstsInROB < p.numEntries ∧
      (rob.threads inst.threadNumber).doneSquashing = true ∧
      ∀ inst' ∈ (rob.threads inst.threadNumber).instList, inst'.seqNum < inst.seqNum
  | .markCompleted _ _ => True
  | .retireHead tid => ∃ head ∈ (rob.threads tid).instList.head?, head.readyToCommit = true ∧
      ((rob.threads tid).doneSquashing = false → head.seqNum ≤ (rob.threads tid).squashedSeqNum)
  | .squash _ _ _ => True
  | .doSquash tid _ => (rob.threads tid).doneSquashing = false

instance (p : Params) (rob : ROB) : DecidablePred (Allowed p rob) := fun e => by
  cases e <;> dsimp only [Allowed] <;> infer_instance

private theorem inOrder_congr {l l' : List DynInst} (h : l.map (·.seqNum) = l'.map (·.seqNum))
    (hl : InOrder l) : InOrder l' := by
  have hmap : (l.map (·.seqNum)).Pairwise (· < ·) := pairwise_map.mpr hl
  rw [h] at hmap
  exact pairwise_map.mp hmap

section

variable {sn : InstSeqNum} {s u : List DynInst} {x : DynInst} {t : ThreadROB}

theorem At.seqNums (h : At sn s u x t) :
    t.instList.map (·.seqNum) = (s ++ x :: u).map (·.seqNum) := by
  simp [h.instList, comp_def]

theorem At.length (h : At sn s u x t) : t.instList.length = (s ++ x :: u).length := by
  simp [h.instList]

/-- The thread squashes without an instruction leaving its list. -/
structure Marked (t t' : ThreadROB) : Prop where
  wf : ThreadWf t'
  length : t'.instList.length = t.instList.length

theorem doSquash_marked (n : Nat) (h : At sn s u x t) (hl : InOrder t.instList)
    (he : t.threadEntries = t.instList.length) : Marked t (t.doSquash n) := by
  have hplain := inOrder_congr h.seqNums hl
  obtain ⟨hkept, hcases⟩ := doSquash_spec n h hplain
  obtain hdone | ⟨-, s', x', u', heq, hat, hx', -⟩ := hcases
  · have hlen : (t.doSquash n).instList.length = t.instList.length := by
      rw [hdone.instList, length_map, h.length]
    refine ⟨⟨?_, ?_, ?_⟩, hlen⟩
    · rw [hdone.instList]
      exact hplain.map (markAbove_seqNum sn)
    · rw [hkept.threadEntries, he, hlen]
    · simp [hdone.doneSquashing]
  · have hlen : (t.doSquash n).instList.length = t.instList.length := by
      rw [hat.length, heq, h.length]
    refine ⟨⟨?_, ?_, fun _ => ⟨s', x', u', ?_⟩⟩, hlen⟩
    · exact inOrder_congr hat.seqNums.symm (heq ▸ hplain)
    · rw [hkept.threadEntries, he, hlen]
    · rw [hat.squashedSeqNum]
      exact ⟨hat, hx'⟩

section

variable (h : ThreadWf t)
include h

theorem ThreadWf.doSquash (hd : t.doneSquashing = false) (n : Nat) : Marked t (t.doSquash n) := by
  obtain ⟨s, x, u, hat, -⟩ := h.squashing hd
  exact doSquash_marked n hat h.inOrder h.threadEntries

theorem squash_eq (squash_num : InstSeqNum) (n : Nat) :
    t.instList = [] ∧ t.squash squash_num n = t ∨
      ∃ s x t', t.instList = s ++ [x] ∧ At squash_num s [] x t' ∧ t'.doneSquashing = false ∧
        t'.instList = t.instList ∧ t'.threadEntries = t.threadEntries ∧
        t'.asserted = t.asserted ∧ t.squash squash_num n = t'.doSquash n := by
  rcases eq_nil_or_concat t.instList with hnil | ⟨s, x, hcat⟩
  · refine .inl ⟨hnil, ?_⟩
    simp [ThreadROB.squash, ThreadROB.isEmpty, h.threadEntries, hnil]
  · rw [concat_eq_append] at hcat
    let t' : ThreadROB :=
      { t with
        doneSquashing := false
        squashedSeqNum := squash_num
        squashIt := some x.seqNum }
    refine .inr ⟨s, x, t', hcat, ⟨by simpa [t'] using hcat, rfl, rfl, by simp⟩, rfl, rfl, rfl,
      rfl, ?_⟩
    simp [t', ThreadROB.squash, ThreadROB.isEmpty, h.threadEntries, hcat]

theorem ThreadWf.squash (squash_num : InstSeqNum) (n : Nat) :
    Marked t (t.squash squash_num n) := by
  obtain ⟨-, hsame⟩ | ⟨s, x, t', -, hat, -, hlist, hent, -, heq⟩ := squash_eq h squash_num n
  · rw [hsame]
    exact ⟨h, rfl⟩
  · have hmarked := doSquash_marked n hat (hlist ▸ h.inOrder) (by rw [hent, hlist, h.threadEntries])
    exact heq ▸ ⟨hmarked.wf, hlist ▸ hmarked.length⟩

theorem ThreadWf.markCompleted (c : InstSeqNum) : Marked t (t.markCompleted c) where
  wf := {
    inOrder := h.inOrder.map (completeAt_seqNum c)
    threadEntries := by simpa [ThreadROB.markCompleted] using h.threadEntries
    squashing := by
      intro hd
      obtain ⟨s, x, u, hat, hx⟩ := h.squashing hd
      exact ⟨_, _, _, hat.complete c, hx.trans_eq (completeAt_seqNum c x).symm⟩ }
  length := by simp [ThreadROB.markCompleted]

theorem ThreadWf.insertInst (numInstsInROB : Nat) {inst : DynInst} (hd : t.doneSquashing = true)
    (hlt : ∀ inst' ∈ t.instList, inst'.seqNum < inst.seqNum) :
    ThreadWf (t.insertInst p numInstsInROB inst) where
  inOrder := by
    refine pairwise_append.mpr ⟨h.inOrder, pairwise_singleton _ _, ?_⟩
    simpa using hlt
  threadEntries := by simpa [ThreadROB.insertInst] using h.threadEntries
  squashing := fun hd' => by simp [ThreadROB.insertInst, hd] at hd'

theorem ThreadWf.retireHead (numInstsInROB : Nat) {head : DynInst} {rest : List DynInst}
    (hlist : t.instList = head :: rest)
    (hle : t.doneSquashing = false → head.seqNum ≤ t.squashedSeqNum) :
    ThreadWf (t.retireHead numInstsInROB) ∧ (t.retireHead numInstsInROB).instList = rest := by
  have hin := h.inOrder
  have hent := h.threadEntries
  rw [hlist] at hin hent
  simp only [ThreadROB.retireHead, hlist, and_true]
  refine ⟨(pairwise_cons.mp hin).2, by simp [hent], fun hd => ?_⟩
  obtain ⟨s, x, u, hat, hx⟩ := h.squashing hd
  have heq := hat.instList
  rw [hlist] at heq
  cases s with
  | nil =>
    obtain ⟨rfl, -⟩ := List.cons.inj heq
    exact absurd (hle hd) hx.not_ge
  | cons head' s =>
    obtain ⟨rfl, hrest⟩ := List.cons.inj heq
    exact ⟨s, x, u, ⟨hrest, hat.squashIt, hat.squashedSeqNum, hat.behind⟩, hx⟩

end

end

theorem sum_update_add {α : Type*} {n tid : Nat} (h : tid < n) (f : α → Nat) (g : Nat → α) (v : α) :
    ∑ t ∈ Finset.range n, f (update g tid v t) + f (g tid) =
      ∑ t ∈ Finset.range n, f (g t) + f v := by
  have hmem : tid ∈ Finset.range n := Finset.mem_range.mpr h
  have hrest : ∀ t ∈ (Finset.range n).erase tid, f (update g tid v t) = f (g t) :=
    fun t ht => by rw [update_of_ne (Finset.ne_of_mem_erase ht)]
  rw [← Finset.add_sum_erase _ _ hmem, Finset.sum_congr rfl hrest, update_self,
    ← Finset.add_sum_erase _ _ hmem]
  omega

theorem Wf.modify (h : Wf p rob) {tid : ThreadID} {t : ThreadROB} {n : Nat} (ht : ThreadWf t)
    (hempty : p.numThreads ≤ tid → t.instList = [])
    (hn : n + (rob.threads tid).instList.length = rob.numInstsInROB + t.instList.length)
    (hcap : n ≤ p.numEntries) :
    Wf p { threads := update rob.threads tid t, numInstsInROB := n } where
  thread := by
    intro t'
    by_cases heq : t' = tid
    · simpa [heq] using ht
    · simpa [heq] using h.thread t'
  empty := by
    intro t' hle
    by_cases heq : t' = tid
    · simpa [heq] using hempty (heq ▸ hle)
    · simpa [heq] using h.empty t' hle
  total := by
    have htotal := h.total
    by_cases hlt : tid < p.numThreads
    · have hsum := sum_update_add hlt (fun t : ThreadROB => t.instList.length) rob.threads t
      dsimp only at hsum ⊢
      omega
    · have hge := Nat.le_of_not_lt hlt
      have hrest : ∀ t' ∈ Finset.range p.numThreads,
          (update rob.threads tid t t').instList.length =
            (rob.threads t').instList.length := fun t' hmem => by
        rw [update_of_ne ((Finset.mem_range.mp hmem).trans_le hge).ne]
      rw [Finset.sum_congr rfl hrest]
      simp only [hempty hge, h.empty tid hge, Nat.add_right_cancel_iff] at hn
      exact htotal.trans hn.symm
  capacity := hcap

theorem Wf.mark (h : Wf p rob) {tid : ThreadID} {t : ThreadROB}
    (ht : Marked (rob.threads tid) t) : Wf p { rob with threads := update rob.threads tid t } := by
  refine h.modify ht.wf (fun hge => ?_) (by rw [ht.length]) h.capacity
  exact length_eq_zero_iff.mp (ht.length.trans (by simp [h.empty tid hge]))

theorem Wf.step (h : Wf p rob) {e : Event} (hl : Allowed p rob e) : Wf p (step p rob e) := by
  cases e with
  | insertInst inst =>
    obtain ⟨htid, hroom, hd, hlt⟩ := hl
    refine h.modify ((h.thread _).insertInst rob.numInstsInROB hd hlt) (fun hge => ?_) ?_ hroom
    · exact absurd htid hge.not_gt
    · simp [insertInst]
      omega
  | markCompleted tid c => exact h.mark ((h.thread tid).markCompleted c)
  | retireHead tid =>
    obtain ⟨head, hhead, -, hle⟩ := hl
    obtain ⟨rest, hlist⟩ := List.head?_eq_some_iff.mp hhead
    obtain ⟨hwf, hrest⟩ := (h.thread tid).retireHead rob.numInstsInROB hlist hle
    refine h.modify hwf (fun hge => ?_) ?_ ((Nat.sub_le _ _).trans h.capacity)
    · have hnil := h.empty tid hge
      simp [hlist] at hnil
    · have hle := h.length_le tid
      simp only [hrest, hlist, length_cons] at hle ⊢
      omega
  | squash squash_num tid exiting => exact h.mark ((h.thread tid).squash squash_num _)
  | doSquash tid exiting => exact h.mark ((h.thread tid).doSquash hl _)

theorem run_wf (events : List Event) {rob : ROB} (h : Wf p rob)
    (hl : Legal (step p) (Allowed p) rob events) : Wf p (run (step p) rob events) :=
  run_inv (Wf p) (fun _ _ hwf ha => hwf.step ha) events h hl

end

/-- From `squash` on, whatever the other threads do meanwhile. Once the squash is done,
the buffer is the one without the squash with exactly the thread's younger instructions
squashed and committable, no assertion has failed because of it, and at most
`⌈k / width⌉ + 1` calls were needed for the `k` instructions of the thread. -/
theorem squashed_exactly (p : Params) (hw : 0 < width p) {rob : ROB} (h : Wf p rob)
    (sn : InstSeqNum) (tid : ThreadID) (exiting : Bool) (events : List Event)
    (ha : Legal (step p) (Admissible sn tid) (step p rob (.squash sn tid exiting)) events) :
    let squashed := run (step p) (step p rob (.squash sn tid exiting)) events
    let plain := run (step p) rob (events.filter fun e => !isCall tid e)
    let k := (rob.threads tid).instList.length
    let calls := 1 + events.countP (isCall tid)
    (∀ t, t ≠ tid → squashed.threads t = plain.threads t) ∧
      (squashed.threads tid).asserted = (plain.threads tid).asserted ∧
      ((squashed.threads tid).doneSquashing = true →
        (squashed.threads tid).instList = (plain.threads tid).instList.map (markAbove sn)) ∧
      calls ≤ (k + width p - 1) / width p + 1 ∧
      (calls = (k + width p - 1) / width p + 1 → (squashed.threads tid).doneSquashing = true) := by
  intro squashed plain k calls
  have hk : k ≤ p.numEntries := (h.length_le tid).trans h.capacity
  have hstart : Shadow p sn tid k 1 rob (step p rob (.squash sn tid exiting)) := by
    refine ⟨fun t ht => step_other rob _ ht, rfl, ?_⟩
    have hthread : (step p rob (.squash sn tid exiting)).threads tid =
        (rob.threads tid).squash sn (numInstsToSquash p exiting) := Function.update_self ..
    rw [hthread]
    obtain ⟨hnil, hsame⟩ | ⟨s, x, t', hcat, hat, hd, hlist, hent, hass, heq⟩ :=
      squash_eq (h.thread tid) sn (numInstsToSquash p exiting)
    · rw [hsame]
      refine ⟨(h.thread tid).inOrder, rfl, rfl, Nat.le_add_left 1 _, .inl ⟨?_, ?_⟩⟩
      · by_contra hd
        obtain ⟨s, x, u, hat, -⟩ := (h.thread tid).squashing (by simpa using hd)
        simp [hat.instList] at hnil
      · simp [hnil]
    · rw [heq]
      refine doSquash_follows 0 hk exiting hcat (h.thread tid).inOrder hent hass hd hat
        (Nat.le_add_left 1 _) ?_
      have hle : pending sn (s ++ [x]) ≤ (s ++ [x]).length := List.countP_le_length
      rw [Nat.zero_mul, Nat.zero_add]
      exact hle.trans_eq (congrArg List.length hcat).symm
  have hrun := Shadow.run hw hk events hstart ha
  refine ⟨hrun.others, hrun.thread.asserted, fun hd => ?_, hrun.thread.within, fun hcalls => ?_⟩
  · obtain hdone | ⟨hflag, -⟩ := hrun.thread.squashing
    · exact hdone.instList
    · exact absurd hd (by simp [squashed, hflag])
  · obtain hdone | ⟨-, s, x, u, -, -, hx, hcount⟩ := hrun.thread.squashing
    · exact hdone.doneSquashing
    · have hpos := pending_pos (s := s) hx
      have hlt := calls_lt hw (Nat.lt_of_lt_of_le (Nat.lt_add_of_pos_right hpos) hcount)
      omega

def twoThreads : Params where
  numEntries := 8
  squashWidth := some 2
  numThreads := 2

def fiveInserted : List Event :=
  [.insertInst ⟨1, 0, false, false⟩, .insertInst ⟨2, 1, false, false⟩,
    .insertInst ⟨3, 0, false, false⟩, .insertInst ⟨4, 0, false, false⟩,
    .insertInst ⟨5, 0, false, false⟩, .markCompleted 0 1]

/-- Squashing down to the oldest instruction takes a second call, which the oldest
instruction does not wait for. -/
theorem squashed_exactly_twoThreads :
    let rob := run (step twoThreads) {} fiveInserted
    let events : List Event := [.retireHead 0, .markCompleted 1 2, .doSquash 0 false]
    let squashed := run (step twoThreads) (step twoThreads rob (.squash 1 0 false)) events
    (squashed.threads 0).instList =
        [⟨3, 0, true, true⟩, ⟨4, 0, true, true⟩, ⟨5, 0, true, true⟩] ∧
      (squashed.threads 1).instList = [⟨2, 1, false, true⟩] ∧
      1 + events.countP (isCall 0) ≤ (4 + 2 - 1) / 2 + 1 := by
  intro rob events squashed
  have hlegal : Legal (step twoThreads) (Allowed twoThreads) {} fiveInserted := by decide
  have hexact := squashed_exactly twoThreads (by decide) (run_wf fiveInserted start_wf hlegal) 1 0
    false events (by decide)
  exact ⟨by decide, by decide, hexact.2.2.2.1⟩

end Gem5Core.O3.RobSquash
