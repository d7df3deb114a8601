import Mathlib.Data.Set.Card
import Gem5Core.Plots.Metrics
import Gem5Core.ValuePred.Pending

/-! Conservation of the predictor's statistics on the commit path, where every `update(pc, ..)` is
directly followed by `predict(pc)`. -/
namespace Gem5Core.ValuePred.Statistics
open MarkovLVP Pending Plots

structure Commit where
  pc : Addr
  actualVal : Word
  wasPredicted : Bool
  predVal : Word

def commitStep (p : Params) (s : State) (c : Commit) : State :=
  (predict p (update p s c.pc c.actualVal c.wasPredicted c.predVal) c.pc).1

def commitRun (p : Params) (commits : List Commit) : State :=
  commits.foldl (commitStep p) (init p)

def pendingPCs (s : State) : Set Addr :=
  { pc | ∃ e, s.vht pc = some e ∧ e.hasPending = true }

instance : Finite Addr := Finite.of_injective BitVec.toFin BitVec.toFin_injective

theorem mem_pendingPCs (s : State) (pc : Addr) :
    pc ∈ pendingPCs s ↔ (slot s pc).isSome = true := by
  unfold pendingPCs slot
  cases he : s.vht pc with
  | none => simp [he]
  | some e => cases h : e.hasPending <;> simp [he, h]

variable (p : Params)

theorem pendingPCs_update (s : State) (pc : Addr) (actualVal : Word) (wasPredicted : Bool)
    (predVal : Word) :
    pendingPCs (update p s pc actualVal wasPredicted predVal) = pendingPCs s \ {pc} := by
  ext other
  by_cases h : other = pc
  · simp [mem_pendingPCs, slot_update, h]
  · simp [mem_pendingPCs, slot_update, h]

private theorem pendingPCs_predict (s : State) (pc : Addr) :
    pendingPCs (predict p s pc).1 =
      if (predict p s pc).2.isSome then insert pc (pendingPCs s) else pendingPCs s := by
  ext other
  cases hanswer : (predict p s pc).2 with
  | none => simp [mem_pendingPCs, slot_predict, hanswer]
  | some v =>
    by_cases h : other = pc
    · simp [mem_pendingPCs, slot_predict, hanswer, h]
    · simp [mem_pendingPCs, slot_predict, hanswer, h]

/-- The identities that tie the global counters to the pending slots. -/
structure Conserved (s : State) : Prop where
  checked : s.stats.pendingChecked = s.stats.correct + s.stats.incorrect
  pending : s.stats.predicted = s.stats.pendingChecked + (pendingPCs s).ncard
  total : s.stats.totalLoads =
    s.stats.noHistory + s.stats.noStride + s.stats.lowConfidence + s.stats.predicted

theorem update_counts (s : State) (hv : AllValid s) (h : Conserved s) (pc : Addr)
    (actualVal : Word) (wasPredicted : Bool) (predVal : Word) :
    let s' := update p s pc actualVal wasPredicted predVal
    s'.stats.pendingChecked = s'.stats.correct + s'.stats.incorrect ∧
    s'.stats.predicted = s'.stats.pendingChecked + (pendingPCs s').ncard ∧
    s'.stats.totalLoads = s'.stats.noHistory + s'.stats.noStride + s'.stats.lowConfidence +
      s'.stats.predicted + 1 := by
  have hchecked := h.checked
  have hpending := h.pending
  have htotal := h.total
  dsimp only
  rw [pendingPCs_update, update_accuracy p s hv]
  by_cases hp : pc ∈ pendingPCs s
  · have hcard := Set.ncard_sdiff_singleton_add_one hp
    have hsome := (mem_pendingPCs s pc).mp hp
    simp only [hsome, if_true, true_and]
    by_cases heq : slot s pc = some actualVal
    · simp only [heq, if_true, ne_eq, not_true_eq_false, if_false]
      omega
    · simp only [heq, if_false, ne_eq, not_false_eq_true, if_true]
      omega
  · have hcard : pendingPCs s \ {pc} = pendingPCs s := Set.sdiff_singleton_eq_self hp
    have hnone : slot s pc = none := by
      simpa [mem_pendingPCs] using hp
    simp only [hcard, hnone, Option.isSome_none, Bool.false_eq_true, false_and, if_false,
      reduceCtorEq]
    omega

theorem commitStep_conserved (s : State) (hv : AllValid s) (h : Conserved s) (c : Commit) :
    Conserved (commitStep p s c) := by
  have hcounts := update_counts p s hv h c.pc c.actualVal c.wasPredicted c.predVal
  have hnot : c.pc ∉ pendingPCs (update p s c.pc c.actualVal c.wasPredicted c.predVal) := by
    rw [pendingPCs_update]
    simp
  unfold commitStep
  generalize update p s c.pc c.actualVal c.wasPredicted c.predVal = s' at hcounts hnot ⊢
  obtain ⟨hchecked, hpending, htotal⟩ := hcounts
  -- exactly one of the four outcome counters of `predict` catches up
  rcases predict_cases p s' c.pc with ⟨_, hp⟩ | ⟨e, _, _, _, hp⟩ | ⟨e, _, _, _, _, hp⟩ |
    ⟨e, _, _, _, _, _, hp⟩
  · rw [hp]
    exact ⟨hchecked, hpending, by dsimp only; omega⟩
  · rw [hp]
    exact ⟨hchecked, hpending, by dsimp only; omega⟩
  · rw [hp]
    exact ⟨hchecked, hpending, by dsimp only; omega⟩
  · have hset : pendingPCs (predict p s' c.pc).1 = insert c.pc (pendingPCs s') := by
      rw [pendingPCs_predict, if_pos (by rw [hp]; rfl)]
    rw [hp] at hset ⊢
    refine ⟨hchecked, ?_, by dsimp only; omega⟩
    rw [hset, Set.ncard_insert_of_notMem hnot]
    dsimp only
    omega

private theorem commitRun_conserved (commits : List Commit) :
    AllValid (commitRun p commits) ∧ Conserved (commitRun p commits) := by
  unfold commitRun
  induction commits using List.reverseRecOn with
  | nil =>
    refine ⟨init_allValid p, rfl, ?_, rfl⟩
    have hempty : pendingPCs (init p) = ∅ := by
      ext pc
      simp [mem_pendingPCs, slot_init]
    rw [List.foldl_nil, hempty, Set.ncard_empty]
    rfl
  | append_singleton commits c ih =>
    rw [List.foldl_append]
    exact ⟨predict_allValid p _ (update_allValid p _ ih.1 _ _ _ _) _,
      commitStep_conserved p _ ih.1 ih.2 c⟩

/-- The counters as `plots.py` reads them from `stats.txt`. -/
def statsFile (stats : LVPStats) : Plots.Stats ℚ
  | "system.cpu.value_pred.totalLoads" => some (some stats.totalLoads)
  | "system.cpu.value_pred.predicted" => some (some stats.predicted)
  | "system.cpu.value_pred.correct" => some (some stats.correct)
  | "system.cpu.value_pred.incorrect" => some (some stats.incorrect)
  | "system.cpu.value_pred.pendingChecked" => some (some stats.pendingChecked)
  | _ => none

/-- After every sequence of commits the counters are conserved, and the
plotted percentages inherit their bounds. -/
theorem commit_conservation (p : Params) (commits : List Commit) :
    let stats := (commitRun p commits).stats
    stats.pendingChecked = stats.correct + stats.incorrect ∧
    stats.predicted = stats.pendingChecked + (pendingPCs (commitRun p commits)).ncard ∧
    stats.predicted ≤ stats.totalLoads ∧
    stats.totalLoads =
      stats.noHistory + stats.noStride + stats.lowConfidence + stats.predicted ∧
    let metrics := extractMetrics (statsFile stats)
    (∀ a ∈ metrics .accuracy, a ≤ 100) ∧ (∀ a ∈ metrics .coverage, a ≤ 100) ∧
    (∀ a ∈ metrics .precision, a ≤ 100) ∧
    (∀ a ∈ metrics .accuracy, ∀ b ∈ metrics .precision, a ≤ b) := by
  obtain ⟨hchecked, hpending, htotal⟩ := (commitRun_conserved p commits).2
  generalize (commitRun p commits).stats = stats at hchecked hpending htotal ⊢
  have hcorrect : (stats.correct : ℚ) ≤ stats.correct + stats.incorrect := by
    exact_mod_cast Nat.le_add_right _ _
  have hpredicted : (stats.correct + stats.incorrect : ℚ) ≤ stats.predicted := by
    exact_mod_cast (show stats.correct + stats.incorrect ≤ stats.predicted by omega)
  have htotal' : (stats.predicted : ℚ) ≤ stats.totalLoads := by
    exact_mod_cast (show stats.predicted ≤ stats.totalLoads by omega)
  refine ⟨hchecked, hpending, by omega, htotal, ?_, ?_, ?_, ?_⟩
  · exact percent_le (hcorrect.trans hpredicted)
  · exact percent_le htotal'
  · exact percent_le hcorrect
  · exact percent_anti (Nat.cast_nonneg _) hpredicted

end Gem5Core.ValuePred.Statistics
