import Mathlib.Algebra.Order.Field.Basic
import Mathlib.Tactic.Linarith

/-! The metrics that `plots.py` computes from the statistics of a run. Arithmetic is exact; `none`
stands for `nan`. -/
namespace Gem5Core.Plots

abbrev Num (K : Type) := Option K

variable {K : Type} [Field K] [LinearOrder K]

abbrev Stats (K : Type) := String → Option (Num K)

inductive Metric
  | accuracy
  | coverage
  | precision
  | verified
deriving DecidableEq

def Stats.get (stats : Stats K) (key : String) : Num K := (stats key).getD (some 0)

/-- A comparison with `nan` is false. -/
def Num.pos : Num K → Bool
  | none => false
  | some x => decide (0 < x)

def Num.add (x y : Num K) : Num K := x.bind fun x => y.map (x + ·)

def Num.percent (x y : Num K) : Num K :=
  if y.pos then x.bind fun x => y.map fun y => x / y * 100 else none

def extractMetrics (stats : Stats K) : Metric → Num K :=
  let total := stats.get "system.cpu.value_pred.totalLoads"
  let predicted := stats.get "system.cpu.value_pred.predicted"
  let correct := stats.get "system.cpu.value_pred.correct"
  let incorrect := stats.get "system.cpu.value_pred.incorrect"
  let checked := stats.get "system.cpu.value_pred.pendingChecked"
  fun
  | .accuracy => Num.percent correct predicted
  | .coverage => Num.percent predicted total
  | .precision => Num.percent correct (Num.add correct incorrect)
  | .verified => Num.percent checked predicted

theorem mem_percent {x y a : K} : a ∈ Num.percent (some x) (some y) ↔ 0 < y ∧ x / y * 100 = a := by
  by_cases hy : 0 < y <;> simp [Num.percent, Num.pos, hy]

variable [IsStrictOrderedRing K] {x y z : K}

theorem percent_le (h : x ≤ y) : ∀ a ∈ Num.percent (some x) (some y), a ≤ 100 := by
  intro a ha
  obtain ⟨hy, rfl⟩ := mem_percent.mp ha
  have hle : x / y ≤ 1 := (div_le_one hy).mpr h
  linarith

theorem percent_anti (hx : 0 ≤ x) (h : y ≤ z) :
    ∀ a ∈ Num.percent (some x) (some z), ∀ b ∈ Num.percent (some x) (some y), a ≤ b := by
  intro a ha b hb
  obtain ⟨-, rfl⟩ := mem_percent.mp ha
  obtain ⟨hy, rfl⟩ := mem_percent.mp hb
  have hle : x / z ≤ x / y := div_le_div_of_nonneg_left hx hy h
  linarith

end Gem5Core.Plots
