import Mathlib.Analysis.SpecialFunctions.Log.Basic
import Mathlib.Data.List.ReduceOption
import Gem5Core.Plots.Metrics

/-! The curves that `plots.py` draws over a parameter sweep. -/
namespace Gem5Core.Plots
open List

section

variable {K : Type} [Field K] [LinearOrder K]

abbrev Benches (K : Type) := List (String × (Metric → Num K))

/-- An entry of a results directory; `stats` reads the file `stats.txt` of a subdirectory, if
there is one. -/
structure Entry (K : Type) where
  name : String
  is_dir : Bool
  stats : String → Option (Stats K)

/-- The dictionary's keys are the parameter values. Where there is no directory it has empty
values. -/
def discover (root : Option (List (Entry K))) (dirPrefix : String) (v : Nat) : Benches K :=
  match root with
  | none => []
  | some entries => (entries.insertionSort (·.name ≤ ·.name)).filterMap fun bench_dir =>
      if bench_dir.is_dir then
        (bench_dir.stats (dirPrefix ++ toString v)).map fun stats =>
          (bench_dir.name, extractMetrics stats)
      else none

def benches (data : Nat → Benches K) (param_values : List Nat) : List String :=
  ((param_values.flatMap fun v => (data v).map Prod.fst).dedup).insertionSort (· ≤ ·)

def metricOf (data : Nat → Benches K) (v : Nat) (metric : Metric) (b : String) : Num K :=
  ((data v).lookup b).bind fun metrics => metrics metric

end

noncomputable def counted (vals : List (Num ℝ)) : List ℝ :=
  vals.reduceOption.filter fun v => v ≠ 0 ∧ v > 0

noncomputable def geomean (vals : List (Num ℝ)) : Num ℝ :=
  let vals := counted vals
  if vals = [] then none else some (Real.exp ((vals.map Real.log).sum / vals.length))

noncomputable def gms (data : Nat → Benches ℝ) (param_values : List Nat) (metric : Metric) :
    List (Num ℝ) :=
  param_values.map fun v => geomean ((benches data param_values).map (metricOf data v metric))

/-- A line without points is skipped. `make_trend_plot` draws accuracy, coverage and precision
in this way. -/
noncomputable def line (data : Nat → Benches ℝ) (param_values : List Nat) (metric : Metric) :
    Option (List (Num ℝ)) :=
  let gms := gms data param_values metric
  if ∀ g ∈ gms, g = none then none else some gms

section

variable {vals : List (Num ℝ)} {m x y : ℝ}

@[simp] theorem counted_nil : counted [] = [] := rfl

theorem counted_pos (hx : 0 < x) : counted (some x :: vals) = x :: counted vals := by
  simp [counted, reduceOption_cons_of_some, hx, hx.ne']

theorem counted_zero : counted (some 0 :: vals) = counted vals := by
  simp [counted, reduceOption_cons_of_some]

noncomputable def excess (m : ℝ) (vals : List (Num ℝ)) : ℝ :=
  ((counted vals).map fun v => Real.log v - m).sum

theorem excess_eq (m : ℝ) (vals : List (Num ℝ)) :
    excess m vals = ((counted vals).map Real.log).sum - (counted vals).length * m := by
  rw [excess]
  induction counted vals with
  | nil => simp
  | cons x l ih =>
    rw [map_cons, sum_cons, ih, map_cons, sum_cons, length_cons]
    push_cast
    ring

theorem excess_pos (hx : 0 < x) : excess m (some x :: vals) = Real.log x - m + excess m vals := by
  rw [excess, counted_pos hx, map_cons, sum_cons, ← excess]

theorem le_geomean_iff {g : ℝ} (hg : geomean vals = some g) : Real.exp m ≤ g ↔ 0 ≤ excess m vals := by
  rw [geomean] at hg
  split at hg
  · cases hg
  next hne =>
    cases hg
    have hpos : (0 : ℝ) < (counted vals).length := by
      exact_mod_cast length_pos_iff.mpr hne
    rw [Real.exp_le_exp, le_div_iff₀ hpos, excess_eq, sub_nonneg, mul_comm]

private theorem geomean_eq_none : geomean vals = none ↔ counted vals = [] := by
  rw [geomean]
  split <;> simp_all

private theorem excess_geomean {g : ℝ} (hg : geomean vals = some g) :
    0 < g ∧ excess (Real.log g) vals = 0 := by
  rw [geomean] at hg
  split at hg
  · cases hg
  next hne =>
    cases hg
    have hlength : ((counted vals).length : ℝ) ≠ 0 := by
      exact_mod_cast (length_pos_iff.mpr hne).ne'
    rw [Real.log_exp, excess_eq, mul_div_cancel₀ _ hlength, sub_self]
    exact ⟨Real.exp_pos _, rfl⟩

end

section

variable {vals₁ vals₂ : List (Num ℝ)} {m : ℝ}

/-- A metric, non-negative or missing in both sets, is at most the other. -/
def AtMost (a b : Num ℝ) : Prop :=
  (a = none ∧ b = none) ∨ ∃ x y, a = some x ∧ b = some y ∧ 0 ≤ x ∧ x ≤ y

/-- A metric that was 0 and is not is at least `g`. -/
def NewAtLeast (g : ℝ) (a b : Num ℝ) : Prop := a = some 0 → ∀ y, b = some y → 0 < y → g ≤ y

theorem excess_cons {a b : Num ℝ} (hle : AtMost a b) (hnew : NewAtLeast (Real.exp m) a b)
    (hexcess : excess m vals₁ ≤ excess m vals₂)
    (hcounted : (counted vals₁).length ≤ (counted vals₂).length) :
    excess m (a :: vals₁) ≤ excess m (b :: vals₂) ∧
      (counted (a :: vals₁)).length ≤ (counted (b :: vals₂)).length := by
  rcases hle with ⟨rfl, rfl⟩ | ⟨x, y, rfl, rfl, hx, hxy⟩
  · exact ⟨hexcess, hcounted⟩
  · rcases hx.lt_or_eq with hx | rfl
    · have hlog := Real.log_le_log hx hxy
      rw [excess_pos hx, excess_pos (hx.trans_le hxy), counted_pos hx, counted_pos (hx.trans_le hxy)]
      exact ⟨by linarith, Nat.succ_le_succ hcounted⟩
    · rcases hxy.lt_or_eq with hy | rfl
      · have hlog : m ≤ Real.log y := (Real.le_log_iff_exp_le hy).mpr (hnew rfl y rfl hy)
        rw [excess_pos hy, excess, counted_zero, ← excess, counted_pos hy]
        exact ⟨by linarith, Nat.le_succ_of_le hcounted⟩
      · rw [excess, excess, counted_zero, counted_zero, ← excess]
        exact ⟨hexcess, hcounted⟩

private theorem excess_le (hle : Forall₂ AtMost vals₁ vals₂)
    (hnew : Forall₂ (NewAtLeast (Real.exp m)) vals₁ vals₂) :
    excess m vals₁ ≤ excess m vals₂ ∧ (counted vals₁).length ≤ (counted vals₂).length := by
  induction hle with
  | nil => exact ⟨le_refl _, le_refl _⟩
  | cons hab _ ih =>
    cases hnew with
    | cons hnew hrest =>
      obtain ⟨hexcess, hcounted⟩ := ih hrest
      exact excess_cons hab hnew hexcess hcounted

def Below (a b : Num ℝ) : Prop := ∀ x, a = some x → ∃ y, b = some y ∧ x ≤ y

private theorem forall_none_of_below {l₁ l₂ : List (Num ℝ)} (hbelow : Forall₂ Below l₁ l₂)
    (hnone : ∀ g ∈ l₂, g = none) : ∀ g ∈ l₁, g = none := by
  induction hbelow with
  | nil => exact hnone
  | @cons a b l₁ l₂ hab _ ih =>
    rw [forall_mem_cons] at hnone ⊢
    refine ⟨?_, ih hnone.2⟩
    cases a with
    | none => rfl
    | some x =>
      obtain ⟨y, hy, -⟩ := hab x rfl
      rw [hnone.1] at hy
      cases hy

private theorem geomean_below (hle : Forall₂ AtMost vals₁ vals₂)
    (hnew : ∀ g, geomean vals₁ = some g → Forall₂ (NewAtLeast g) vals₁ vals₂) :
    Below (geomean vals₁) (geomean vals₂) := by
  intro g₁ hg₁
  obtain ⟨hpos, hzero⟩ := excess_geomean hg₁
  have hnew' := hnew g₁ hg₁
  rw [← Real.exp_log hpos] at hnew'
  obtain ⟨hexcess, hcounted⟩ := excess_le hle hnew'
  cases hg₂ : geomean vals₂ with
  | none =>
    rw [geomean_eq_none.mp hg₂, length_nil, Nat.le_zero, length_eq_zero_iff,
      ← geomean_eq_none, hg₁] at hcounted
    cases hcounted
  | some g₂ =>
    refine ⟨g₂, rfl, ?_⟩
    have hle₂ := (le_geomean_iff hg₂).mpr (hzero ▸ hexcess)
    rwa [Real.exp_log hpos] at hle₂

end

theorem trend_monotone {data₁ data₂ : Nat → Benches ℝ} {param_values : List Nat} {metric : Metric}
    (hbenches : benches data₁ param_values = benches data₂ param_values)
    (hle : ∀ v ∈ param_values, ∀ b ∈ benches data₁ param_values,
      AtMost (metricOf data₁ v metric b) (metricOf data₂ v metric b))
    (hnew : ∀ v ∈ param_values, ∀ b ∈ benches data₁ param_values, ∀ g,
      geomean ((benches data₁ param_values).map (metricOf data₁ v metric)) = some g →
        NewAtLeast g (metricOf data₁ v metric b) (metricOf data₂ v metric b)) :
    Forall₂ Below (gms data₁ param_values metric) (gms data₂ param_values metric) ∧
      ∀ gms₁, line data₁ param_values metric = some gms₁ →
        line data₂ param_values metric = some (gms data₂ param_values metric) := by
  have hbelow : Forall₂ Below (gms data₁ param_values metric) (gms data₂ param_values metric) := by
    rw [gms, gms, forall₂_map_left_iff, forall₂_map_right_iff, forall₂_same,
      ← hbenches]
    intro v hv
    apply geomean_below
    · rw [forall₂_map_left_iff, forall₂_map_right_iff, forall₂_same]
      exact hle v hv
    · intro g hg
      rw [forall₂_map_left_iff, forall₂_map_right_iff, forall₂_same]
      exact fun b hb => hnew v hv b hb g hg
  refine ⟨hbelow, fun gms₁ hline => ?_⟩
  rw [line] at hline ⊢
  rw [if_neg]
  intro hnone
  rw [if_pos (forall_none_of_below hbelow hnone)] at hline
  cases hline

def hundredLoads (correct : ℝ) : Stats ℝ := fun key =>
  if key = "system.cpu.value_pred.predicted" then some (some (100 : ℕ))
  else if key = "system.cpu.value_pred.correct" then some (some correct)
  else none

private theorem accuracy_hundredLoads (correct : ℝ) :
    extractMetrics (hundredLoads correct) .accuracy = some correct := by
  simp [extractMetrics, Num.percent, Stats.get, Num.pos, hundredLoads]

noncomputable def twoBenches (correct : ℝ) : Nat → Benches ℝ :=
  discover (some [⟨"a", true, fun _ => some (hundredLoads 50)⟩,
    ⟨"b", true, fun _ => some (hundredLoads correct)⟩]) "depth"

theorem twoBenches_eq (correct : ℝ) (v : Nat) :
    twoBenches correct v =
      [("a", extractMetrics (hundredLoads 50)), ("b", extractMetrics (hundredLoads correct))] := by
  simp [twoBenches, discover]

theorem benches_twoBenches (correct : ℝ) : benches (twoBenches correct) [1] = ["a", "b"] := by
  simp [benches, twoBenches_eq]

theorem metricOf_twoBenches (correct : ℝ) (v : Nat) :
    ["a", "b"].map (metricOf (twoBenches correct) v .accuracy) = [some 50, some correct] := by
  simp [metricOf, twoBenches_eq, lookup_cons, accuracy_hundredLoads]

theorem geomean_zero : geomean [some 50, some 0] = some 50 := by
  have hcounted : counted [some 50, some 0] = [50] := by
    rw [counted_pos (by norm_num), counted_zero, counted_nil]
  simp [geomean, hcounted, Real.exp_log]

/-- It may improve where it comes to the mean of the others. -/
theorem trend_monotone_sixty :
    Forall₂ Below (gms (twoBenches 0) [1] .accuracy) (gms (twoBenches 60) [1] .accuracy) := by
  have hzero := metricOf_twoBenches 0 1
  have hsixty := metricOf_twoBenches 60 1
  simp only [map_cons, map_nil, cons.injEq, and_true] at hzero hsixty
  refine (trend_monotone ?_ ?_ ?_).1
  · rw [benches_twoBenches, benches_twoBenches]
  · simp only [benches_twoBenches, forall_mem_cons, hzero, hsixty]
    refine ⟨⟨.inr ⟨50, 50, rfl, rfl, ?_⟩, .inr ⟨0, 60, rfl, rfl, ?_⟩, by simp⟩, by simp⟩ <;> norm_num
  · simp only [benches_twoBenches, metricOf_twoBenches, forall_mem_cons, hzero, hsixty,
      geomean_zero]
    refine ⟨⟨fun g hg h => ?_, fun g hg _ y hy _ => ?_, by simp⟩, by simp⟩
    · norm_num at h
    · cases hg
      cases hy
      norm_num

/-- Ten correct loads where there were none bring a new benchmark into the mean, which is
lower than that of the other one alone. -/
theorem trend_not_monotone :
    benches (twoBenches 0) [1] = benches (twoBenches 10) [1] ∧
      (∀ b ∈ benches (twoBenches 0) [1], AtMost (metricOf (twoBenches 0) 1 .accuracy b)
        (metricOf (twoBenches 10) 1 .accuracy b)) ∧
      ∃ g, line (twoBenches 0) [1] .accuracy = some [some 50] ∧
        line (twoBenches 10) [1] .accuracy = some [some g] ∧ g < 50 := by
  have hzero := metricOf_twoBenches 0 1
  have hten := metricOf_twoBenches 10 1
  simp only [map_cons, map_nil, cons.injEq, and_true] at hzero hten
  have hcounted : counted [some 50, some 10] = [50, 10] := by
    rw [counted_pos (by norm_num), counted_pos (by norm_num), counted_nil]
  refine ⟨?_, ?_, Real.exp ((Real.log 50 + Real.log 10) / 2), ?_, ?_, ?_⟩
  · rw [benches_twoBenches, benches_twoBenches]
  · simp only [benches_twoBenches, forall_mem_cons, hzero, hten]
    refine ⟨.inr ⟨50, 50, rfl, rfl, ?_⟩, .inr ⟨0, 10, rfl, rfl, ?_⟩, by simp⟩ <;> norm_num
  · simp [line, gms, benches_twoBenches, hzero, geomean_zero]
  · simp [line, gms, benches_twoBenches, hten, geomean, hcounted]
  · have hlog : Real.log 10 < Real.log 50 := Real.log_lt_log (by norm_num) (by norm_num)
    calc Real.exp ((Real.log 50 + Real.log 10) / 2) < Real.exp (Real.log 50) :=
          Real.exp_lt_exp.mpr (by linarith)
      _ = 50 := Real.exp_log (by norm_num)

end Gem5Core.Plots
