import Mathlib.Order.Bounds.Basic

/-! The least element seen so far. It is kept in an option while sets of candidates
come in, each of them given by its own least element. -/
namespace Gem5Core.Lib.RunningLeast

variable {α β : Type*} [LinearOrder α]

/-- The option holds the least element of the set, or nothing if the set is empty. -/
def Holds (least : Option α) (s : Set α) : Prop :=
  match least with
  | none => s = ∅
  | some a => IsLeast s a

/-- Of two candidates with one key the later one is kept. -/
def keep (key : β → α) (least candidate : Option β) : Option β :=
  (candidate.filter fun b => !least.any (key · < key b)).or least

theorem keep_some (key : β → α) (least : Option β) (c : β) :
    ∃ b, keep key least (some c) = some b ∧ key b ≤ key c ∧ (least = some b ∨ b = c) := by
  cases least with
  | none => exact ⟨c, rfl, le_refl _, .inr rfl⟩
  | some b =>
    by_cases hlt : key b < key c
    · exact ⟨b, by simp [keep, Option.filter, hlt], hlt.le, .inl rfl⟩
    · exact ⟨c, by simp [keep, Option.filter, hlt], le_refl _, .inr rfl⟩

variable {least candidate : Option α} {s t : Set α}

theorem Holds.some_iff (h : Holds least s) (a : α) : least = some a ↔ IsLeast s a := by
  cases least with
  | none =>
    refine iff_of_false (by simp) fun hleast => ?_
    rw [show s = ∅ from h] at hleast
    exact hleast.1
  | some b =>
    have hb : IsLeast s b := h
    constructor
    · rintro ⟨⟩
      exact hb
    · intro ha
      rw [hb.unique ha]

theorem Holds.keep (h : Holds least s) (h' : Holds candidate t) :
    Holds (keep id least candidate) (s ∪ t) := by
  cases candidate with
  | none =>
    rw [show t = ∅ from h', Set.union_empty]
    exact h
  | some b =>
    have hb : IsLeast t b := h'
    cases least with
    | none =>
      rw [show s = ∅ from h, Set.empty_union]
      exact hb
    | some a =>
      have ha : IsLeast s a := h
      have hunion := ha.union hb
      by_cases hab : a < b
      · have hkeep : RunningLeast.keep id (some a) (some b) = some a := by
          simp [RunningLeast.keep, Option.filter, hab]
        rw [hkeep]
        rwa [min_eq_left hab.le] at hunion
      · have hkeep : RunningLeast.keep id (some a) (some b) = some b := by
          simp [RunningLeast.keep, Option.filter, hab]
        rw [hkeep]
        rwa [min_eq_right (not_lt.mp hab)] at hunion

theorem holds_find? {key : β → α} {l : List β} (hsorted : l.Pairwise (key · < key ·))
    (test : β → Bool) : Holds ((l.find? test).map key) {a | ∃ b ∈ l, test b ∧ key b = a} := by
  induction l with
  | nil => simp [Holds]
  | cons b l ih =>
    obtain ⟨hb, hl⟩ := List.pairwise_cons.mp hsorted
    by_cases htest : test b = true
    · rw [List.find?_cons_of_pos htest]
      refine ⟨⟨b, List.mem_cons_self, htest, rfl⟩, ?_⟩
      rintro _ ⟨c, hc, -, rfl⟩
      rcases List.mem_cons.mp hc with rfl | hc
      · exact le_refl _
      · exact (hb c hc).le
    · rw [List.find?_cons_of_neg htest]
      have hset : {a | ∃ c ∈ b :: l, test c ∧ key c = a} = {a | ∃ c ∈ l, test c ∧ key c = a} := by
        ext a
        simp [htest]
      rw [hset]
      exact ih hl

end Gem5Core.Lib.RunningLeast
