import Mathlib.Tactic.Linarith

/-! A stack kept in a ring of slots and undone through a log: undoing a push only steps down,
undoing a pop steps up and writes the saved value back. Heights that differ by a multiple of the
ring's size share a slot. -/
namespace Gem5Core.Lib.RingStack
open Function List

variable {ι α : Type}

structure SlotRing (ι : Type) where
  size : Nat
  slot : ℤ → ι
  slot_eq : ∀ g h, slot g = slot h ↔ (size : ℤ) ∣ g - h

theorem SlotRing.slot_ne (ring : SlotRing ι) {g h : ℤ} (hlt : h < g) (hsize : g - h < ring.size) :
    ring.slot g ≠ ring.slot h := by
  intro heq
  have hle := Int.le_of_dvd (by omega) ((ring.slot_eq g h).mp heq)
  omega

/-- One entry of the log, as much as is needed to undo it, and what was pushed. -/
inductive Entry (ι α : Type) where
  | pushed (value : α)
  | popped (place : ι) (saved : α)

/-- The entries of a stack, top first, and the height of its top. -/
structure Frames (α : Type) where
  top : ℤ
  live : List α

def Frames.bottom (frames : Frames α) : ℤ := frames.top - frames.live.length

def Holds (ring : SlotRing ι) (cells : ι → α) (frames : Frames α) : Prop :=
  ∀ (i : Nat) (h : i < frames.live.length),
    cells (ring.slot (frames.top - i)) = frames.live[i]

def height (top : ℤ) : List (Entry ι α) → ℤ
  | [] => top
  | .pushed _ :: log => height top log + 1
  | .popped _ _ :: log => height top log - 1

def Placed (ring : SlotRing ι) (top : ℤ) : List (Entry ι α) → Prop
  | [] => True
  | .pushed _ :: log => Placed ring top log
  | .popped place _ :: log => place = ring.slot (height top log) ∧ Placed ring top log

def Pops (place : ι) (log : List (Entry ι α)) : Prop := ∃ saved, .popped place saved ∈ log

variable [DecidableEq ι]

def restore : List (Entry ι α) → (ι → α) → ι → α
  | [], cells => cells
  | .pushed _ :: log, cells => restore log cells
  | .popped place saved :: log, cells => restore log (Function.update cells place saved)

theorem restore_update_of_pops (log : List (Entry ι α)) (cells : ι → α) (place : ι) (value : α)
    (h : Pops place log) : restore log (update cells place value) = restore log cells := by
  induction log generalizing cells with
  | nil =>
    obtain ⟨saved, hmem⟩ := h
    cases hmem
  | cons e log ih =>
    obtain ⟨saved, hmem⟩ := h
    cases e with
    | pushed v =>
      exact ih cells ⟨saved, by simpa using hmem⟩
    | popped place' saved' =>
      simp only [restore]
      by_cases hplace : place' = place
      · subst hplace
        rw [update_idem]
      · rw [update_comm (Ne.symm hplace)]
        refine ih _ ⟨saved, ?_⟩
        rcases mem_cons.mp hmem with heq | hmem
        · cases heq
          exact absurd rfl hplace
        · exact hmem

private theorem restore_update_of_not_pops (log : List (Entry ι α)) (cells : ι → α) (place : ι)
    (value : α) (h : ¬ Pops place log) :
    restore log (update cells place value) =
      update (restore log cells) place value := by
  induction log generalizing cells with
  | nil => rfl
  | cons e log ih =>
    have htail : ¬ Pops place log := fun ⟨saved, hmem⟩ => h ⟨saved, mem_cons_of_mem _ hmem⟩
    cases e with
    | pushed v => exact ih cells htail
    | popped place' saved' =>
      have hplace : place' ≠ place := by
        rintro rfl
        exact h ⟨saved', mem_cons_self⟩
      simp only [restore]
      rw [update_comm (Ne.symm hplace), ih _ htail]

omit [DecidableEq ι] in
private theorem pops_of_between (ring : SlotRing ι) (top : ℤ) (log : List (Entry ι α))
    (hplaced : Placed ring top log) (g : ℤ) (hlow : height top log < g) (hhigh : g ≤ top) :
    Pops (ring.slot g) log := by
  induction log with
  | nil =>
    simp only [height] at hlow
    omega
  | cons e log ih =>
    cases e with
    | pushed v =>
      simp only [height] at hlow
      obtain ⟨saved, hmem⟩ := ih hplaced (by omega)
      exact ⟨saved, mem_cons_of_mem _ hmem⟩
    | popped place saved =>
      obtain ⟨hplace, hplaced⟩ := hplaced
      simp only [height] at hlow
      by_cases hg : height top log < g
      · obtain ⟨saved', hmem⟩ := ih hplaced hg
        exact ⟨saved', mem_cons_of_mem _ hmem⟩
      · have heq : g = height top log := by omega
        rw [heq, ← hplace]
        exact ⟨saved, mem_cons_self⟩

/-- Undoing the log brings the ring back to `frames`. -/
structure Tracks (ring : SlotRing ι) (cells : ι → α) (place : ι) (frames : Frames α)
    (log : List (Entry ι α)) : Prop where
  place_eq : place = ring.slot (height frames.top log)
  placed : Placed ring frames.top log
  recover : Holds ring (restore log cells) frames

section
variable {ring : SlotRing ι} {cells : ι → α} {place : ι} {frames : Frames α}
variable {log : List (Entry ι α)}

theorem Tracks.push (h : Tracks ring cells place frames log) (value : α)
    (hroom : height frames.top log + 1 ≤ frames.bottom + ring.size) :
    Tracks ring
      (update cells (ring.slot (height frames.top log + 1)) value)
      (ring.slot (height frames.top log + 1)) frames (.pushed value :: log) := by
  refine ⟨rfl, h.placed, ?_⟩
  simp only [restore]
  by_cases hpops : Pops (ring.slot (height frames.top log + 1)) log
  · rw [restore_update_of_pops log cells _ value hpops]
    exact h.recover
  · rw [restore_update_of_not_pops log cells _ value hpops]
    intro i hi
    have habove : frames.top < height frames.top log + 1 := by
      by_contra hle
      exact hpops (pops_of_between ring frames.top log h.placed _ (by omega) (by omega))
    have hne : ring.slot (frames.top - i) ≠ ring.slot (height frames.top log + 1) := by
      apply Ne.symm
      apply ring.slot_ne (by omega)
      simp only [Frames.bottom] at hroom
      omega
    rw [update_of_ne hne]
    exact h.recover i hi

theorem Tracks.pop (h : Tracks ring cells place frames log) :
    Tracks ring cells (ring.slot (height frames.top log - 1)) frames
      (.popped place (cells place) :: log) := by
  refine ⟨rfl, ⟨h.place_eq, h.placed⟩, ?_⟩
  simp only [restore, update_eq_self]
  exact h.recover

theorem Tracks.undoPush {value : α} (h : Tracks ring cells place frames (.pushed value :: log)) :
    Tracks ring cells (ring.slot (height frames.top log)) frames log :=
  ⟨rfl, h.placed, h.recover⟩

theorem Tracks.undoPop {place' : ι} {saved : α}
    (h : Tracks ring cells place frames (.popped place' saved :: log)) :
    Tracks ring (update cells place' saved) place' frames log :=
  ⟨h.placed.1, h.placed.2, h.recover⟩

theorem Tracks.extend (h : Tracks ring cells place frames []) (value : α)
    (hroom : frames.live.length + 1 ≤ ring.size) :
    Tracks ring (update cells (ring.slot (frames.top + 1)) value)
      (ring.slot (frames.top + 1)) ⟨frames.top + 1, value :: frames.live⟩ [] := by
  refine ⟨rfl, trivial, ?_⟩
  intro i hi
  simp only [length_cons] at hi
  simp only [restore]
  cases i with
  | zero => simp
  | succ i =>
    have hne : ring.slot (frames.top + 1 - (i + 1 : Nat)) ≠ ring.slot (frames.top + 1) := by
      apply Ne.symm
      apply ring.slot_ne <;> push_cast <;> omega
    rw [update_of_ne hne, getElem_cons_succ, ← h.recover i (by omega)]
    congr 2
    push_cast
    omega

theorem Tracks.drop (h : Tracks ring cells place frames []) :
    Tracks ring cells (ring.slot (frames.top - 1)) ⟨frames.top - 1, frames.live.tail⟩ [] ∧
      ∀ value rest, frames.live = value :: rest → cells place = value := by
  refine ⟨⟨rfl, trivial, ?_⟩, ?_⟩
  · intro i hi
    simp only [length_tail] at hi
    have hheld := h.recover (i + 1) (by omega)
    rw [getElem_tail, ← hheld]
    congr 2
    push_cast
    omega
  · intro value rest hlive
    have hheld := h.recover 0 (by rw [hlive]; simp)
    have hplace : place = ring.slot frames.top := h.place_eq
    simpa [restore, hlive, ← hplace] using hheld

end

def replay (base : Frames α) : List (Entry ι α) → Frames α
  | [] => base
  | .pushed value :: log => ⟨(replay base log).top + 1, value :: (replay base log).live⟩
  | .popped _ _ :: log => ⟨(replay base log).top - 1, (replay base log).live.tail⟩

/-- Undoing any newest part of the log brings the ring back to what the rest of it made of the base.
-/
def Levels (ring : SlotRing ι) (cells : ι → α) (place : ι) (base : Frames α)
    (log : List (Entry ι α)) : Prop :=
  ∀ above below, log = above ++ below → Tracks ring cells place (replay base below) above

omit [DecidableEq ι] in
theorem height_replay (base : Frames α) (above below : List (Entry ι α)) :
    height (replay base below).top above = (replay base (above ++ below)).top := by
  induction above with
  | nil => rfl
  | cons e above ih => cases e <;> simp [height, replay, ih]

omit [DecidableEq ι] in
private theorem bottom_replay_le (base : Frames α) (above below : List (Entry ι α)) :
    (replay base (above ++ below)).bottom ≤ (replay base below).bottom := by
  induction above with
  | nil => exact le_refl _
  | cons e above ih =>
    cases e with
    | pushed value =>
      simp only [Frames.bottom, cons_append, replay, length_cons] at ih ⊢
      push_cast
      omega
    | popped place saved =>
      simp only [Frames.bottom, cons_append, replay, length_tail] at ih ⊢
      omega

omit [DecidableEq ι] in
private theorem replay_concat (base : Frames α) (log : List (Entry ι α)) (e : Entry ι α) :
    replay base (log ++ [e]) = replay (replay base [e]) log := by
  induction log with
  | nil => rfl
  | cons e' log ih => cases e' <;> simp [replay, ih]

section
variable {ring : SlotRing ι} {cells : ι → α} {place : ι} {base : Frames α}
variable {log : List (Entry ι α)}

theorem levels_nil (h : Tracks ring cells place base []) : Levels ring cells place base [] := by
  intro above below hsplit
  obtain ⟨rfl, rfl⟩ := append_eq_nil_iff.mp hsplit.symm
  exact h

section

variable (h : Levels ring cells place base log)
include h

theorem Levels.tracks : Tracks ring cells place (replay base log) [] := h [] log rfl

theorem Levels.push (value : α) (hroom : (replay base log).live.length + 1 ≤ ring.size) :
    Levels ring (update cells (ring.slot ((replay base log).top + 1)) value)
      (ring.slot ((replay base log).top + 1)) base (.pushed value :: log) := by
  intro above below hsplit
  cases above with
  | nil =>
    obtain rfl : below = .pushed value :: log := hsplit.symm
    exact h.tracks.extend value hroom
  | cons e above =>
    rw [cons_append] at hsplit
    obtain ⟨rfl, rfl⟩ := List.cons.inj hsplit
    have hheight := height_replay base above below
    have hbottom := bottom_replay_le base above below
    have hpush := (h above below rfl).push value (by
      simp only [Frames.bottom] at hbottom ⊢
      omega)
    rwa [hheight] at hpush

theorem Levels.pop :
    Levels ring cells (ring.slot ((replay base log).top - 1)) base
      (.popped place (cells place) :: log) := by
  intro above below hsplit
  cases above with
  | nil =>
    obtain rfl : below = .popped place (cells place) :: log := hsplit.symm
    exact h.tracks.drop.1
  | cons e above =>
    obtain ⟨rfl, rfl⟩ := List.cons.inj hsplit
    have hpop := (h above below rfl).pop
    rwa [height_replay] at hpop

end

theorem Levels.undoPush {value : α} (h : Levels ring cells place base (.pushed value :: log)) :
    Levels ring cells (ring.slot (replay base log).top) base log := by
  intro above below hsplit
  have hundo := (h (.pushed value :: above) below (by rw [hsplit]; rfl)).undoPush
  rwa [height_replay, ← hsplit] at hundo

theorem Levels.undoPop {place' : ι} {saved : α}
    (h : Levels ring cells place base (.popped place' saved :: log)) :
    Levels ring (update cells place' saved) place' base log := by
  intro above below hsplit
  exact (h (.popped place' saved :: above) below (by rw [hsplit]; rfl)).undoPop

theorem Levels.settle {e : Entry ι α} (h : Levels ring cells place base (log ++ [e])) :
    Levels ring cells place (replay base [e]) log := by
  intro above below hsplit
  rw [← replay_concat]
  exact h above (below ++ [e]) (by rw [hsplit, append_assoc])

end

end Gem5Core.Lib.RingStack
