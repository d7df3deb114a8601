import Gem5Core.Lib.RingStack
import Gem5Core.Pred.Ras

/-! The circular array of the return address stack as a ring of slots: `push`,
`pop` and `restore` are the operations of the ring, `tos` the slot of a height. -/
namespace Gem5Core.Pred.RasRing
open Branch Ras Lib.RingStack AddrStack

section
variable {n : Nat} [NeZero n]

def slot (n : Nat) [NeZero n] (h : ℤ) : Fin n :=
  ⟨(h % n).toNat, by
    have hpos : (0 : ℤ) < n := by exact_mod_cast Nat.pos_of_ne_zero (NeZero.ne n)
    have hlt := Int.emod_lt_of_pos h hpos
    have hnonneg := Int.emod_nonneg h (ne_of_gt hpos)
    omega⟩

theorem slot_cast (h : ℤ) : ((slot n h).val : ℤ) = h % n := by
  have hne : (n : ℤ) ≠ 0 := by exact_mod_cast NeZero.ne n
  exact Int.toNat_of_nonneg (Int.emod_nonneg h hne)

theorem slot_eq_iff (g h : ℤ) : slot n g = slot n h ↔ (n : ℤ) ∣ g - h := by
  rw [Int.dvd_iff_emod_eq_zero, ← Int.emod_eq_emod_iff_emod_sub_eq_zero, Fin.ext_iff,
    ← slot_cast, ← slot_cast, Int.natCast_inj]

theorem eq_slot (tos : Fin n) (h : ℤ) (hdvd : (n : ℤ) ∣ h - tos.val) : tos = slot n h := by
  have heq := Int.emod_eq_emod_iff_emod_sub_eq_zero.mpr (Int.dvd_iff_emod_eq_zero.mp hdvd)
  have htos : (tos.val : ℤ) % n = tos.val := Int.emod_eq_of_lt (by omega) (by omega)
  have hcast := slot_cast (n := n) h
  apply Fin.ext
  omega

def stackRing (n : Nat) [NeZero n] : SlotRing (Fin n) := ⟨n, slot n, slot_eq_iff⟩

theorem dvd_slot (h : ℤ) : (n : ℤ) ∣ h - (slot n h).val := by
  rw [slot_cast, Int.dvd_iff_emod_eq_zero, ← Int.emod_eq_emod_iff_emod_sub_eq_zero,
    Int.emod_emod_of_dvd h (dvd_refl _)]

private theorem incrTos_slot (h : ℤ) : incrTos (slot n h) = slot n (h + 1) := by
  apply eq_slot
  obtain ⟨k, hk⟩ := dvd_slot (n := n) h
  unfold incrTos
  split
  · rename_i hwrap
    refine ⟨k + 1, ?_⟩
    simp only [Nat.cast_zero]
    linarith
  · refine ⟨k, ?_⟩
    push_cast
    linarith

theorem decrTos_slot (h : ℤ) : decrTos (slot n h) = slot n (h - 1) := by
  apply eq_slot
  obtain ⟨k, hk⟩ := dvd_slot (n := n) h
  have hpos := Nat.pos_of_ne_zero (NeZero.ne n)
  unfold decrTos
  split
  · rename_i hzero
    refine ⟨k - 1, ?_⟩
    simp only [Nat.cast_sub (show 1 ≤ n from hpos)]
    push_cast at hk ⊢
    linarith
  · rename_i hne
    refine ⟨k, ?_⟩
    simp only [Nat.cast_sub (show 1 ≤ (slot n h).val by omega)]
    push_cast
    linarith

end

section
variable {PC : Type} {n : Nat} [NeZero n]

abbrev StackTracks (s : AddrStack PC n) (frames : Frames (Option PC))
    (log : List (Entry (Fin n) (Option PC))) : Prop :=
  Tracks (stackRing n) s.addrStack s.tos frames log

variable {s : AddrStack PC n} {frames : Frames (Option PC)}
variable {log : List (Entry (Fin n) (Option PC))}

section

variable (h : StackTracks s frames log)
include h

theorem incrTos_tracks : incrTos s.tos = slot n (height frames.top log + 1) := by
  rw [h.place_eq]
  exact incrTos_slot _

theorem decrTos_tracks : decrTos s.tos = slot n (height frames.top log - 1) := by
  rw [h.place_eq]
  exact decrTos_slot _

theorem tracks_push (pc : PC) (hroom : height frames.top log + 1 ≤ frames.bottom + n) :
    StackTracks (s.push pc) frames (.pushed (some pc) :: log) := by
  simp only [StackTracks, push, incrTos_tracks h]
  exact h.push (some pc) hroom

theorem tracks_pop : StackTracks s.pop frames (.popped s.tos s.top :: log) := by
  simp only [StackTracks, pop, decrTos_tracks h]
  exact h.pop

end

theorem tracks_undoPush {value : Option PC} (h : StackTracks s frames (.pushed value :: log)) :
    StackTracks s.pop frames log := by
  have htos := decrTos_tracks h
  simp only [height, add_sub_cancel_right] at htos
  simp only [StackTracks, pop, htos]
  exact h.undoPush

theorem tracks_undoPop {tos : Fin n} {saved : Option PC}
    (h : StackTracks s frames (.popped tos saved :: log)) :
    StackTracks (s.restore tos saved) frames log :=
  h.undoPop

theorem tracks_extend (h : StackTracks s frames []) (pc : PC)
    (hroom : frames.live.length + 1 ≤ n) :
    StackTracks (s.push pc) ⟨frames.top + 1, some pc :: frames.live⟩ [] := by
  have htos := incrTos_tracks h
  simp only [StackTracks, push, htos]
  exact h.extend (some pc) hroom

theorem tracks_drop (h : StackTracks s frames []) :
    StackTracks s.pop ⟨frames.top - 1, frames.live.tail⟩ [] ∧
      ∀ value rest, frames.live = value :: rest → s.top = value := by
  have htos := decrTos_tracks h
  simp only [StackTracks, pop, htos]
  exact h.drop

theorem init_tracks : StackTracks (init : AddrStack PC n) ⟨0, []⟩ [] where
  place_eq := by
    apply eq_slot
    simp [init, height]
  placed := trivial
  recover := fun i hi => absurd hi (Nat.not_lt_zero i)

abbrev StackLevels (s : AddrStack PC n) (base : Frames (Option PC))
    (log : List (Entry (Fin n) (Option PC))) : Prop :=
  Levels (stackRing n) s.addrStack s.tos base log

theorem levels_push (h : StackLevels s frames log) (pc : PC)
    (hroom : (replay frames log).live.length + 1 ≤ n) :
    StackLevels (s.push pc) frames (.pushed (some pc) :: log) := by
  have htos := incrTos_tracks h.tracks
  simp only [StackLevels, push, htos]
  exact h.push (some pc) hroom

theorem levels_pop (h : StackLevels s frames log) :
    StackLevels s.pop frames (.popped s.tos s.top :: log) := by
  have htos := decrTos_tracks h.tracks
  simp only [StackLevels, pop, htos]
  exact h.pop

theorem levels_undoPush {value : Option PC} (h : StackLevels s frames (.pushed value :: log)) :
    StackLevels s.pop frames log := by
  have htos := decrTos_tracks h.tracks
  simp only [height, replay, add_sub_cancel_right] at htos
  simp only [StackLevels, pop, htos]
  exact h.undoPush

theorem levels_undoPop {tos : Fin n} {saved : Option PC}
    (h : StackLevels s frames (.popped tos saved :: log)) :
    StackLevels (s.restore tos saved) frames log :=
  h.undoPop

end

section
variable {PC : Type} {n : Nat} [NeZero n]

def live (s : AddrStack PC n) (depth : Nat) : List (Option PC) :=
  (List.range depth).map fun i => s.addrStack (decrTos^[i] s.tos)

private theorem decrTos_iterate (h : ℤ) (i : Nat) :
    decrTos^[i] (slot n h) = slot n (h - i) := by
  induction i with
  | zero => simp
  | succ i ih =>
    rw [Function.iterate_succ_apply', ih, decrTos_slot]
    congr 1
    push_cast
    omega

theorem live_of_tracks {s : AddrStack PC n} {frames : Frames (Option PC)}
    (h : StackTracks s frames []) : live s frames.live.length = frames.live := by
  have hplace : s.tos = slot n frames.top := h.place_eq
  apply List.ext_getElem
  · simp [live]
  · intro i hi hi'
    simp only [live, List.getElem_map, List.getElem_range, hplace, decrTos_iterate]
    exact h.recover i hi'

end

section
variable {PC : Type} {n : Nat} [PCState PC]

def instAddrs (s : AddrStack PC n) : AddrStack Addr n where
  addrStack := fun i => (s.addrStack i).map PCState.instAddr
  usedEntries := s.usedEntries
  tos := s.tos

theorem instAddrs_push (s : AddrStack PC n) (pc : PC) :
    instAddrs (s.push pc) = (instAddrs s).push (PCState.instAddr pc) := by
  simp only [instAddrs, push, mk.injEq]
  exact ⟨Function.comp_update (Option.map PCState.instAddr) s.addrStack _ (some pc), rfl, trivial⟩

theorem instAddrs_pop (s : AddrStack PC n) : instAddrs s.pop = (instAddrs s).pop := rfl

theorem instAddrs_restore (s : AddrStack PC n) (tos : Fin n) (saved : Option PC) :
    instAddrs (s.restore tos saved) =
      (instAddrs s).restore tos (saved.map PCState.instAddr) := by
  simp only [instAddrs, AddrStack.restore, AddrStack.mk.injEq]
  exact ⟨Function.comp_update (Option.map PCState.instAddr) s.addrStack tos saved, rfl, trivial⟩

end

end Gem5Core.Pred.RasRing
