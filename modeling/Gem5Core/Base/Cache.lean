import Mathlib.Data.List.FinRange

/-! `AssociativeCache` of `base/cache/associative_cache.hh`, for any entry type
and any set index. The replacement policy is not modelled: the way it picks is
an argument. -/
namespace Gem5Core.Base.Cache

variable {Entry Key : Type} {assoc : Nat}

structure EntryType (Entry Key : Type) where
  isMatch : Entry → Key → Bool
  insert : Entry → Key → Entry
  invalidate : Entry → Entry

structure AssociativeCache (Entry : Type) (assoc : Nat) where
  entries : Nat → Fin assoc → Entry

namespace AssociativeCache

variable (ops : EntryType Entry Key) (extractSet : Key → Nat) (cache : AssociativeCache Entry assoc)

def modify (set : Nat) (way : Fin assoc) (f : Entry → Entry) : AssociativeCache Entry assoc where
  entries := Function.update cache.entries set
    (Function.update (cache.entries set) way (f (cache.entries set way)))

def findEntry (key : Key) : Option (Fin assoc) :=
  (List.finRange assoc).find? fun way => ops.isMatch (cache.entries (extractSet key) way) key

/-- The victim is invalidated at once. -/
def findVictim (key : Key) (way : Fin assoc) : AssociativeCache Entry assoc :=
  cache.modify (extractSet key) way ops.invalidate

def insertEntry (key : Key) (way : Fin assoc) : AssociativeCache Entry assoc :=
  cache.modify (extractSet key) way fun entry => ops.insert entry key

variable {cache}

@[simp] theorem modify_self (set : Nat) (way : Fin assoc) (f : Entry → Entry) :
    (cache.modify set way f).entries set way = f (cache.entries set way) := by
  simp [modify]

variable {way : Fin assoc}

theorem modify_way {set : Nat} {way' : Fin assoc} (h : way' ≠ way) (f : Entry → Entry) :
    (cache.modify set way f).entries set way' = cache.entries set way' := by
  simp [modify, h]

theorem modify_set {set set' : Nat} (h : set' ≠ set) (way : Fin assoc) (f : Entry → Entry) :
    (cache.modify set way f).entries set' = cache.entries set' := by
  simp [modify, h]

variable {ops extractSet}

variable {key : Key}

theorem findEntry_eq_some (hmatch : ops.isMatch (cache.entries (extractSet key) way) key = true)
    (honly : ∀ way', ops.isMatch (cache.entries (extractSet key) way') key = true → way' = way) :
    cache.findEntry ops extractSet key = some way := by
  unfold findEntry
  cases hfound : (List.finRange assoc).find? fun way =>
      ops.isMatch (cache.entries (extractSet key) way) key with
  | none =>
    have hnone := List.find?_eq_none.mp hfound way (List.mem_finRange way)
    exact absurd hmatch hnone
  | some way' =>
    have hmatch' := List.find?_some hfound
    rw [honly way' hmatch']

theorem findEntry_eq_none : cache.findEntry ops extractSet key = none ↔
      ∀ way, ops.isMatch (cache.entries (extractSet key) way) key = false := by
  unfold findEntry
  rw [List.find?_eq_none]
  exact ⟨fun h way => Bool.eq_false_of_not_eq_true (h way (List.mem_finRange way)),
    fun h way _ => Bool.eq_false_iff.mp (h way)⟩

theorem findEntry_match (hfound : cache.findEntry ops extractSet key = some way) :
    ops.isMatch (cache.entries (extractSet key) way) key = true := by
  have hmatch := List.find?_some hfound
  exact hmatch

theorem findEntry_stable {cache' : AssociativeCache Entry assoc}
    (hfound : cache.findEntry ops extractSet key = some way)
    (hmatch : ops.isMatch (cache'.entries (extractSet key) way) key = true)
    (hless : ∀ way', ops.isMatch (cache'.entries (extractSet key) way') key = true →
      ops.isMatch (cache.entries (extractSet key) way') key = true) :
    cache'.findEntry ops extractSet key = some way := by
  obtain ⟨-, before, after, hsplit, hbefore⟩ := List.find?_eq_some_iff_append.mp hfound
  refine List.find?_eq_some_iff_append.mpr ⟨hmatch, before, after, hsplit, fun way' hway' => ?_⟩
  have hno := hbefore way' hway'
  rw [Bool.not_eq_true'] at hno ⊢
  exact Bool.eq_false_of_not_eq_true fun h => Bool.eq_false_iff.mp hno (hless way' h)

end AssociativeCache

end Gem5Core.Base.Cache
