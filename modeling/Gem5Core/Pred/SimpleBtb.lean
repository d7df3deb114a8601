import Gem5Core.Base.Cache
import Gem5Core.Base.IntMath
import Gem5Core.Pred.Branch

/-! `SimpleBTB`: the branch target buffer as an associative cache. `update` asks for a victim
without looking the branch up first, so whether an entry is duplicated depends on the victim. -/
namespace Gem5Core.Pred.SimpleBtb
open Branch Base.IntMath Base.Cache AssociativeCache

section

structure Key where
  address : Addr
  tid : ThreadID

structure Indexing where
  extractSet : Key → Nat
  extractTag : Addr → Addr

structure SetAssociativeParams where
  numSets : Unsigned
  setShift : Nat
  tagBits : Nat
  log2NumThreads : Nat
  numSets_pow : isPowerOf2 numSets = true

def setAssociative (p : SetAssociativeParams) : Indexing where
  extractSet := fun key =>
    let tagShift := p.setShift + floorLog2 p.numSets
    (((key.address >>> p.setShift) ^^^
      (BitVec.ofNat 64 key.tid <<< (tagShift - p.setShift - p.log2NumThreads))) &&&
      (p.numSets - 1).setWidth 64).toNat
  extractTag := fun addr =>
    (addr >>> (p.setShift + floorLog2 p.numSets)) &&& BitVec.ofNat 64 (2 ^ p.tagBits - 1)

variable {PC Inst : Type}

/-- The tag of an invalid entry is `{MaxAddr, -1}`. -/
structure BTBEntry (PC Inst : Type) where
  valid : Bool := false
  tag : Addr × Int := (-1, -1)
  target : Option PC := none
  inst : Option Inst := none

structure SimpleBTB (PC Inst : Type) (assoc : Nat) where
  btb : AssociativeCache (BTBEntry PC Inst) assoc := ⟨fun _ _ => {}⟩
  asserted : Bool := true

variable {assoc : Nat} (ix : Indexing)

def tagOf (key : Key) : Addr × Int := (ix.extractTag key.address, key.tid)

def btbEntry : EntryType (BTBEntry PC Inst) Key where
  isMatch := fun entry key => entry.valid && entry.tag == tagOf ix key
  insert := fun entry key => { entry with valid := true, tag := tagOf ix key }
  invalidate := fun entry => { entry with valid := false, tag := (-1, -1) }

def BTBEntry.update (target : PC) (inst : Option Inst) (entry : BTBEntry PC Inst) :
    BTBEntry PC Inst :=
  { entry with target := some target, inst }

namespace SimpleBTB

variable (s : SimpleBTB PC Inst assoc)

def lookup (tid : ThreadID) (instPC : Addr) : Option PC :=
  (s.btb.findEntry (btbEntry ix) ix.extractSet ⟨instPC, tid⟩).bind fun way =>
    (s.btb.entries (ix.extractSet ⟨instPC, tid⟩) way).target

def update (tid : ThreadID) (instPC : Addr) (target : PC) (inst : Option Inst)
    (victim : Fin assoc) : SimpleBTB PC Inst assoc :=
  let key : Key := ⟨instPC, tid⟩
  let btb := s.btb.findVictim (btbEntry ix) ix.extractSet key victim
  -- `setValid` asserts that the entry is not valid
  let asserted := s.asserted && !(btb.entries (ix.extractSet key) victim).valid
  let btb := btb.insertEntry (btbEntry ix) ix.extractSet key victim
  { btb := btb.modify (ix.extractSet key) victim (BTBEntry.update target inst), asserted }

end SimpleBTB

end

section

variable {PC Inst : Type} {assoc : Nat} (ix : Indexing)

inductive Event (PC Inst : Type) (assoc : Nat) where
  | lookup (tid : ThreadID) (instPC : Addr)
  | update (tid : ThreadID) (instPC : Addr) (target : PC) (inst : Option Inst)
      (victim : Fin assoc)

def step (s : SimpleBTB PC Inst assoc) : Event PC Inst assoc → SimpleBTB PC Inst assoc
  | .lookup _ _ => s
  | .update tid instPC target inst victim => s.update ix tid instPC target inst victim

def run (events : List (Event PC Inst assoc)) : SimpleBTB PC Inst assoc :=
  events.foldl (step ix) {}

/-- No set has two valid entries with one tag and thread. -/
def Unique (s : SimpleBTB PC Inst assoc) : Prop :=
  ∀ set way way', (s.btb.entries set way).valid = true → (s.btb.entries set way').valid = true →
    (s.btb.entries set way).tag = (s.btb.entries set way').tag → way = way'

def Event.writes (set : Nat) : Event PC Inst assoc → Prop
  | .lookup _ _ => False
  | .update tid instPC _ _ _ => ix.extractSet ⟨instPC, tid⟩ = set

/-- A branch that was updated is found with its target until its set is updated
again. -/
def Fresh (events : List (Event PC Inst assoc)) : Prop :=
  ∀ before tid instPC target inst victim after,
    events = before ++ .update tid instPC target inst victim :: after →
    (∀ event ∈ after, ¬event.writes ix (ix.extractSet ⟨instPC, tid⟩)) →
    (run ix events).lookup ix tid instPC = some target

/-- An entry that matches the branch is the one that is replaced. -/
def ReplacesMatch (s : SimpleBTB PC Inst assoc) : Event PC Inst assoc → Prop
  | .lookup _ _ => True
  | .update tid instPC _ _ victim =>
      ∀ way, (btbEntry ix).isMatch (s.btb.entries (ix.extractSet ⟨instPC, tid⟩) way)
        ⟨instPC, tid⟩ = true → way = victim

end

section

variable {PC Inst : Type} {assoc : Nat} {ix : Indexing} {s : SimpleBTB PC Inst assoc}
  {tid : ThreadID} {instPC : Addr} {target : PC} {inst : Option Inst} {victim : Fin assoc}

theorem update_victim :
    (s.update ix tid instPC target inst victim).btb.entries (ix.extractSet ⟨instPC, tid⟩) victim =
      { valid := true, tag := tagOf ix ⟨instPC, tid⟩, target := some target, inst } := by
  simp [SimpleBTB.update, insertEntry, findVictim, btbEntry,
    BTBEntry.update]

theorem update_way {way : Fin assoc} (h : way ≠ victim) :
    (s.update ix tid instPC target inst victim).btb.entries (ix.extractSet ⟨instPC, tid⟩) way =
      s.btb.entries (ix.extractSet ⟨instPC, tid⟩) way := by
  simp only [SimpleBTB.update, insertEntry, findVictim,
    modify_way h]

theorem update_set {set : Nat} (h : set ≠ ix.extractSet ⟨instPC, tid⟩) :
    (s.update ix tid instPC target inst victim).btb.entries set = s.btb.entries set := by
  simp only [SimpleBTB.update, insertEntry, findVictim,
    modify_set h]

theorem isMatch_iff {entry : BTBEntry PC Inst} {key : Key} :
    (btbEntry ix).isMatch entry key = true ↔ entry.valid = true ∧ entry.tag = tagOf ix key := by
  simp [btbEntry]

theorem Unique.update (h : Unique s)
    (hreplaces : ReplacesMatch ix s (.update tid instPC target inst victim)) :
    Unique (s.update ix tid instPC target inst victim) := by
  intro set way way' hvalid hvalid' htag
  by_cases hset : set = ix.extractSet ⟨instPC, tid⟩
  · subst hset
    -- an old entry with the tag of the branch would have been the victim
    have hold : ∀ way, way ≠ victim →
        ((s.update ix tid instPC target inst victim).btb.entries
          (ix.extractSet ⟨instPC, tid⟩) way).valid = true →
        ((s.update ix tid instPC target inst victim).btb.entries
          (ix.extractSet ⟨instPC, tid⟩) way).tag ≠ tagOf ix ⟨instPC, tid⟩ := by
      intro way hne hvalid htag
      rw [update_way hne] at hvalid htag
      exact hne (hreplaces way (isMatch_iff.mpr ⟨hvalid, htag⟩))
    by_cases hway : way = victim
    · subst hway
      by_contra hne
      apply hold way' (Ne.symm hne) hvalid'
      rw [← htag, update_victim]
    · by_cases hway' : way' = victim
      · subst hway'
        refine absurd ?_ (hold way hway hvalid)
        rw [htag, update_victim]
      · rw [update_way hway] at hvalid htag
        rw [update_way hway'] at hvalid' htag
        exact h _ way way' hvalid hvalid' htag
  · rw [update_set hset] at hvalid hvalid' htag
    exact h set way way' hvalid hvalid' htag

theorem Unique.step (h : Unique s) {event : Event PC Inst assoc}
    (hreplaces : ReplacesMatch ix s event) : Unique (step ix s event) := by
  cases event with
  | lookup tid instPC => exact h
  | update tid instPC target inst victim => exact h.update hreplaces

theorem replacesMatch_of_unique {event : Event PC Inst assoc} (h : Unique (step ix s event)) :
    ReplacesMatch ix s event := by
  cases event with
  | lookup tid instPC => trivial
  | update tid instPC target inst victim =>
    intro way hmatch
    obtain ⟨hvalid, htag⟩ := isMatch_iff.mp hmatch
    by_contra hne
    refine hne (h (ix.extractSet ⟨instPC, tid⟩) way victim ?_ ?_ ?_)
    · change ((s.update ix tid instPC target inst victim).btb.entries _ way).valid = true
      rw [update_way hne]
      exact hvalid
    · change ((s.update ix tid instPC target inst victim).btb.entries _ victim).valid = true
      rw [update_victim]
    · change ((s.update ix tid instPC target inst victim).btb.entries _ way).tag =
        ((s.update ix tid instPC target inst victim).btb.entries _ victim).tag
      rw [update_way hne, update_victim]
      exact htag

private theorem lookup_update (h : Unique (s.update ix tid instPC target inst victim)) :
    (s.update ix tid instPC target inst victim).lookup ix tid instPC = some target := by
  have hfound : (s.update ix tid instPC target inst victim).btb.findEntry (btbEntry ix)
      ix.extractSet ⟨instPC, tid⟩ = some victim := by
    apply findEntry_eq_some
    · rw [update_victim]
      exact isMatch_iff.mpr ⟨rfl, rfl⟩
    · intro way hmatch
      obtain ⟨hvalid, htag⟩ := isMatch_iff.mp hmatch
      apply h (ix.extractSet ⟨instPC, tid⟩) way victim hvalid
      · rw [update_victim]
      · rw [htag, update_victim]
  unfold SimpleBTB.lookup
  rw [hfound, Option.bind_some, update_victim]

private theorem lookup_congr {s' : SimpleBTB PC Inst assoc}
    (h : s'.btb.entries (ix.extractSet ⟨instPC, tid⟩) =
      s.btb.entries (ix.extractSet ⟨instPC, tid⟩)) :
    s'.lookup ix tid instPC = s.lookup ix tid instPC := by
  unfold SimpleBTB.lookup findEntry
  rw [h]

private theorem foldl_set {set : Nat} (events : List (Event PC Inst assoc))
    (h : ∀ event ∈ events, ¬event.writes ix set) (s : SimpleBTB PC Inst assoc) :
    (events.foldl (step ix) s).btb.entries set = s.btb.entries set := by
  induction events generalizing s with
  | nil => rfl
  | cons event rest ih =>
    obtain ⟨hevent, hrest⟩ := List.forall_mem_cons.mp h
    rw [List.foldl_cons, ih hrest]
    cases event with
    | lookup tid instPC => rfl
    | update tid instPC target inst victim => exact update_set fun heq => hevent heq.symm

theorem run_append (before after : List (Event PC Inst assoc)) :
    run ix (before ++ after) = after.foldl (step ix) (run ix before) :=
  List.foldl_append

/-- The table stays coherent throughout a run exactly if every update of a branch
that already has an entry replaces this entry. -/
theorem coherent_iff_replacesMatch (events : List (Event PC Inst assoc)) :
    (∀ pre, pre <+: events → Unique (run ix pre) ∧ Fresh ix pre) ↔
      ∀ pre event, pre ++ [event] <+: events → ReplacesMatch ix (run ix pre) event := by
  constructor
  · intro hcoherent pre event hprefix
    apply replacesMatch_of_unique
    have hunique := (hcoherent (pre ++ [event]) hprefix).1
    rwa [run_append] at hunique
  · intro hreplaces
    have hunique : ∀ pre, pre <+: events → Unique (run ix pre) := by
      intro pre
      induction pre using List.reverseRecOn with
      | nil => intro _ set way way' hvalid; simp [run] at hvalid
      | append_singleton pre event ih =>
        intro hprefix
        rw [run_append]
        exact (ih ((List.prefix_append _ _).trans hprefix)).step (hreplaces pre event hprefix)
    refine fun pre hprefix => ⟨hunique pre hprefix, ?_⟩
    rintro before tid instPC target inst victim after rfl hafter
    have hsplit : before ++ .update tid instPC target inst victim :: after =
        (before ++ [.update tid instPC target inst victim]) ++ after := by simp
    rw [hsplit] at hprefix ⊢
    have hupdated := hunique _ ((List.prefix_append _ _).trans hprefix)
    rw [run_append] at hupdated
    rw [run_append, run_append, lookup_congr (foldl_set after hafter _)]
    exact lookup_update hupdated

/-- Two ways: a branch gets its second target in the other way, as the least
recently used one, and is still found with the first. -/
theorem twoWays_stale :
    let ix := setAssociative ⟨2048, 2, 16, 0, by decide⟩
    let s : SimpleBTB Addr Unit 2 := run ix
      [.update 0 0x1000 0x2000 none 0, .update 0 0x1000 0x3000 none 1]
    s.lookup ix 0 0x1000 = some 0x2000 ∧
      (s.btb.entries (ix.extractSet ⟨0x1000, 0⟩) 0).valid = true ∧
      (s.btb.entries (ix.extractSet ⟨0x1000, 0⟩) 1).valid = true ∧
      (s.btb.entries (ix.extractSet ⟨0x1000, 0⟩) 0).tag =
        (s.btb.entries (ix.extractSet ⟨0x1000, 0⟩) 1).tag := by
  decide

end

end Gem5Core.Pred.SimpleBtb
