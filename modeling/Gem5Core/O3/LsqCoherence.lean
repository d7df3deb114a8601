import Gem5Core.O3.LsqLoads

/-! Two loads of one thread and an invalidation between them: a younger load that has read
before it does not commit if an older one reads after it. -/
namespace Gem5Core.O3.Lsq
open Pred.Branch Lib.Protocol Lib.Indexed Function

/-- The unit with the instants of what happens to its loads: when each byte came from the cache,
since when the address is valid, and when the last access that kept the address valid was made. -/
structure Watch where
  unit : LSQUnit := {}
  clock : Nat := 0
  last : InstSeqNum := 0
  obtained : InstSeqNum → Nat → Option Nat := fun _ _ => none
  since : InstSeqNum → Nat := fun _ => 0
  accessed : InstSeqNum → Nat := fun _ => 0
  snoops : List (Nat × Addr) := []

namespace Watch
open LSQUnit

variable (p : Params) (m : Watch)

def noteExecution (outcome : Outcome) (ld ld' : LQEntry) : Watch :=
  let seq := ld.inst.seqNum
  { m with
    obtained := if ld'.outstanding then m.obtained else Function.update m.obtained seq fun _ => none
    since :=
      if !ld.effAddrValid && ld'.effAddrValid then Function.update m.since seq m.clock else m.since
    accessed :=
      if outcome == .accessed && !ld.isExecuted && !ld.reExec && ld'.effAddrValid then
        Function.update m.accessed seq m.clock
      else m.accessed }

def note (after : LSQUnit) : Event → Watch
  | .insertLoad load_inst => { m with last := load_inst.seqNum }
  | .executeLoad load_idx outcome _ _ =>
      match m.unit.loadAt load_idx, after.loadAt load_idx with
      | some ld, some ld' => m.noteExecution outcome ld ld'
      | _, _ => m
  | .recvData load_idx offset _ =>
      match m.unit.loadAt load_idx with
      | some ld =>
          if ld.hasRequest && ld.outstanding then
            { m with
              obtained := Function.update m.obtained ld.inst.seqNum
                (Function.update (m.obtained ld.inst.seqNum) offset (some m.clock)) }
          else m
      | none => m
  | .checkSnoop addr => { m with snoops := m.snoops ++ [(m.clock, addr)] }
  | _ => m

def step (e : Event) : Watch :=
  let after := Lsq.step p m.unit e
  { m.note after e with unit := after, clock := m.clock + 1 }

def granule (inst : DynInst) (i : Nat) : Addr := (inst.effAddr + BitVec.ofNat 64 i) >>> p.depCheckShift

/-- Byte `i` of one access and byte `j` of the other lie in a granule that both access. -/
def Conflict (a b : DynInst) (i j : Nat) : Prop :=
  a.granulesOverlap p.depCheckShift b = true ∧ granule p a i = granule p b j

instance (a b : DynInst) (i j : Nat) : Decidable (Conflict p a b i j) :=
  inferInstanceAs (Decidable (_ ∧ _))

/-- Loads are numbered in program order, data arrive for loads that are queued, and a load commits
only if it is not to be executed again and no violator is left at or before it. -/
def Allowed : Event → Prop
  | .insertLoad load_inst => m.last < load_inst.seqNum
  | .recvData load_idx offset _ => ∃ ld ∈ m.unit.loadAt load_idx, offset < ld.inst.request.size
  | .writeback load_idx => (m.unit.loadAt load_idx).isSome
  | .commit youngest_inst =>
      (∀ w ∈ m.unit.violators, youngest_inst < w) ∧
        ∀ ld ∈ m.unit.loadQueue, ld.inst.seqNum ≤ youngest_inst → ld.reExec = false
  | _ => True

instance : DecidablePred m.Allowed := fun e => by
  cases e <;> dsimp only [Allowed] <;> infer_instance

/-- The cache answers reads of one granule in the order in which they were made. -/
def AnswersInOrder : Event → Prop
  | .recvData load_idx offset _ =>
      ∀ ld ∈ m.unit.loadAt load_idx, ∀ ld' ∈ m.unit.loadQueue, ld.inst.seqNum < ld'.inst.seqNum →
        ∀ j < ld'.inst.request.size, Conflict p ld.inst ld'.inst offset j →
        (m.obtained ld'.inst.seqNum j).isSome →
        m.since ld'.inst.seqNum < m.accessed ld.inst.seqNum
  | _ => True

instance : DecidablePred (AnswersInOrder p m) := fun e => by
  cases e <;> dsimp only [AnswersInOrder] <;> infer_instance

def Invalidated (inst : DynInst) (t : Nat) : Prop :=
  ∃ addr, (t, addr) ∈ m.snoops ∧
    inst.request.isCacheBlockHit (addr &&& p.cacheBlockMask) p.cacheBlockMask = true

/-- `b` obtained a byte of a granule before an invalidation of its block, and `a` one after. -/
def Passed (a b : DynInst) : Prop :=
  ∃ i j t₁ t₂ t, Conflict p a b i j ∧ m.obtained b.seqNum j = some t₂ ∧
    m.obtained a.seqNum i = some t₁ ∧ Invalidated p m b t ∧ t₂ < t ∧ t < t₁

def Oldest (u : LSQUnit) (ld : LQEntry) : Prop := ∀ a ∈ u.loadQueue, ld.inst.seqNum ≤ a.inst.seqNum

def Guarded (ld : LQEntry) : Prop :=
  ld.reExec = true ∨ ld.possibleLoadViolation = true ∧ ld.hitExternalSnoop = false

structure Kept (m : Watch) : Prop where
  recent : ∀ ld ∈ m.unit.loadQueue, ld.inst.seqNum ≤ m.last
  retiredFirst : ∀ r ∈ m.unit.retired, r.inst.seqNum ≤ m.last ∧
    ∀ ld ∈ m.unit.loadQueue, r.inst.seqNum < ld.inst.seqNum
  seen : ∀ ld ∈ m.unit.loadQueue, ∀ j t₂ t, m.obtained ld.inst.seqNum j = some t₂ → t₂ < t →
    Invalidated p m ld.inst t → Oldest m.unit ld ∨ ld.reExec = true ∨ ld.hitExternalSnoop = true
  caught : ∀ a, a ∈ m.unit.loadQueue ∨ a ∈ m.unit.retired → ∀ b ∈ m.unit.loadQueue,
    a.inst.seqNum < b.inst.seqNum → Passed p m a.inst b.inst →
    Doomed m.unit b ∨ b.reExec = true
  safe : ∀ a ∈ m.unit.retired, ∀ b ∈ m.unit.retired, a.inst.seqNum < b.inst.seqNum →
    ¬ Passed p m a.inst b.inst

structure Inv (m : Watch) : Prop extends Kept p m where
  loads : LoadsWf m.unit
  accessedAt : ∀ seq, m.accessed seq ≤ m.clock
  obtainedAt : ∀ seq i t, m.obtained seq i = some t → t < m.clock ∧ seq ≤ m.last
  snoopedAt : ∀ x ∈ m.snoops, x.1 < m.clock
  live : ∀ ld ∈ m.unit.loadQueue, ld.outstanding = true → ld.hasRequest = true ∧ ld.effAddrValid = true
  answered : ∀ ld ∈ m.unit.loadQueue, ∀ i t, m.obtained ld.inst.seqNum i = some t →
    ld.outstanding = true ∧ i < ld.inst.request.size
  ordered : ∀ ld ∈ m.unit.loadQueue, ld.inst.strictlyOrdered = true → ld.effAddrValid = true →
    Oldest m.unit ld
  checked : ∀ a ∈ m.unit.loadQueue, ∀ b ∈ m.unit.loadQueue, a.inst.seqNum < b.inst.seqNum →
    a.inst.granulesOverlap p.depCheckShift b.inst = true → b.effAddrValid = true →
    m.since b.inst.seqNum < m.accessed a.inst.seqNum → Doomed m.unit b ∨ Guarded b

variable {p m}

theorem inv_start : Inv p {} where
  loads := ⟨.nil, fun _ h => by cases h⟩
  recent := by simp
  retiredFirst := by simp
  accessedAt := fun _ => le_rfl
  obtainedAt := by simp
  snoopedAt := by simp
  live := by simp
  answered := by simp
  ordered := by simp
  checked := by simp
  seen := by simp
  caught := by simp
  safe := by simp

structure Stays (a b : LQEntry) : Prop where
  inst : b.inst = a.inst
  reExec : a.reExec = true → b.reExec = true
  hit : a.hitExternalSnoop = true → b.hitExternalSnoop = true
  guarded : Guarded a → Guarded b

structure Marks (a b : LQEntry) : Prop extends Stays a b where
  hasRequest : b.hasRequest = a.hasRequest
  outstanding : b.outstanding = a.outstanding
  effAddrValid : b.effAddrValid = a.effAddrValid

theorem Marks.refl (a : LQEntry) : Marks a a := ⟨⟨rfl, id, id, id⟩, rfl, rfl, rfl⟩

structure Advances (R : LQEntry → LQEntry → Prop) (u v : LSQUnit) : Prop where
  entries : ∀ b ∈ v.loadQueue, ∃ a ∈ u.loadQueue, R a b
  doomed : ∀ b ∈ v.loadQueue, Doomed u b → Doomed v b

section
variable {u v : LSQUnit} {a b : LQEntry}

theorem Advances.stays (h : Advances Marks u v) : Advances Stays u v :=
  ⟨fun b hb => (h.entries b hb).imp fun _ h => h.imp_right Marks.toStays, h.doomed⟩

theorem Advances.oldest (h : Advances Stays u v) (hab : b.inst = a.inst) (ha : Oldest u a) :
    Oldest v b := by
  intro c hc
  obtain ⟨d, hd, hdc⟩ := h.entries c hc
  rw [hab, hdc.inst]
  exact ha d hd

theorem Advances.doomed_of (h : Advances Stays u v) (hb : b ∈ v.loadQueue) (hab : b.inst = a.inst)
    (ha : Doomed u a) : Doomed v b := by
  apply h.doomed b hb
  rw [Doomed, hab]
  exact ha

theorem Kept.advance (h : Kept p m) {m' : Watch} (hadv : Advances Stays m.unit m'.unit)
    (hob : ∀ seq i t, m'.obtained seq i = some t → m.obtained seq i = some t)
    (hlast : m'.last = m.last) (hsnoops : m'.snoops = m.snoops)
    (hretired : ∀ r ∈ m'.unit.retired, r ∈ m.unit.retired ∨ r ∈ m.unit.loadQueue ∧ r.reExec = false ∧
      ¬ Doomed m.unit r ∧ ∀ ld ∈ m'.unit.loadQueue, r.inst.seqNum < ld.inst.seqNum) : Kept p m' := by
  have hinv : ∀ inst t, Invalidated p m' inst t → Invalidated p m inst t := by
    rintro inst t ⟨addr, hmem, hhit⟩
    exact ⟨addr, hsnoops ▸ hmem, hhit⟩
  have hpassed : ∀ a b, Passed p m' a b → Passed p m a b := by
    rintro a b ⟨i, j, t₁, t₂, t, hconf, h₂, h₁, ht, hlt₂, hlt₁⟩
    exact ⟨i, j, t₁, t₂, t, hconf, hob _ _ _ h₂, hob _ _ _ h₁, hinv b t ht, hlt₂, hlt₁⟩
  constructor
  case recent =>
    intro b hb
    obtain ⟨a, ha, hab⟩ := hadv.entries b hb
    rw [hab.inst, hlast]
    exact h.recent a ha
  case retiredFirst =>
    intro r hr
    rw [hlast]
    rcases hretired r hr with hr | ⟨hr, -, -, hfirst⟩
    · refine ⟨(h.retiredFirst r hr).1, fun b hb => ?_⟩
      obtain ⟨a, ha, hab⟩ := hadv.entries b hb
      rw [hab.inst]
      exact (h.retiredFirst r hr).2 a ha
    · exact ⟨h.recent r hr, hfirst⟩
  case seen =>
    intro b hb
    obtain ⟨a, ha, hab⟩ := hadv.entries b hb
    rw [hab.inst]
    intro j t₂ t ht₂ hlt ht
    exact (h.seen a ha j t₂ t (hob _ _ _ ht₂) hlt (hinv _ _ ht)).imp (hadv.oldest hab.inst)
      (Or.imp hab.reExec hab.hit)
  case caught =>
    intro a ha b hb
    obtain ⟨b', hb', hbb⟩ := hadv.entries b hb
    rw [hbb.inst]
    intro hlt hp
    have hcaught : Doomed m.unit b' ∨ b'.reExec = true := by
      rcases ha with ha | ha
      · obtain ⟨a', ha', haa⟩ := hadv.entries a ha
        rw [haa.inst] at hlt hp
        exact h.caught a' (.inl ha') b' hb' hlt (hpassed _ _ hp)
      · rcases hretired a ha with ha | ⟨ha, -⟩
        · exact h.caught a (.inr ha) b' hb' hlt (hpassed _ _ hp)
        · exact h.caught a (.inl ha) b' hb' hlt (hpassed _ _ hp)
    exact hcaught.imp (hadv.doomed_of hb hbb.inst) hbb.reExec
  case safe =>
    intro a ha b hb hlt hp
    rcases hretired b hb with hb | ⟨hb, hre, hnot, -⟩
    · rcases hretired a ha with ha | ⟨ha, -⟩
      · exact h.safe a ha b hb hlt (hpassed _ _ hp)
      · exact absurd ((h.retiredFirst b hb).2 a ha) hlt.not_gt
    · have ha : a ∈ m.unit.loadQueue ∨ a ∈ m.unit.retired := by
        rcases hretired a ha with ha | ⟨ha, -⟩
        · exact .inr ha
        · exact .inl ha
      rcases h.caught a ha b hb hlt (hpassed _ _ hp) with hd | hre'
      · exact hnot hd
      · simp [hre] at hre'

theorem Kept.forget (h : Kept p m) {m' : Watch} (hunit : m'.unit = m.unit)
    (hob : ∀ seq i t, m'.obtained seq i = some t → m.obtained seq i = some t)
    (hlast : m'.last = m.last) (hsnoops : m'.snoops = m.snoops) : Kept p m' :=
  h.advance (hunit ▸ ⟨fun b hb => ⟨b, hb, (Marks.refl b).toStays⟩, fun _ _ => id⟩) hob hlast hsnoops
    fun _ hr => .inl (hunit ▸ hr)

theorem Inv.tick (h : Inv p m) : Inv p { m with clock := m.clock + 1 } :=
  { h with
    toKept := h.toKept.forget rfl (fun _ _ _ => id) rfl rfl
    accessedAt := fun seq => Nat.le_succ_of_le (h.accessedAt seq)
    obtainedAt := fun seq i t ht =>
      ⟨Nat.lt_succ_of_lt (h.obtainedAt seq i t ht).1, (h.obtainedAt seq i t ht).2⟩
    snoopedAt := fun x hx => Nat.lt_succ_of_lt (h.snoopedAt x hx) }

theorem Inv.advance (h : Inv p m) (hadv : Advances Marks m.unit v) (hloads : LoadsWf v)
    (hretired : ∀ r ∈ v.retired, r ∈ m.unit.retired ∨ r ∈ m.unit.loadQueue ∧ r.reExec = false ∧
      ¬ Doomed m.unit r ∧ ∀ ld ∈ v.loadQueue, r.inst.seqNum < ld.inst.seqNum) :
    Inv p { m with unit := v } where
  toKept := h.toKept.advance hadv.stays (fun _ _ _ => id) rfl rfl hretired
  loads := hloads
  accessedAt := h.accessedAt
  obtainedAt := h.obtainedAt
  snoopedAt := h.snoopedAt
  live := by
    intro b hb
    obtain ⟨a, ha, hab⟩ := hadv.entries b hb
    rw [hab.outstanding, hab.hasRequest, hab.effAddrValid]
    exact h.live a ha
  answered := by
    intro b hb
    obtain ⟨a, ha, hab⟩ := hadv.entries b hb
    rw [hab.inst, hab.outstanding]
    exact h.answered a ha
  ordered := by
    intro b hb
    obtain ⟨a, ha, hab⟩ := hadv.entries b hb
    rw [hab.inst, hab.effAddrValid]
    exact fun hso hvalid => hadv.stays.oldest hab.inst (h.ordered a ha hso hvalid)
  checked := by
    intro a ha b hb
    obtain ⟨a', ha', haa⟩ := hadv.entries a ha
    obtain ⟨b', hb', hbb⟩ := hadv.entries b hb
    rw [haa.inst, hbb.inst, hbb.effAddrValid]
    intro hlt hover hvalid hsince
    exact (h.checked a' ha' b' hb' hlt hover hvalid hsince).imp (hadv.stays.doomed_of hb hbb.inst)
      hbb.guarded

theorem Inv.snoop (h : Inv p m) {c : Nat} (hclock : c < m.clock) (addr : Addr)
    (hobtained : ∀ seq i t, m.obtained seq i = some t → t < c)
    (hmarked : ∀ ld ∈ m.unit.loadQueue, ld.outstanding = true →
      ld.inst.request.isCacheBlockHit (addr &&& p.cacheBlockMask) p.cacheBlockMask = true →
      Oldest m.unit ld ∨ ld.reExec = true ∨ ld.hitExternalSnoop = true) :
    Inv p { m with snoops := m.snoops ++ [(c, addr)] } := by
  have hinv : ∀ inst t, Invalidated p { m with snoops := m.snoops ++ [(c, addr)] } inst t →
      Invalidated p m inst t ∨ t = c ∧
        inst.request.isCacheBlockHit (addr &&& p.cacheBlockMask) p.cacheBlockMask = true := by
    rintro inst t ⟨addr', hmem, hhit⟩
    rcases List.mem_append.mp hmem with hmem | hmem
    · exact .inl ⟨addr', hmem, hhit⟩
    · cases List.mem_singleton.mp hmem
      exact .inr ⟨rfl, hhit⟩
  have hpassed : ∀ a b, Passed p { m with snoops := m.snoops ++ [(c, addr)] } a b → Passed p m a b := by
    rintro a b ⟨i, j, t₁, t₂, t, hconf, h₂, h₁, ht, hlt₂, hlt₁⟩
    rcases hinv b t ht with ht | ⟨rfl, -⟩
    · exact ⟨i, j, t₁, t₂, t, hconf, h₂, h₁, ht, hlt₂, hlt₁⟩
    · exact absurd (hobtained _ i t₁ h₁) hlt₁.not_gt
  exact { h with
    snoopedAt := by
      intro x hx
      rcases List.mem_append.mp hx with hx | hx
      · exact h.snoopedAt x hx
      · rw [List.mem_singleton.mp hx]
        exact hclock
    seen := by
      intro ld hld j t₂ t ht₂ hlt ht
      rcases hinv ld.inst t ht with ht | ⟨-, hhit⟩
      · exact h.seen ld hld j t₂ t ht₂ hlt ht
      · exact hmarked ld hld (h.answered ld hld j t₂ ht₂).1 hhit
    caught := fun a ha b hb hlt hp => h.caught a ha b hb hlt (hpassed _ _ hp)
    safe := fun a ha b hb hlt hp => h.safe a ha b hb hlt (hpassed _ _ hp) }

/-- A byte is obtained at the instant `c`. If a younger load passed this one, the last access of
this one has checked it. -/
theorem Inv.obtain (h : Inv p m) {c offset : Nat} {ld : LQEntry} (hclock : c < m.clock)
    (hsnoops : ∀ x ∈ m.snoops, x.1 ≤ c) (hld : ld ∈ m.unit.loadQueue) (hout : ld.outstanding = true)
    (hoffset : offset < ld.inst.request.size)
    (horder : ∀ ld' ∈ m.unit.loadQueue, ld.inst.seqNum < ld'.inst.seqNum →
      ∀ j < ld'.inst.request.size, Conflict p ld.inst ld'.inst offset j → (m.obtained ld'.inst.seqNum j).isSome →
      m.since ld'.inst.seqNum < m.accessed ld.inst.seqNum) :
    Inv p { m with
      obtained := update m.obtained ld.inst.seqNum
        (update (m.obtained ld.inst.seqNum) offset (some c)) } := by
  have hold : ∀ seq i t, update m.obtained ld.inst.seqNum
      (update (m.obtained ld.inst.seqNum) offset (some c)) seq i = some t →
      m.obtained seq i = some t ∨ seq = ld.inst.seqNum ∧ i = offset ∧ t = c := by
    intro seq i t ht
    by_cases hseq : seq = ld.inst.seqNum
    · subst hseq
      rw [update_self] at ht
      by_cases hi : i = offset
      · subst hi
        rw [update_self] at ht
        exact .inr ⟨rfl, rfl, (Option.some.inj ht).symm⟩
      · rw [update_of_ne hi] at ht
        exact .inl ht
    · rw [update_of_ne hseq] at ht
      exact .inl ht
  -- what passed the load was obtained before, and only the load itself may be the older one
  have hpassed : ∀ a b : DynInst, Passed p { m with
      obtained := update m.obtained ld.inst.seqNum
        (update (m.obtained ld.inst.seqNum) offset (some c)) } a b →
      Passed p m a b ∨ a.seqNum = ld.inst.seqNum ∧ ∃ j t₂ t, Conflict p a b offset j ∧
        m.obtained b.seqNum j = some t₂ ∧ t₂ < t ∧ Invalidated p m b t := by
    rintro a b ⟨i, j, t₁, t₂, t, hconf, h₂, h₁, ht, hlt₂, hlt₁⟩
    rcases hold _ _ _ h₂ with h₂' | ⟨-, -, rfl⟩
    · rcases hold _ _ _ h₁ with h₁' | ⟨hseq, rfl, -⟩
      · exact .inl ⟨i, j, t₁, t₂, t, hconf, h₂', h₁', ht, hlt₂, hlt₁⟩
      · exact .inr ⟨hseq, j, t₂, t, hconf, h₂', hlt₂, ht⟩
    · obtain ⟨addr, hmem, -⟩ := ht
      exact absurd (hsnoops _ hmem) hlt₂.not_ge
  exact { h with
    obtainedAt := by
      intro seq i t ht
      rcases hold seq i t ht with ht | ⟨rfl, -, rfl⟩
      · exact h.obtainedAt seq i t ht
      · exact ⟨hclock, h.recent ld hld⟩
    answered := by
      intro a ha i t ht
      rcases hold _ i t ht with ht | ⟨hseq, rfl, -⟩
      · exact h.answered a ha i t ht
      · rw [h.loads.eq_of_seqNum ha hld hseq]
        exact ⟨hout, hoffset⟩
    seen := by
      intro a ha j t₂ t ht₂ hlt ht
      rcases hold _ j t₂ ht₂ with ht₂ | ⟨-, -, rfl⟩
      · exact h.seen a ha j t₂ t ht₂ hlt ht
      · obtain ⟨addr, hmem, -⟩ := ht
        exact absurd (hsnoops _ hmem) hlt.not_ge
    caught := by
      intro a ha b hb hlt hp
      rcases hpassed _ _ hp with hp | ⟨hseq, j, t₂, t, hconf, ht₂, hlt₂, ht⟩
      · exact h.caught a ha b hb hlt hp
      · have haq : a ∈ m.unit.loadQueue := by
          refine ha.resolve_right fun hr => ?_
          exact absurd ((h.retiredFirst a hr).2 ld hld) (by rw [hseq]; exact Nat.lt_irrefl _)
        obtain rfl := h.loads.eq_of_seqNum haq hld hseq
        obtain ⟨hout', hj⟩ := h.answered b hb j t₂ ht₂
        have hvalid := (h.live b hb hout').2
        have hsince := horder b hb hlt j hj hconf (by rw [ht₂]; rfl)
        rcases h.checked a haq b hb hlt hconf.1 hvalid hsince with hd | hre | ⟨-, hhit⟩
        · exact .inl hd
        · exact .inr hre
        · rcases h.seen b hb j t₂ t ht₂ hlt₂ ht with hoft | hre | hhit'
          · exact absurd hlt (hoft a haq).not_gt
          · exact .inr hre
          · simp [hhit] at hhit'
    safe := by
      intro a ha b hb hlt hp
      rcases hpassed _ _ hp with hp | ⟨hseq, -⟩
      · exact h.safe a ha b hb hlt hp
      · exact absurd ((h.retiredFirst a ha).2 ld hld) (by rw [hseq]; exact Nat.lt_irrefl _) }

end

section
variable {u v : LSQUnit} {idx : Nat} {ld : LQEntry}

theorem advances_of_sameLoads (h : SameLoads u v) : Advances Marks u v where
  entries := fun b hb => ⟨b, h.loadQueue ▸ hb, .refl b⟩
  doomed := by
    intro b _
    rw [Doomed, Doomed, h.violators]
    exact id

theorem marks_possibleViolation (a : LQEntry) : Marks a { a with possibleLoadViolation := true } where
  inst := rfl
  hasRequest := rfl
  outstanding := rfl
  effAddrValid := rfl
  reExec := id
  hit := id
  guarded := Or.imp id fun h => ⟨rfl, h.2⟩

private theorem advances_checkViolations (hw : LoadsWf u) (loadIt : Nat) (inst : DynInst)
    (isLoad : Bool) : Advances Marks u (u.checkViolations p loadIt inst isLoad) where
  entries := by
    intro b hb
    obtain ⟨i, hi⟩ := exists_lookup_of_mem u.loadHead hb
    obtain ⟨a, ha, rfl | rfl, -⟩ := loadAt_checkViolations hw hi
    · exact ⟨b, mem_of_lookup ha, .refl b⟩
    · exact ⟨a, mem_of_lookup ha, marks_possibleViolation a⟩
  doomed := by
    rintro b - ⟨w, hw', hle⟩
    exact ⟨w, List.mem_append_left _ hw', hle⟩

private theorem advances_executeStore (hw : LoadsWf u) (idx : Nat) (outcome : Outcome) :
    Advances Marks u (u.executeStore p idx outcome) := by
  obtain ⟨w, hv, ⟨h, -⟩ | ⟨st, -, -, -, h⟩⟩ := executeStore_cases (p := p) u idx outcome
  · rw [h]
    exact advances_of_sameLoads hv.loads
  · rw [h]
    have hcheck := advances_checkViolations (p := p) (hv.loads.loadsWf hw) st.lqIt st.inst false
    rw [hv.eq] at hcheck ⊢
    exact { hcheck with }

theorem advances_modifyLoad {f : LQEntry → LQEntry} (hld : u.loadAt idx = some ld)
    (hmarks : Marks ld (f ld)) : Advances Marks u (u.modifyLoad idx f) where
  entries := by
    intro b hb
    obtain ⟨i, hi⟩ := exists_lookup_of_mem u.loadHead hb
    rcases loadAt_of_modifyLoad hld hi with ⟨-, rfl⟩ | ⟨-, hi⟩
    · exact ⟨ld, mem_of_lookup hld, hmarks⟩
    · exact ⟨b, mem_of_lookup hi, .refl b⟩
  doomed := fun _ _ => id

private theorem advances_squash (hw : LoadsWf u) (squashed_num : InstSeqNum) :
    Advances Marks u (u.squash squashed_num) := by
  have hold : ∀ b ∈ (u.squash squashed_num).loadQueue,
      b ∈ u.loadQueue ∧ b.inst.seqNum ≤ squashed_num := by
    intro b hb
    obtain ⟨i, hi⟩ := exists_lookup_of_mem (u.squash squashed_num).loadHead hb
    obtain ⟨hi, hle⟩ := loadAt_squash hw hi
    exact ⟨mem_of_lookup hi, hle⟩
  constructor
  · exact fun b hb => ⟨b, (hold b hb).1, .refl b⟩
  · rintro b hb ⟨w, hw', hle⟩
    obtain ⟨_, _, _, _, heq⟩ := squash_eq u squashed_num
    rw [heq]
    exact ⟨w, List.mem_filter.mpr ⟨hw', by simpa using hle.trans (hold b hb).2⟩, hle⟩

private theorem advances_checkSnoop (addr : Addr) : Advances Marks u (u.checkSnoop p addr) where
  entries := by
    intro b hb
    obtain ⟨i, hi⟩ := exists_lookup_of_mem (u.checkSnoop p addr).loadHead hb
    obtain ⟨a, ha, rfl | rfl | ⟨hplv, rfl⟩, -⟩ := loadAt_checkSnoop hi
    · exact ⟨b, mem_of_lookup ha, .refl b⟩
    · exact ⟨a, mem_of_lookup ha, ⟨rfl, fun _ => rfl, id, fun _ => .inl rfl⟩, rfl, rfl, rfl⟩
    · refine ⟨a, mem_of_lookup ha, ⟨rfl, id, fun _ => rfl, Or.imp id fun h => ?_⟩, rfl, rfl, rfl⟩
      simp [hplv] at h
  doomed := by
    intro b _
    unfold LSQUnit.checkSnoop
    split <;> exact id

theorem oldest_of_head (hw : LoadsWf u) (hld : u.loadAt u.loadHead = some ld) : Oldest u ld := by
  intro a ha
  obtain ⟨i, hi⟩ := exists_lookup_of_mem u.loadHead ha
  rcases Nat.eq_or_lt_of_le (bounds_of_lookup hi).1 with heq | hlt
  · rw [← heq] at hi
    cases hi.symm.trans hld
    exact le_rfl
  · exact (hw.lt hld hi hlt).le

theorem Inv.checkSnoop (h : Inv p m) (addr : Addr) : Inv p (m.step p (.checkSnoop addr)) := by
  have hadv : Advances Marks m.unit (m.unit.checkSnoop p addr) := advances_checkSnoop addr
  have hretired : (m.unit.checkSnoop p addr).retired = m.unit.retired := by
    unfold LSQUnit.checkSnoop
    split <;> rfl
  have h' := h.tick.advance hadv (h.loads.checkSnoop addr) fun r hr => .inl (hretired ▸ hr)
  refine h'.snoop (Nat.lt_succ_self m.clock) addr (fun seq i t ht => (h.obtainedAt seq i t ht).1) ?_
  intro b hb hout hhit
  obtain ⟨i, hi⟩ := exists_lookup_of_mem (m.unit.checkSnoop p addr).loadHead hb
  obtain ⟨a, ha, hmarked, hseen⟩ := loadAt_checkSnoop hi
  have hab : b.inst = a.inst ∧ b.outstanding = a.outstanding := by
    rcases hmarked with rfl | rfl | ⟨-, rfl⟩ <;> exact ⟨rfl, rfl⟩
  rw [hab.1] at hhit
  obtain ⟨hreq, hvalid⟩ := h.live a (mem_of_lookup ha) (hab.2 ▸ hout)
  rcases Nat.eq_or_lt_of_le (bounds_of_lookup ha).1 with heq | hlt
  · rw [← heq] at ha
    exact .inl (hadv.stays.oldest hab.1 (oldest_of_head h.loads ha))
  · cases hso : a.inst.strictlyOrdered with
    | true => exact .inl (hadv.stays.oldest hab.1 (h.ordered a (mem_of_lookup ha) hso hvalid))
    | false => exact .inr (hseen hlt hvalid hso hreq hhit)

theorem Inv.recvData (h : Inv p m) {offset : Nat} {byte : Byte} (hld : m.unit.loadAt idx = some ld)
    (hoffset : offset < ld.inst.request.size) (horder : AnswersInOrder p m (.recvData idx offset byte)) :
    Inv p (m.step p (.recvData idx offset byte)) := by
  have hadv : Advances Marks m.unit (m.unit.recvData idx offset byte) := by
    apply advances_modifyLoad hld
    split
    · exact ⟨⟨rfl, id, id, id⟩, rfl, rfl, rfl⟩
    · exact .refl ld
  have hloads : LoadsWf (m.unit.recvData idx offset byte) := by
    apply h.loads.modifyLoad
    intro ld
    split <;> rfl
  have hmem : ld ∈ m.unit.loadQueue := mem_of_lookup hld
  simp only [step, note, hld]
  split
  · next hlive =>
    have hout : ld.outstanding = true := (Bool.and_eq_true_iff.mp hlive).2
    have h' := h.tick.obtain (Nat.lt_succ_self m.clock)
      (fun x hx => (h.snoopedAt x hx).le) hmem hout hoffset (horder ld hld)
    exact h'.advance hadv hloads fun r hr => .inl hr
  · exact h.tick.advance hadv hloads fun r hr => .inl hr

theorem Inv.commit (h : Inv p m) {youngest_inst : InstSeqNum}
    (hviolators : ∀ w ∈ m.unit.violators, youngest_inst < w)
    (hre : ∀ ld ∈ m.unit.loadQueue, ld.inst.seqNum ≤ youngest_inst → ld.reExec = false) :
    Inv p (m.step p (.commit youngest_inst)) := by
  have hwf : LoadsWf (m.unit.commitStores youngest_inst) := { h.loads with }
  have hleft : ∀ b ∈ ((m.unit.commitStores youngest_inst).commitLoads youngest_inst).loadQueue,
      b ∈ m.unit.loadQueue ∧ youngest_inst < b.inst.seqNum := by
    intro b hb
    obtain ⟨i, hi⟩ := exists_lookup_of_mem _ hb
    obtain ⟨hi, hlt⟩ := loadAt_commitLoads hwf hi
    exact ⟨mem_of_lookup hi, hlt⟩
  refine h.tick.advance ⟨fun b hb => ⟨b, (hleft b hb).1, .refl b⟩, fun b _ => id⟩
    (hwf.commitLoads youngest_inst) fun r hr => ?_
  rcases mem_committed hr with hr | ⟨hr, hle⟩
  · exact .inl hr
  · refine .inr ⟨hr, hre r hr hle, ?_, fun b hb => hle.trans_lt (hleft b hb).2⟩
    rintro ⟨w, hw, hwle⟩
    exact absurd (hwle.trans hle) (hviolators w hw).not_ge

theorem Inv.insertLoad (h : Inv p m) {inst : DynInst} (hnew : m.last < inst.seqNum) :
    Inv p (m.step p (.insertLoad inst)) := by
  have hold : ∀ n, n ≤ m.last → n < inst.seqNum := fun n hn => hn.trans_lt hnew
  have hmem : ∀ b ∈ (m.unit.insertLoad p inst).loadQueue, b ∈ m.unit.loadQueue ∨
      b = { inst, sqIt := m.unit.storeEnd } := by
    intro b hb
    exact (List.mem_append.mp hb).imp id List.mem_singleton.mp
  have hnone : ∀ i t, m.obtained inst.seqNum i ≠ some t := by
    intro i t ht
    exact absurd (h.obtainedAt _ i t ht).2 hnew.not_ge
  have holdest : ∀ ld ∈ m.unit.loadQueue, Oldest m.unit ld → Oldest (m.unit.insertLoad p inst) ld := by
    intro ld hld hoft b hb
    rcases hmem b hb with hb | rfl
    · exact hoft b hb
    · exact (hold _ (h.recent ld hld)).le
  constructor
  case toKept =>
    constructor
    case recent =>
      intro b hb
      rcases hmem b hb with hb | rfl
      · exact (hold _ (h.recent b hb)).le
      · exact le_rfl
    case retiredFirst =>
      intro r hr
      refine ⟨(hold _ (h.retiredFirst r hr).1).le, fun b hb => ?_⟩
      rcases hmem b hb with hb | rfl
      · exact (h.retiredFirst r hr).2 b hb
      · exact hold _ (h.retiredFirst r hr).1
    case seen =>
      intro b hb j t₂ t ht₂ hlt ht
      rcases hmem b hb with hb | rfl
      · exact (h.seen b hb j t₂ t ht₂ hlt ht).imp (holdest b hb) id
      · exact absurd ht₂ (hnone j t₂)
    case caught =>
      intro a ha b hb hlt hp
      rcases hmem b hb with hb | rfl
      · rcases ha with ha | ha
        · rcases hmem a ha with ha | rfl
          · exact h.caught a (.inl ha) b hb hlt hp
          · exact absurd hlt (hold _ (h.recent b hb)).not_gt
        · exact h.caught a (.inr ha) b hb hlt hp
      · obtain ⟨i, j, t₁, t₂, t, -, ht₂, -⟩ := hp
        exact absurd ht₂ (hnone j t₂)
    case safe => exact h.safe
  case loads => exact h.loads.insertLoad fun ld hld => hold _ (h.recent ld hld)
  case accessedAt => exact fun seq => Nat.le_succ_of_le (h.accessedAt seq)
  case obtainedAt =>
    intro seq i t ht
    obtain ⟨hlt, hle⟩ := h.obtainedAt seq i t ht
    exact ⟨Nat.lt_succ_of_lt hlt, (hold _ hle).le⟩
  case snoopedAt => exact fun x hx => Nat.lt_succ_of_lt (h.snoopedAt x hx)
  case live =>
    intro b hb hout
    rcases hmem b hb with hb | rfl
    · exact h.live b hb hout
    · cases hout
  case answered =>
    intro b hb i t ht
    rcases hmem b hb with hb | rfl
    · exact h.answered b hb i t ht
    · exact absurd ht (hnone i t)
  case ordered =>
    intro b hb hso hvalid
    rcases hmem b hb with hb | rfl
    · exact holdest b hb (h.ordered b hb hso hvalid)
    · cases hvalid
  case checked =>
    intro a ha b hb hlt hover hvalid hsince
    rcases hmem b hb with hb | rfl
    · rcases hmem a ha with ha | rfl
      · exact h.checked a ha b hb hlt hover hvalid hsince
      · exact absurd hlt (hold _ (h.recent b hb)).not_gt
    · cases hvalid

end

section
variable {u : LSQUnit} {idx : Nat} {ld : LQEntry} {isAtCommit accepted : Bool}

theorem obtained_of_kept {kept : Bool} {seq seq' : InstSeqNum} {i t : Nat}
    (ht : (if kept then m.obtained else update m.obtained seq fun _ => none) seq' i = some t) :
    m.obtained seq' i = some t := by
  split at ht
  · exact ht
  · by_cases hseq : seq' = seq
    · rw [hseq, update_self] at ht
      cases ht
    · rwa [update_of_ne hseq] at ht

theorem Inv.forget (h : Inv p m) {obtained : InstSeqNum → Nat → Option Nat}
    (hob : ∀ seq i t, obtained seq i = some t → m.obtained seq i = some t) :
    Inv p { m with obtained } :=
  { h with
    toKept := h.toKept.forget rfl hob rfl rfl
    obtainedAt := fun seq i t ht => h.obtainedAt seq i t (hob seq i t ht)
    answered := fun b hb i t ht => h.answered b hb i t (hob _ i t ht) }

private theorem live_accessed (hlive : ld.outstanding = true → ld.hasRequest = true)
    (hout : (u.accessed idx isAtCommit accepted ld).outstanding = true) :
    (u.accessed idx isAtCommit accepted ld).hasRequest = true ∧
      (u.accessed idx isAtCommit accepted ld).effAddrValid = true := by
  unfold LSQUnit.accessed at hout ⊢
  generalize u.readResult idx ld isAtCommit = r at hout ⊢
  cases r with
  | strictlyOrdered => cases hout
  | localAccess => exact ⟨rfl, rfl⟩
  | forwarded _ _ => cases hout
  | rescheduled _ => cases hout
  | panicked => exact ⟨hlive hout, rfl⟩
  | memory => exact ⟨rfl, rfl⟩

theorem marks_accessed (u : LSQUnit) (idx : Nat) (isAtCommit accepted : Bool) (ld : LQEntry) :
    let e := u.accessed idx isAtCommit accepted ld
    e.reExec = ld.reExec ∧ e.hitExternalSnoop = ld.hitExternalSnoop ∧
      e.possibleLoadViolation = ld.possibleLoadViolation := by
  unfold LSQUnit.accessed
  cases u.readResult idx ld isAtCommit <;> exact ⟨rfl, rfl, rfl⟩

private theorem head_of_accessed (hso : ld.inst.strictlyOrdered = true)
    (hvalid : (u.accessed idx isAtCommit accepted ld).effAddrValid = true) : idx = u.loadHead := by
  by_contra hne
  have hres : u.readResult idx ld isAtCommit = .strictlyOrdered := by
    exact if_pos (by simpa [DynInst.strictlyOrdered, hne] using hso)
  rw [LSQUnit.accessed, hres] at hvalid
  cases hvalid

theorem entries_accessed (hw : LoadsWf u) (hld : u.loadAt idx = some ld)
    (hcheck : p.checkLoads = true) {v : LSQUnit} {e : LQEntry}
    (he : u.accessed idx isAtCommit accepted ld = e)
    (hv : v = if p.checkLoads && e.effAddrValid then
        (u.access idx isAtCommit accepted).checkViolations p (idx + 1) ld.inst true
      else u.access idx isAtCommit accepted) :
    (∀ b ∈ v.loadQueue, Marks e b ∨
      ∃ a ∈ u.loadQueue, a.inst.seqNum ≠ ld.inst.seqNum ∧ Marks a b ∧
        (e.effAddrValid = true → ld.inst.seqNum < a.inst.seqNum → a.effAddrValid = true →
          a.inst.strictlyOrdered = false → ld.inst.granulesOverlap p.depCheckShift a.inst = true →
          Doomed v b ∨ Guarded b)) ∧
      (∀ b, Doomed u b → Doomed v b) ∧ v.retired = u.retired := by
  have hread : ReadFrame u (u.access idx isAtCommit accepted) := readFrame_access
  have hother : ∀ i a, i ≠ idx → u.loadAt i = some a →
      a.inst.seqNum ≠ ld.inst.seqNum ∧ (ld.inst.seqNum < a.inst.seqNum → idx + 1 ≤ i) := by
    intro i a hne ha
    rcases Nat.lt_or_gt_of_ne hne with hlt | hlt
    · have h := hw.lt ha hld hlt
      exact ⟨h.ne, fun h' => absurd h' h.not_gt⟩
    · exact ⟨(hw.lt hld ha hlt).ne', fun _ => hlt⟩
  subst hv he
  rw [hcheck]
  split
  · next hvalid =>
    refine ⟨fun b hb => ?_, ?_, hread.retired⟩
    · obtain ⟨i, hi⟩ := exists_lookup_of_mem _ hb
      obtain ⟨a, ha, hmarked, hfound⟩ := loadAt_checkViolations (hread.loadsWf hw) hi
      have hmarks : Marks a b := by
        rcases hmarked with rfl | rfl
        · exact .refl b
        · exact marks_possibleViolation a
      have hhit : b.hitExternalSnoop = a.hitExternalSnoop := by rcases hmarked with rfl | rfl <;> rfl
      rcases loadAt_of_access hld ha with ⟨rfl, rfl⟩ | ⟨hne, ha⟩
      · exact .inl hmarks
      · obtain ⟨hseq, hbehind⟩ := hother i a hne ha
        refine .inr ⟨a, mem_of_lookup ha, hseq, hmarks, fun _ hlt hvalid' hso hover => ?_⟩
        refine (hfound (hbehind hlt) hvalid' hso hover).imp (fun hd => ?_) fun ⟨_, hplv, hhit'⟩ =>
          .inr ⟨hplv, hhit.trans hhit'⟩
        rw [Doomed, hmarks.inst]
        exact hd
    · rintro b ⟨w, hw', hle⟩
      exact ⟨w, List.mem_append_left _ (hread.violators ▸ hw'), hle⟩
  · next hvalid =>
    refine ⟨fun b hb => ?_, ?_, hread.retired⟩
    · obtain ⟨i, hi⟩ := exists_lookup_of_mem (u.access idx isAtCommit accepted).loadHead hb
      rcases loadAt_of_access hld hi with ⟨rfl, rfl⟩ | ⟨hne, hi⟩
      · exact .inl (.refl _)
      · exact .inr ⟨b, mem_of_lookup hi, (hother i b hne hi).1, .refl b, fun h => absurd h hvalid⟩
    · intro b
      rw [Doomed, Doomed, hread.violators]
      exact id

structure AccessNotes (m m' : Watch) (ld e : LQEntry) : Prop where
  obtained : ∀ seq i t, m'.obtained seq i = some t → m.obtained seq i = some t
  kept : ∀ i t, m'.obtained ld.inst.seqNum i = some t → e.outstanding = true
  since : ∀ seq, seq ≠ ld.inst.seqNum ∨ ld.effAddrValid = true → m'.since seq = m.since seq
  sinceNow : ld.effAddrValid = false → e.effAddrValid = true → m'.since ld.inst.seqNum = m.clock
  accessed : ∀ seq, seq ≠ ld.inst.seqNum ∨ e.effAddrValid = false → m'.accessed seq = m.accessed seq
  accessedAt : ∀ seq, m'.accessed seq ≤ m.clock
  last : m'.last = m.last
  snoops : m'.snoops = m.snoops

theorem accessNotes (h : Inv p m) (ld ld' : LQEntry) :
    AccessNotes m (m.noteExecution .accessed ld ld') ld ld' where
  obtained := fun seq i t ht => obtained_of_kept ht
  kept := by
    intro i t ht
    dsimp only [noteExecution] at ht
    split at ht
    · next hout => exact hout
    · rw [update_self] at ht
      cases ht
  since := by
    intro seq hseq
    dsimp only [noteExecution]
    split
    · next hnow =>
      have hvalid : ld.effAddrValid = false := by simpa using (Bool.and_eq_true_iff.mp hnow).1
      exact update_of_ne (hseq.resolve_right (by simp [hvalid])) _ _
    · rfl
  sinceNow := by
    intro hvalid hvalid'
    dsimp only [noteExecution]
    rw [if_pos (by simp [hvalid, hvalid']), update_self]
  accessed := by
    intro seq hseq
    dsimp only [noteExecution]
    split
    · next hnow =>
      have hvalid := (Bool.and_eq_true_iff.mp hnow).2
      exact update_of_ne (hseq.resolve_right (by simp [hvalid])) _ _
    · rfl
  accessedAt := by
    intro seq
    dsimp only [noteExecution]
    split
    · by_cases hseq : seq = ld.inst.seqNum
      · rw [hseq, update_self]
      · rw [update_of_ne hseq]
        exact h.accessedAt seq
    · exact h.accessedAt seq
  last := rfl
  snoops := rfl

theorem Inv.access (h : Inv p m) (hcheck : p.checkLoads = true) (hld : m.unit.loadAt idx = some ld)
    {v : LSQUnit} {e : LQEntry} (he : m.unit.accessed idx isAtCommit accepted ld = e)
    (hv : v = if p.checkLoads && e.effAddrValid then
        (m.unit.access idx isAtCommit accepted).checkViolations p (idx + 1) ld.inst true
      else m.unit.access idx isAtCommit accepted) (hloads : LoadsWf v) {m' : Watch}
    (hnotes : AccessNotes m m' ld e) :
    Inv p { m' with unit := v, clock := m.clock + 1 } := by
  obtain ⟨hentries, hdoomed, hretired⟩ := entries_accessed h.loads hld hcheck he hv
  have hmem : ld ∈ m.unit.loadQueue := mem_of_lookup hld
  have hinst : e.inst = ld.inst := he ▸ inst_accessed
  have hlive : e.outstanding = true → e.hasRequest = true ∧ e.effAddrValid = true :=
    he ▸ live_accessed fun hout => (h.live ld hmem hout).1
  have hhead : ld.inst.strictlyOrdered = true → e.effAddrValid = true → idx = m.unit.loadHead :=
    he ▸ head_of_accessed
  obtain ⟨hre, hhit, hplv⟩ := he ▸ marks_accessed m.unit idx isAtCommit accepted ld
  have hguarded : Guarded ld → Guarded e := by
    rw [Guarded, Guarded, hre, hhit, hplv]
    exact id
  have hadv : Advances Stays m.unit v := by
    refine ⟨fun b hb => ?_, fun b _ => hdoomed b⟩
    rcases hentries b hb with hmarks | ⟨a, ha, -, hmarks, -⟩
    · exact ⟨ld, hmem, hmarks.inst.trans hinst, fun h => hmarks.reExec (hre.trans h),
        fun h => hmarks.hit (hhit.trans h), fun h => hmarks.guarded (hguarded h)⟩
    · exact ⟨a, ha, hmarks.toStays⟩
  constructor
  case toKept =>
    exact h.toKept.advance hadv hnotes.obtained hnotes.last hnotes.snoops fun r hr =>
      .inl (hretired ▸ hr)
  case loads => exact hloads
  case accessedAt => exact fun seq => Nat.le_succ_of_le (hnotes.accessedAt seq)
  case obtainedAt =>
    intro seq i t ht
    obtain ⟨hlt, hle⟩ := h.obtainedAt seq i t (hnotes.obtained seq i t ht)
    exact ⟨Nat.lt_succ_of_lt hlt, hle.trans_eq hnotes.last.symm⟩
  case snoopedAt => exact fun x hx => Nat.lt_succ_of_lt (h.snoopedAt x (hnotes.snoops ▸ hx))
  case live =>
    intro b hb hout
    rcases hentries b hb with hmarks | ⟨a, ha, -, hmarks, -⟩
    · rw [hmarks.hasRequest, hmarks.effAddrValid]
      exact hlive (hmarks.outstanding ▸ hout)
    · rw [hmarks.hasRequest, hmarks.effAddrValid]
      exact h.live a ha (hmarks.outstanding ▸ hout)
  case answered =>
    intro b hb i t ht
    rcases hentries b hb with hmarks | ⟨a, ha, -, hmarks, -⟩
    · rw [hmarks.inst, hinst] at ht
      rw [hmarks.outstanding, hmarks.inst, hinst]
      exact ⟨hnotes.kept i t ht, (h.answered ld hmem i t (hnotes.obtained _ _ _ ht)).2⟩
    · rw [hmarks.inst] at ht
      rw [hmarks.outstanding, hmarks.inst]
      exact h.answered a ha i t (hnotes.obtained _ _ _ ht)
  case ordered =>
    intro b hb hso hvalid
    rcases hentries b hb with hmarks | ⟨a, ha, -, hmarks, -⟩
    · have hb' := hmarks.inst.trans hinst
      have hidx := hhead (hb' ▸ hso) (hmarks.effAddrValid ▸ hvalid)
      exact hadv.oldest hb' (oldest_of_head h.loads (hidx ▸ hld))
    · exact hadv.oldest hmarks.inst
        (h.ordered a ha (hmarks.inst ▸ hso) (hmarks.effAddrValid ▸ hvalid))
  case checked =>
    intro a ha b hb hlt hover hvalid hsince
    rcases hentries b hb with hbm | ⟨b', hb', hbne, hbm, hfound⟩
    · -- the younger one is the load that was accessed; it has become valid just now or keeps
      -- the marks it had
      have hbi := hbm.inst.trans hinst
      rcases hentries a ha with ham | ⟨a', ha', hane, ham, -⟩
      · rw [ham.inst, hinst, hbi] at hlt
        exact absurd hlt (Nat.lt_irrefl _)
      · rw [ham.inst, hbi] at hlt hover hsince
        cases hld_valid : ld.effAddrValid with
        | false =>
          rw [hnotes.sinceNow hld_valid (hbm.effAddrValid ▸ hvalid)] at hsince
          exact absurd (hnotes.accessedAt a'.inst.seqNum) hsince.not_ge
        | true =>
          rw [hnotes.since _ (.inr hld_valid), hnotes.accessed _ (.inl hane)] at hsince
          exact (h.checked a' ha' ld hmem hlt hover hld_valid hsince).imp (hadv.doomed_of hb hbi)
            fun hg => hbm.guarded (hguarded hg)
    · rw [hbm.inst] at hlt hover hsince
      rw [hbm.effAddrValid] at hvalid
      rw [hnotes.since _ (.inl hbne)] at hsince
      rcases hentries a ha with ham | ⟨a', ha', hane, ham, -⟩
      · -- the older one is that load; a strictly ordered load would be older than it
        rw [ham.inst, hinst] at hlt hover hsince
        cases he_valid : e.effAddrValid with
        | true =>
          cases hso : b'.inst.strictlyOrdered with
          | true => exact absurd hlt (h.ordered b' hb' hso hvalid ld hmem).not_gt
          | false => exact hfound he_valid hlt hvalid hso hover
        | false =>
          rw [hnotes.accessed _ (.inr he_valid)] at hsince
          exact (h.checked ld hmem b' hb' hlt hover hvalid hsince).imp (hadv.doomed_of hb hbm.inst)
            hbm.guarded
      · rw [ham.inst] at hlt hover hsince
        rw [hnotes.accessed _ (.inl hane)] at hsince
        exact (h.checked a' ha' b' hb' hlt hover hvalid hsince).imp (hadv.doomed_of hb hbm.inst)
          hbm.guarded

private theorem loadAt_of_seqNums {v : LSQUnit} (hhead : v.loadHead = u.loadHead)
    (hmap : v.loadQueue.map (·.inst.seqNum) = u.loadQueue.map (·.inst.seqNum))
    (hld : u.loadAt idx = some ld) :
    ∃ b, v.loadAt idx = some b ∧ b.inst.seqNum = ld.inst.seqNum := by
  rw [LSQUnit.loadAt, hhead]
  exact lookup_of_map_eq hmap hld

theorem Inv.executeLoad (h : Inv p m) (hcheck : p.checkLoads = true) (idx : Nat) (outcome : Outcome)
    (isAtCommit accepted : Bool) :
    Inv p (m.step p (.executeLoad idx outcome isAtCommit accepted)) := by
  have hloads := h.loads.executeLoad (p := p) idx outcome isAtCommit accepted
  have hforget : ∀ ld : LQEntry, Inv p { m with
      clock := m.clock + 1
      obtained := if ld.outstanding then m.obtained
        else update m.obtained ld.inst.seqNum fun _ => none } :=
    fun ld => h.tick.forget fun seq i t ht => obtained_of_kept ht
  simp only [step, note, Lsq.step]
  rcases executeLoad_cases (p := p) m.unit idx outcome isAtCommit accepted with
    ⟨hno, heq⟩ | ⟨ld, hld, -, hno, heq⟩ | ⟨ld, hld, hex, hre, rfl, heq⟩
  · rw [heq]
    cases hld : m.unit.loadAt idx with
    | none => exact h.tick
    | some ld =>
      have hacc : (outcome == .accessed && !ld.isExecuted && !ld.reExec && ld.effAddrValid) = false := by
        rcases hno ld hld with hex | rfl
        · simp [hex]
        · rfl
      simp only [noteExecution, hacc, Bool.not_and_self, Bool.false_eq_true, ↓reduceIte]
      exact hforget ld
  · rw [heq]
    have hld' : (m.unit.modifyLoad idx fun ld => { ld with isExecuted := true }).loadAt idx =
        some { ld with isExecuted := true } :=
      (loadAt_modifyLoad hld _ idx).trans (if_pos rfl)
    have hacc : (outcome == .accessed && !ld.isExecuted && !ld.reExec && ld.effAddrValid) = false := by
      rcases hno with rfl | hre
      · rfl
      · simp [hre]
    simp only [hld, hld', noteExecution, hacc, Bool.not_and_self, Bool.false_eq_true, ↓reduceIte]
    apply (hforget ld).advance
    · exact advances_modifyLoad hld ⟨⟨rfl, id, id, id⟩, rfl, rfl, rfl⟩
    · exact h.loads.modifyLoad idx fun _ => rfl
    · exact fun r hr => .inl hr
  · have hread : ReadFrame m.unit (m.unit.access idx isAtCommit accepted) :=
      readFrame_access
    obtain ⟨ld', hld', hseq⟩ : ∃ b,
        (m.unit.executeLoad p idx .accessed isAtCommit accepted).loadAt idx = some b ∧
          b.inst.seqNum = ld.inst.seqNum := by
      rw [heq]
      split
      · exact loadAt_of_seqNums hread.loadHead
          (((hread.loadsWf h.loads).map_seqNum_checkViolations _ _ _).trans hread.seqNums) hld
      · exact loadAt_of_seqNums hread.loadHead hread.seqNums hld
    -- the check does not look at the load itself, so its entry is that of the access
    have hmarks : Marks (m.unit.accessed idx isAtCommit accepted ld) ld' := by
      rcases (entries_accessed h.loads hld hcheck rfl heq).1 ld' (mem_of_lookup hld') with hm | ⟨a, -, hne, hm, -⟩
      · exact hm
      · exact absurd (hm.inst ▸ hseq) hne
    have hnotes := accessNotes h ld ld'
    simp only [hld, hld']
    refine h.access hcheck hld rfl heq hloads { hnotes with kept := ?_, sinceNow := ?_, accessed := ?_ }
    · exact hmarks.outstanding ▸ hnotes.kept
    · exact hmarks.effAddrValid ▸ hnotes.sinceNow
    · exact hmarks.effAddrValid ▸ hnotes.accessed

end

theorem Inv.step (h : Inv p m) (hcheck : p.checkLoads = true) {e : Event} (he : m.Allowed e)
    (horder : AnswersInOrder p m e) : Inv p (m.step p e) := by
  have hsame : ∀ v : LSQUnit, SameLoads m.unit v →
      Inv p { m with unit := v, clock := m.clock + 1 } := fun v hv =>
    h.tick.advance (advances_of_sameLoads hv) (hv.loadsWf h.loads) fun r hr => .inl (hv.retired ▸ hr)
  cases e with
  | insertLoad inst => exact h.insertLoad he
  | insertStore inst => exact hsame _ rfl
  | executeLoad idx outcome isAtCommit accepted => exact h.executeLoad hcheck idx outcome _ _
  | executeStore idx outcome =>
    refine h.tick.advance (advances_executeStore h.loads idx outcome) (h.loads.executeStore idx outcome) ?_
    intro r hr
    obtain ⟨w, hw, ⟨heq, -⟩ | ⟨st, -, -, -, heq⟩⟩ := executeStore_cases (p := p) m.unit idx outcome
    · exact .inl (hw.loads.retired ▸ heq ▸ hr)
    · change r ∈ (m.unit.executeStore p idx outcome).retired at hr
      rw [heq] at hr
      exact .inl (hw.loads.retired ▸ hr)
  | recvData idx offset byte =>
    obtain ⟨ld, hld, hoffset⟩ := he
    exact h.recvData hld hoffset horder
  | writeback idx =>
    obtain ⟨ld, hld⟩ := Option.isSome_iff_exists.mp he
    exact h.tick.advance (advances_modifyLoad hld ⟨⟨rfl, id, id, id⟩, rfl, rfl, rfl⟩)
      (h.loads.modifyLoad idx fun _ => rfl) fun r hr => .inl hr
  | getMemDepViolator =>
    exact h.tick.advance ⟨fun b hb => ⟨b, hb, .refl b⟩, fun _ _ => id⟩
      ⟨h.loads.sorted, fun _ hw => by cases hw⟩ fun r hr => .inl hr
  | checkSnoop addr => exact h.checkSnoop addr
  | commit youngest => exact h.commit he.1 he.2
  | writebackStores blocked answers => exact hsame _ (sameLoads_writebackStores blocked answers)
  | recvRetry blocked => exact hsame _ (sameLoads_writebackBlockedStore blocked)
  | completeStore idx => exact hsame _ (sameLoads_completeStore idx)
  | squash squashed_num =>
    refine h.tick.advance (advances_squash h.loads squashed_num) (h.loads.squash squashed_num) ?_
    intro r hr
    obtain ⟨_, _, _, _, heq⟩ := squash_eq m.unit squashed_num
    change r ∈ (m.unit.squash squashed_num).retired at hr
    rw [heq] at hr
    exact .inl hr

/-- If the cache answers in order, a load that obtained data before an invalidation of its
block, while an older one of the same granule obtained data after it, does not commit: a
violator at or before it is recorded, or it is marked for execution again. -/
theorem passed_load_not_committed (p : Params) (hcheck : p.checkLoads = true) (events : List Event)
    (hl : Legal (step p) (fun m e => m.Allowed e ∧ AnswersInOrder p m e) {} events) :
    let m := run (step p) {} events
    ∀ a, a ∈ m.unit.loadQueue ∨ a ∈ m.unit.retired → ∀ b, b ∈ m.unit.loadQueue ∨ b ∈ m.unit.retired →
      a.inst.seqNum < b.inst.seqNum → Passed p m a.inst b.inst →
      b ∉ m.unit.retired ∧ (Doomed m.unit b ∨ b.reExec = true) := by
  intro m a ha b hb hlt hp
  have h : Inv p m :=
    run_inv (Inv p) (fun _ _ h he => h.step hcheck he.1 he.2) events inv_start hl
  have hnot : b ∉ m.unit.retired := by
    intro hr
    rcases ha with ha | ha
    · exact absurd ((h.retiredFirst b hr).2 a ha) (Nat.not_lt.mpr (Nat.le_of_lt hlt))
    · exact h.safe a ha b hr hlt hp
  exact ⟨hnot, h.caught a ha b (hb.resolve_right hnot) hlt hp⟩

/-- The younger load reads, its block is invalidated, and the older load finds it. -/
theorem passed_load_not_committed_found :
    let p : Params := { depCheckShift := 4, lqEntries := 4, sqEntries := 4 }
    let request : Request := { vaddr := 64, size := 1, paddrs := [64] }
    let events : List Event := [.insertLoad { seqNum := 1, request },
      .insertLoad { seqNum := 2, request }, .executeLoad 2 .accessed false true, .recvData 2 0 7,
      .checkSnoop 64, .executeLoad 1 .accessed false true, .recvData 1 0 8]
    let m := run (step p) {} events
    Legal (step p) (fun m e => m.Allowed e ∧ AnswersInOrder p m e) {} events ∧
      ∃ a ∈ m.unit.loadQueue, ∃ b ∈ m.unit.loadQueue, a.inst.seqNum < b.inst.seqNum ∧
        Passed p m a.inst b.inst ∧ b ∉ m.unit.retired ∧
        (Doomed m.unit b ∨ b.reExec = true) := by
  intro p request events m
  have hl : Legal (step p) (fun m e => m.Allowed e ∧ AnswersInOrder p m e) {} events := by
    decide +kernel
  obtain ⟨a, ha, b, hb, hlt, hconf, h₂, h₁, hhit⟩ : ∃ a ∈ m.unit.loadQueue, ∃ b ∈ m.unit.loadQueue,
      a.inst.seqNum < b.inst.seqNum ∧ Conflict p a.inst b.inst 0 0 ∧
        m.obtained b.inst.seqNum 0 = some 3 ∧ m.obtained a.inst.seqNum 0 = some 6 ∧
        b.inst.request.isCacheBlockHit (64 &&& p.cacheBlockMask) p.cacheBlockMask = true := by
    decide +kernel
  have hp : Passed p m a.inst b.inst :=
    ⟨0, 0, 6, 3, 4, hconf, h₂, h₁, ⟨64, by decide +kernel, hhit⟩, by decide, by decide⟩
  exact ⟨hl, a, ha, b, hb, hlt, hp,
    passed_load_not_committed p rfl events hl a (Or.inl ha) b (Or.inl hb) hlt hp⟩

/-- If the cache answers the younger load first although the older one was there before, the
check of the older load has come too early and both commit. -/
theorem passed_load_committed :
    let p : Params := { depCheckShift := 4, lqEntries := 4, sqEntries := 4 }
    let request : Request := { vaddr := 64, size := 1, paddrs := [64] }
    let events : List Event := [.insertLoad { seqNum := 1, request },
      .insertLoad { seqNum := 2, request }, .executeLoad 1 .accessed false true,
      .executeLoad 2 .accessed false true, .recvData 2 0 7, .checkSnoop 64, .recvData 1 0 8,
      .writeback 1, .writeback 2, .commit 2]
    let m := run (step p) {} events
    p.checkLoads = true ∧ Legal (step p) Allowed {} events ∧
      ∃ a ∈ m.unit.retired, ∃ b ∈ m.unit.retired, a.inst.seqNum < b.inst.seqNum ∧
        Passed p m a.inst b.inst := by
  intro p request events m
  obtain ⟨a, ha, b, hb, hlt, hconf, h₂, h₁, hhit⟩ : ∃ a ∈ m.unit.retired, ∃ b ∈ m.unit.retired,
      a.inst.seqNum < b.inst.seqNum ∧ Conflict p a.inst b.inst 0 0 ∧
        m.obtained b.inst.seqNum 0 = some 4 ∧ m.obtained a.inst.seqNum 0 = some 6 ∧
        b.inst.request.isCacheBlockHit (64 &&& p.cacheBlockMask) p.cacheBlockMask = true := by
    decide +kernel
  exact ⟨rfl, by decide +kernel, a, ha, b, hb, hlt, 0, 0, 6, 4, 5, hconf, h₂, h₁,
    ⟨64, by decide +kernel, hhit⟩, by decide, by decide⟩

end Watch

end Gem5Core.O3.Lsq
