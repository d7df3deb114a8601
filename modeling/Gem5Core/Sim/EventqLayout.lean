import Mathlib.Data.Prod.Lex
import Gem5Core.Lib.Bins
import Gem5Core.Lib.LinkedList
import Gem5Core.Sim.Eventq

/-! The two-level list of the event queue as bins. A `nextBin` pointer means something
only on the top of a bin; every operation writes the pointer of a new top before it is
followed. -/
namespace Gem5Core.Sim.EventqLayout
open Eventq Lib.Bins Lib.LinkedList Function List

section

def key (heap : Heap) (event : EventPtr) : Nat ×ₗ Int :=
  toLex ((heap event).when, (heap event).priority)

variable {heap : Heap} {a b : EventPtr}

theorem lt_iff : (heap a).lt (heap b) = true ↔ key heap a < key heap b := by
  simp [Event.lt, key, Prod.Lex.toLex_lt_toLex]

theorem le_iff : (heap a).le (heap b) = true ↔ key heap a ≤ key heap b := by
  simp [Event.le, key, Prod.Lex.toLex_le_toLex]

theorem eq_iff : (heap a).eq (heap b) = true ↔ key heap a = key heap b := by
  simp [Event.eq, key, Prod.ext_iff]

end

section

variable {heap heap' heap'' : Heap} {e e' : EventPtr}

structure SameLinks (heap heap' : Heap) (e : EventPtr) : Prop where
  nextBin : (heap' e).nextBin = (heap e).nextBin
  nextInBin : (heap' e).nextInBin = (heap e).nextInBin

theorem SameLinks.of_eq (h : heap' e = heap e) : SameLinks heap heap' e :=
  ⟨congrArg _ h, congrArg _ h⟩

structure SameData (heap heap' : Heap) : Prop where
  when : ∀ e, (heap' e).when = (heap e).when
  priority : ∀ e, (heap' e).priority = (heap e).priority
  squashed : ∀ e, (heap' e).squashed = (heap e).squashed
  scheduled : ∀ e, (heap' e).scheduled = (heap e).scheduled

theorem SameData.refl (heap : Heap) : SameData heap heap :=
  ⟨fun _ => rfl, fun _ => rfl, fun _ => rfl, fun _ => rfl⟩

theorem SameData.trans (h : SameData heap heap') (h' : SameData heap' heap'') :
    SameData heap heap'' where
  when e := (h'.when e).trans (h.when e)
  priority e := (h'.priority e).trans (h.priority e)
  squashed e := (h'.squashed e).trans (h.squashed e)
  scheduled e := (h'.scheduled e).trans (h.scheduled e)

theorem SameData.key_eq (h : SameData heap heap') (e : EventPtr) : key heap' e = key heap e := by
  rw [key, key, h.when, h.priority]

@[simp] theorem modify_self (f : Event → Event) : heap.modify e f e = f (heap e) :=
  update_self ..

theorem modify_of_ne (f : Event → Event) (h : e' ≠ e) : heap.modify e f e' = heap e' :=
  update_of_ne h ..

theorem modify_apply (f : Event → Event) :
    heap.modify e f e' = if e' = e then f (heap e') else heap e' := by
  by_cases he : e' = e
  · rw [if_pos he, he, modify_self]
  · rw [if_neg he, modify_of_ne f he]

theorem sameData_modify (e : EventPtr) {f : Event → Event}
    (hf : f (heap e) = { heap e with nextBin := (f (heap e)).nextBin,
                                     nextInBin := (f (heap e)).nextInBin }) :
    SameData heap (heap.modify e f) := by
  constructor <;>
  · intro e'
    by_cases he : e' = e
    · rw [he, modify_self, hf]
    · rw [modify_of_ne f he]

theorem sameData_nextBin (heap : Heap) (e : EventPtr) (r : Option EventPtr) :
    SameData heap (heap.modify e fun ev => { ev with nextBin := r }) :=
  sameData_modify e rfl

theorem modify_nextBin_nextInBin (r : Option EventPtr) (e' : EventPtr) :
    (heap.modify e (fun ev => { ev with nextBin := r }) e').nextInBin = (heap e').nextInBin := by
  by_cases he : e' = e
  · rw [he, modify_self]
  · rw [modify_of_ne _ he]

private theorem modify_nextInBin_nextBin (r : Option EventPtr) (e' : EventPtr) :
    (heap.modify e (fun ev => { ev with nextInBin := r }) e').nextBin = (heap e').nextBin := by
  by_cases he : e' = e
  · rw [he, modify_self]
  · rw [modify_of_ne _ he]

end

/-- The heap holds these bins, the first one at `p`. -/
def Layout (heap : Heap) : Option EventPtr → List (Bin EventPtr) → Prop
  | p, [] => p = none
  | p, b :: bins =>
      p = some b.top ∧
        Seg (fun e => (heap e).nextInBin) (heap b.top).nextInBin b.rest none ∧
        Layout heap (heap b.top).nextBin bins

section

variable {heap heap' : Heap} {p r : Option EventPtr} {b : Bin EventPtr}
  {pre bins post post' : List (Bin EventPtr)}

theorem Layout.head_eq (h : Layout heap p bins) : p = bins.head?.map Bin.top := by
  cases bins with
  | nil => exact h
  | cons b bins => exact h.1

theorem Layout.congr (h : Layout heap p bins) (hsame : ∀ e ∈ items bins, SameLinks heap heap' e) :
    Layout heap' p bins := by
  induction bins generalizing p with
  | nil => exact h
  | cons b bins ih =>
    obtain ⟨hp, hstack, hbins⟩ := h
    have htop := hsame b.top (top_mem_items mem_cons_self)
    refine ⟨hp, ?_, ?_⟩
    · rw [htop.nextInBin]
      refine hstack.congr fun e he => (hsame e ?_).nextInBin
      exact mem_append_left _ (mem_cons_of_mem _ he)
    · rw [htop.nextBin]
      exact ih hbins fun e he => hsame e (mem_append_right _ he)

theorem Layout.behind (h : Layout heap p (pre ++ b :: post)) :
    Layout heap (heap b.top).nextBin post := by
  induction pre generalizing p with
  | nil => exact h.2.2
  | cons c pre ih => exact ih h.2.2

theorem Layout.replace (h : Layout heap p (pre ++ b :: post))
    (hnodup : (items (pre ++ b :: post')).Nodup)
    (hsame : ∀ e ∈ items (pre ++ [b]), SameLinks heap heap' e) (hpost : Layout heap' r post') :
    Layout (heap'.modify b.top fun e => { e with nextBin := r }) p (pre ++ b :: post') := by
  induction pre generalizing p with
  | nil =>
    obtain ⟨hp, hstack, -⟩ := h
    have hsame' : ∀ e ∈ b.items, (heap' e).nextInBin = (heap e).nextInBin :=
      fun e he => (hsame e (by simpa using he)).nextInBin
    have hout : ∀ e ∈ items post', e ≠ b.top := by
      rintro e he rfl
      exact (nodup_append.mp hnodup).2.2 _ mem_cons_self _ he rfl
    refine ⟨hp, ?_, ?_⟩
    · rw [modify_nextBin_nextInBin, hsame' _ mem_cons_self]
      refine hstack.congr fun e he => ?_
      rw [modify_nextBin_nextInBin, hsame' e (mem_cons_of_mem _ he)]
    · rw [modify_self]
      exact hpost.congr fun e he => .of_eq (modify_of_ne _ (hout e he))
  | cons c pre ih =>
    obtain ⟨hp, hstack, hrest⟩ := h
    have hc : ∀ e ∈ c.items, SameLinks heap heap' e := fun e he =>
      hsame e (mem_append_left _ he)
    obtain ⟨-, hnodup', hcross⟩ := nodup_append.mp hnodup
    have hne : c.top ≠ b.top := hcross _ mem_cons_self _ (by simp [Bin.items])
    refine ⟨hp, ?_, ?_⟩
    · rw [modify_nextBin_nextInBin, (hc _ mem_cons_self).nextInBin]
      refine hstack.congr fun e he => ?_
      rw [modify_nextBin_nextInBin, (hc e (mem_cons_of_mem _ he)).nextInBin]
    · rw [modify_of_ne _ hne, (hc _ mem_cons_self).nextBin]
      exact ih hrest hnodup' fun e he => hsame e (mem_append_right _ he)

end

section

variable {heap : Heap} {event : EventPtr} {fuel : Nat} {p : Option EventPtr}
  {bins : List (Bin EventPtr)}

theorem findBin_spec {b₀ : Bin EventPtr} (h : Layout heap p (b₀ :: bins))
    (hlt : key heap b₀.top < key heap event) (hfuel : bins.length < fuel) :
    ∃ pre b post, b₀ :: bins = pre ++ b :: post ∧
      (∀ c ∈ pre ++ [b], key heap c.top < key heap event) ∧
      (∀ c ∈ post.head?, ¬key heap c.top < key heap event) ∧
      findBin heap event fuel b₀.top (heap b₀.top).nextBin =
        .ok (b.top, post.head?.map Bin.top) := by
  induction bins generalizing b₀ p fuel with
  | nil =>
    obtain ⟨fuel, rfl⟩ := Nat.exists_eq_add_one.mpr hfuel
    refine ⟨[], b₀, [], rfl, by simpa using hlt, by simp, ?_⟩
    rw [show (heap b₀.top).nextBin = none from h.2.2]
    rfl
  | cons c bins ih =>
    obtain ⟨fuel, rfl⟩ := Nat.exists_eq_add_one.mpr (Nat.zero_lt_of_lt hfuel)
    have hnext : (heap b₀.top).nextBin = some c.top := h.2.2.1
    rw [hnext, findBin]
    by_cases hc : key heap c.top < key heap event
    · obtain ⟨pre, b, post, heq, hpre, hpost, hfind⟩ :=
        ih h.2.2 hc (Nat.lt_of_succ_lt_succ hfuel)
      refine ⟨b₀ :: pre, b, post, by rw [heq, cons_append], ?_, hpost, ?_⟩
      · exact forall_mem_cons.mpr ⟨hlt, hpre⟩
      · rw [if_pos (lt_iff.mpr hc), hfind]
    · refine ⟨[], b₀, c :: bins, rfl, by simpa using hlt, by simpa using hc, ?_⟩
      rw [if_neg (mt lt_iff.mp hc)]
      rfl

theorem insertBefore_other (heap : Heap) (event : EventPtr) (curr : Option EventPtr)
    {e : EventPtr} (he : e ≠ event) : insertBefore heap event curr e = heap e := by
  unfold insertBefore
  split
  · exact modify_of_ne _ he
  · split <;> exact modify_of_ne _ he

private theorem insertBefore_data (heap : Heap) (event : EventPtr) (curr : Option EventPtr) :
    SameData heap (insertBefore heap event curr) := by
  unfold insertBefore
  split
  · exact sameData_modify event rfl
  · split <;> exact sameData_modify event rfl

theorem insertBefore_layout (h : Layout heap p bins) (hnew : event ∉ items bins)
    (hfirst : ∀ c ∈ bins.head?, ¬key heap c.top < key heap event) :
    Layout (insertBefore heap event p) (some event) (insertBin (key heap) event bins) := by
  have hkeep : Layout (insertBefore heap event p) p bins :=
    h.congr fun e he => .of_eq (insertBefore_other heap event p fun heq => hnew (heq ▸ he))
  cases bins with
  | nil =>
    obtain rfl : p = none := h
    refine ⟨rfl, ?_, ?_⟩
    · simp [insertBefore, Seg]
    · simp [insertBefore, Layout]
  | cons b bins =>
    obtain rfl : p = some b.top := h.1
    have hle : ¬key heap b.top < key heap event := hfirst b rfl
    rw [insertBin, if_neg hle]
    by_cases hlt : key heap event < key heap b.top
    · have hself : insertBefore heap event (some b.top) event =
          { heap event with nextBin := some b.top, nextInBin := none } := by
        rw [insertBefore, if_pos (lt_iff.mpr hlt), modify_self]
      rw [if_pos hlt]
      refine ⟨rfl, ?_, ?_⟩
      · rw [hself]
        rfl
      · rw [hself]
        exact hkeep
    · have hself : insertBefore heap event (some b.top) event =
          { heap event with nextBin := (heap b.top).nextBin, nextInBin := some b.top } := by
        rw [insertBefore, if_neg (mt lt_iff.mp hlt), modify_self]
      have hne : b.top ≠ event := fun heq => hnew (heq ▸ top_mem_items mem_cons_self)
      rw [if_neg hlt]
      refine ⟨rfl, ?_, ?_⟩
      · rw [hself]
        exact ⟨rfl, hkeep.2.1⟩
      · rw [hself]
        have hrest := hkeep.2.2
        rw [insertBefore_other heap event _ hne] at hrest
        exact hrest

theorem insert_spec {q : EventQueue} (h : Layout q.heap q.head bins)
    (harr : Arranged (key q.heap) bins) (hnodup : (items bins).Nodup)
    (hnew : event ∉ items bins) (hfuel : bins.length ≤ fuel) :
    ∃ q', q.insert fuel event = .ok q' ∧
      Layout q'.heap q'.head (insertBin (key q.heap) event bins) ∧
      SameData q.heap q'.heap ∧ q'.curTick = q.curTick := by
  unfold EventQueue.insert
  cases bins with
  | nil =>
    have hhead : q.head = none := h
    rw [hhead] at h ⊢
    exact ⟨_, rfl, insertBefore_layout h hnew (by simp), insertBefore_data q.heap event none, rfl⟩
  | cons b₀ bins =>
    have hhead : q.head = some b₀.top := h.1
    rw [hhead] at h ⊢
    dsimp only
    by_cases hle : key q.heap event ≤ key q.heap b₀.top
    · rw [if_pos (le_iff.mpr hle)]
      exact ⟨_, rfl, insertBefore_layout h hnew (by simpa using hle),
        insertBefore_data q.heap event (some b₀.top), rfl⟩
    · rw [if_neg (mt le_iff.mp hle)]
      obtain ⟨pre, b, post, heq, hpre, hpost, hfind⟩ :=
        findBin_spec h (not_le.mp hle) hfuel
      have hplaced := nodup_insertBin harr hnodup hnew
      rw [hfind]
      rw [heq] at h hnew hplaced ⊢
      have hsplit : insertBin (key q.heap) event (pre ++ b :: post) =
          pre ++ b :: insertBin (key q.heap) event post := by
        rw [append_cons, insertBin_append hpre, ← append_cons]
      rw [hsplit] at hplaced ⊢
      have hrest := h.behind
      rw [hrest.head_eq] at hrest
      refine ⟨_, rfl, ?_, ?_, rfl⟩
      · refine h.replace hplaced (fun e he => .of_eq (insertBefore_other _ _ _ ?_))
          (insertBefore_layout hrest (fun hmem => hnew ?_) hpost)
        · rintro rfl
          refine hnew ?_
          rw [append_cons, items_append]
          exact mem_append_left _ he
        · rw [append_cons, items_append]
          exact mem_append_right _ hmem
      · have hdata := insertBefore_data q.heap event (post.head?.map Bin.top)
        exact hdata.trans (sameData_nextBin _ b.top (some event))

end

section

variable {heap : Heap} {event : EventPtr} {fuel : Nat} {p : Option EventPtr} {b : Bin EventPtr}
  {bins : List (Bin EventPtr)}

theorem findItem_spec {curr : EventPtr} {rest : List EventPtr}
    (h : Seg (fun e => (heap e).nextInBin) (heap curr).nextInBin rest none) (hmem : event ∈ rest)
    (hfuel : rest.length ≤ fuel) :
    ∃ xs y ys, curr :: rest = xs ++ y :: event :: ys ∧
      findItem heap event fuel curr (heap curr).nextInBin = .ok y := by
  induction rest generalizing curr fuel with
  | nil => exact absurd hmem not_mem_nil
  | cons n rest ih =>
    obtain ⟨fuel, rfl⟩ := Nat.exists_eq_add_one.mpr (Nat.zero_lt_of_lt hfuel)
    have hnext : (heap curr).nextInBin = some n := h.1
    rw [hnext, findItem]
    by_cases hn : n = event
    · subst hn
      exact ⟨[], curr, rest, rfl, if_pos rfl⟩
    · have hmem' : event ∈ rest := (mem_cons.mp hmem).resolve_left fun heq => hn heq.symm
      obtain ⟨xs, y, ys, heq, hfind⟩ := ih h.2 hmem' (Nat.le_of_succ_le_succ hfuel)
      refine ⟨curr :: xs, y, ys, by rw [heq, cons_append], ?_⟩
      rw [if_neg fun heq => hn (Option.some.inj heq)]
      exact hfind

private theorem layout_ofItems {heap : Heap} {top : EventPtr} {rest : List EventPtr}
    (hstack : Seg (fun e => (heap e).nextInBin) (some top) (top :: rest) none)
    (hbins : Layout heap (heap top).nextBin bins) :
    Layout heap (some top) (Bin.ofItems (top :: rest) ++ bins) :=
  ⟨rfl, hstack.2, hbins⟩

section

variable (h : Layout heap p (b :: bins))
include h

section

variable (hnodup : (items (b :: bins)).Nodup)
include hnodup

theorem unlink_layout {xs ys : List EventPtr} {y : EventPtr}
    (heq : b.items = xs ++ y :: event :: ys) :
    Layout (heap.modify y fun e => { e with nextInBin := (heap event).nextInBin }) (some b.top)
      (Bin.ofItems (b.items.erase event) ++ bins) := by
  obtain ⟨hbin, -, hcross⟩ := nodup_append.mp hnodup
  have hy : y ∈ b.items := by rw [heq]; simp
  rw [heq] at hbin
  obtain ⟨-, hyys, hxs⟩ := nodup_append.mp hbin
  obtain ⟨hyout, hevent⟩ := nodup_cons.mp hyys
  have hnext : (fun e => (heap.modify y (fun e => { e with nextInBin := (heap event).nextInBin })
      e).nextInBin) = update (fun e => (heap e).nextInBin) y (heap event).nextInBin := by
    funext e
    by_cases he : e = y
    · rw [he, modify_self, update_self]
    · rw [modify_of_ne _ he, update_of_ne he]
  -- the stack without the event
  have hstack : Seg (fun e => (heap.modify y (fun e => { e with
      nextInBin := (heap event).nextInBin }) e).nextInBin) (some b.top) (xs ++ [y] ++ ys) none := by
    have hall : Seg (fun e => (heap e).nextInBin) (some b.top) b.items none := ⟨rfl, h.2.1⟩
    rw [heq, append_cons] at hall
    obtain ⟨r, hfront, -, hback⟩ := seg_append.mp hall
    rw [hnext]
    refine seg_append.mpr ⟨_, hfront.relink (fun hmem => ?_) _, hback.update (fun hmem => ?_) _⟩
    · exact hxs y hmem y mem_cons_self rfl
    · exact hyout (mem_cons_of_mem _ hmem)
  have herase : b.items.erase event = xs ++ [y] ++ ys := by
    have hout : event ∉ xs := fun hmem => hxs event hmem event (by simp) rfl
    have hne : y ≠ event := fun hye => hyout (hye ▸ mem_cons_self)
    rw [heq, erase_append_right _ hout, erase_cons_tail (by simpa using hne),
      erase_cons_head, append_cons]
  have htop : ∃ rest, xs ++ [y] ++ ys = b.top :: rest := by
    cases xs with
    | nil => exact ⟨ys, by rw [(List.cons.inj heq).1]; rfl⟩
    | cons x xs => exact ⟨xs ++ [y] ++ ys, by rw [(List.cons.inj heq).1]; rfl⟩
  obtain ⟨rest, hrest⟩ := htop
  rw [herase, hrest]
  rw [hrest] at hstack
  refine layout_ofItems hstack ?_
  rw [modify_nextInBin_nextBin]
  refine h.2.2.congr fun e he => .of_eq (modify_of_ne _ ?_)
  rintro rfl
  exact hcross e hy e he rfl

theorem unstack_layout :
    match (heap b.top).nextInBin with
    | none => Layout heap (heap b.top).nextBin (Bin.ofItems b.rest ++ bins)
    | some next =>
      Layout (heap.modify next fun e => { e with nextBin := (heap b.top).nextBin }) (some next)
        (Bin.ofItems b.rest ++ bins) ∧ next ∈ b.rest := by
  obtain ⟨-, hstack, hbins⟩ := h
  obtain ⟨top, rest⟩ := b
  cases rest with
  | nil =>
    rw [show (heap top).nextInBin = none from hstack]
    exact hbins
  | cons n rest =>
    obtain ⟨hnext, hrest⟩ := hstack
    rw [hnext]
    obtain ⟨hbin, -, hcross⟩ := nodup_append.mp hnodup
    refine ⟨⟨rfl, ?_, ?_⟩, mem_cons_self⟩
    · rw [modify_nextBin_nextInBin]
      exact hrest.congr fun e _ => modify_nextBin_nextInBin _ _
    · rw [modify_self]
      refine hbins.congr fun e he => .of_eq (modify_of_ne _ ?_)
      rintro rfl
      exact hcross e (mem_cons_of_mem _ mem_cons_self) e he rfl

theorem removeItem_spec (hmem : event ∈ b.items) (hfuel : b.rest.length ≤ fuel) :
    ∃ heap' r, removeItem fuel heap event b.top = .ok (heap', r) ∧
      Layout heap' r (Bin.ofItems (b.items.erase event) ++ bins) ∧
      (∀ e ∉ b.items, heap' e = heap e) ∧ SameData heap heap' := by
  unfold removeItem
  by_cases htop : event = b.top
  · rw [if_pos htop, htop, Bin.items, erase_cons_head]
    have hpop := unstack_layout h hnodup
    cases hnext : (heap b.top).nextInBin with
    | none =>
      rw [hnext] at hpop
      exact ⟨heap, _, rfl, hpop, fun _ _ => rfl, .refl heap⟩
    | some next =>
      rw [hnext] at hpop
      refine ⟨_, _, rfl, hpop.1, fun e he => modify_of_ne _ ?_, sameData_nextBin heap next _⟩
      rintro rfl
      exact he (mem_cons_of_mem _ hpop.2)
  · rw [if_neg htop]
    have hmem' : event ∈ b.rest := (mem_cons.mp hmem).resolve_left htop
    obtain ⟨xs, y, ys, heq, hfind⟩ := findItem_spec h.2.1 hmem' hfuel
    rw [hfind]
    refine ⟨_, _, rfl, unlink_layout h hnodup heq, fun e he => modify_of_ne _ ?_,
      sameData_modify y rfl⟩
    rintro rfl
    refine he ?_
    rw [Bin.items, heq]
    simp

end

end

theorem remove_spec {q : EventQueue} (h : Layout q.heap q.head bins)
    (harr : Arranged (key q.heap) bins) (hnodup : (items bins).Nodup) (hmem : event ∈ items bins)
    (hfuel : (items bins).length ≤ fuel) :
    ∃ q', q.remove fuel event = .ok q' ∧
      Layout q'.heap q'.head (eraseBin (key q.heap) event bins) ∧
      SameData q.heap q'.heap ∧ q'.curTick = q.curTick := by
  unfold EventQueue.remove
  cases bins with
  | nil => exact absurd hmem not_mem_nil
  | cons b₀ bins =>
    have hhead : q.head = some b₀.top := h.1
    have hlength : (items (b₀ :: bins)).length = b₀.rest.length + 1 + (items bins).length := by
      rw [items_cons, length_append, Bin.items, length_cons]
    rw [hhead] at h ⊢
    dsimp only
    by_cases hlt : key q.heap b₀.top < key q.heap event
    · rw [if_neg fun heq => hlt.ne (eq_iff.mp heq)]
      have hbins := length_le_items (b₀ :: bins)
      obtain ⟨pre, b, post, heq, hpre, hpost, hfind⟩ :=
        findBin_spec h hlt (show bins.length < fuel by rw [length_cons] at hbins; omega)
      have herased : (items (eraseBin (key q.heap) event (b₀ :: bins))).Nodup := by
        rw [items_eraseBin harr hmem]
        exact hnodup.erase event
      rw [hfind]
      rw [heq, append_cons] at harr hmem hnodup hfuel herased
      rw [heq] at h ⊢
      have hlater : event ∈ items post := by
        rw [items_append] at hmem
        refine (mem_append.mp hmem).resolve_left fun hearly => ?_
        obtain ⟨c, hc, hin⟩ := mem_flatMap.mp hearly
        exact (hpre c hc).ne (harr.level c (mem_append_left _ hc) event hin).symm
      -- the bin found is the event's own
      cases post with
      | nil => exact absurd hlater not_mem_nil
      | cons c post =>
        have hle : ¬key q.heap c.top < key q.heap event := hpost c rfl
        have hown := harr.suffix.mem_first hlater hle
        have hkey : key q.heap c.top = key q.heap event :=
          (harr.level c (by simp) event hown).symm
        rw [eraseBin_append hpre, eraseBin, if_neg hle, ← append_cons] at herased
        rw [append_cons, eraseBin_append hpre, eraseBin, if_neg hle, ← append_cons]
        have hrest := h.behind
        rw [items_append] at hnodup hfuel
        obtain ⟨-, hpostNodup, hcross⟩ := nodup_append.mp hnodup
        have hshort : c.rest.length ≤ fuel := by
          rw [items_cons, length_append, length_append, Bin.items,
            length_cons] at hfuel
          omega
        obtain ⟨heap', r, hremove, hlayout, hother, hdata⟩ :=
          removeItem_spec hrest hpostNodup hown hshort
        simp only [List.head?_cons, Option.map_some, Except.bind, bind, eq_iff.mpr hkey, if_true,
          hremove]
        refine ⟨_, rfl, h.replace herased (fun e he => .of_eq (hother e fun hin => ?_)) hlayout,
          hdata.trans (sameData_nextBin heap' b.top r), rfl⟩
        exact hcross e he e (mem_append_left _ hin) rfl
    · have hfirst := harr.mem_first hmem hlt
      have heq : key q.heap b₀.top = key q.heap event :=
        ((arranged_cons.mp harr).1 event hfirst).symm
      rw [if_pos (eq_iff.mpr heq), eraseBin, if_neg hlt]
      obtain ⟨heap', r, hremove, hlayout, -, hdata⟩ :=
        removeItem_spec h hnodup hfirst (show b₀.rest.length ≤ fuel by omega)
      rw [hremove]
      exact ⟨_, rfl, hlayout, hdata, rfl⟩

theorem pop_spec {q : EventQueue} (h : Layout q.heap q.head (b :: bins))
    (hnodup : (items (b :: bins)).Nodup) :
    Layout (q.pop b.top).heap (q.pop b.top).head (Bin.ofItems b.rest ++ bins) ∧
      SameData q.heap (q.pop b.top).heap ∧ (q.pop b.top).curTick = q.curTick := by
  have hpop := unstack_layout h hnodup
  unfold EventQueue.pop
  cases hnext : (q.heap b.top).nextInBin with
  | none =>
    rw [hnext] at hpop
    exact ⟨hpop, .refl q.heap, rfl⟩
  | some next =>
    rw [hnext] at hpop
    exact ⟨hpop.1, sameData_nextBin q.heap next _, rfl⟩

end

end Gem5Core.Sim.EventqLayout
