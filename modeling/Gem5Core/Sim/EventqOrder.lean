import Gem5Core.Lib.Protocol
import Gem5Core.Sim.EventqLayout

/-! The event queue against a plain list, sorted by time and priority, in which a new event goes
before its equals: both service the same events in the same order. -/
namespace Gem5Core.Sim.EventqOrder
open Eventq EventqLayout Lib.Bins Function List
open Lib.Protocol (run Legal run_inv)

section

structure Entry where
  event : EventPtr
  when : Tick
  stamp : Nat
deriving DecidableEq

/-- The scheduled events in the order in which they are due. -/
structure Agenda where
  pending : List Entry := []
  squashed : EventPtr → Bool := fun _ => false
  curTick : Tick := 0
  stamp : Nat := 0

variable (priority : EventPtr → Int)

def Entry.key (x : Entry) : Nat ×ₗ Int := toLex (x.when, priority x.event)

/-- The smaller key comes first, and of equal keys the one inserted last. -/
def Before (x y : Entry) : Prop :=
  x.key priority < y.key priority ∨ x.key priority = y.key priority ∧ y.stamp < x.stamp

namespace Agenda

variable (a : Agenda)

def events : List EventPtr := a.pending.map Entry.event

def add (event : EventPtr) (when : Tick) : Agenda :=
  { a with
    pending := a.pending.orderedInsert (fun x y => x.key priority ≤ y.key priority)
      ⟨event, when, a.stamp⟩
    stamp := a.stamp + 1 }

def drop (event : EventPtr) : Agenda :=
  { a with
    pending := a.pending.filter (·.event != event)
    squashed := Function.update a.squashed event false }

/-- The first event leaves. Time moves on unless it was squashed. -/
def service : Agenda :=
  match a.pending with
  | [] => a
  | x :: rest =>
      { a with
        pending := rest
        squashed := Function.update a.squashed x.event false
        curTick := if a.squashed x.event then a.curTick else x.when }

def step : Op → Agenda
  | .schedule event when => a.add priority event when
  | .deschedule event => a.drop event
  | .reschedule event when _ => (a.drop event).add priority event when
  | .squash event => { a with squashed := Function.update a.squashed event true }
  | .serviceOne => a.service

def serviced : Op → List (EventPtr × Bool)
  | .serviceOne => (a.pending.head?.map fun x => (x.event, !a.squashed x.event)).toList
  | _ => []

def trace : Agenda → List Op → List (EventPtr × Bool)
  | _, [] => []
  | a, op :: ops => a.serviced op ++ trace (a.step priority op) ops

def Allowed : Op → Prop
  | .schedule event when => a.curTick ≤ when ∧ event ∉ a.events
  | .deschedule event => event ∈ a.events
  | .reschedule event when always => a.curTick ≤ when ∧ (always = true ∨ event ∈ a.events)
  | .squash _ => True
  | .serviceOne => a.pending ≠ []

instance : DecidablePred a.Allowed := fun e => by
  cases e <;> dsimp only [Allowed] <;> infer_instance

end Agenda

/-- The agenda is in order, each event is on it once, and none is due in the past. -/
structure Ordered (a : Agenda) : Prop where
  sorted : a.pending.Pairwise (Before priority)
  stamps : ∀ x ∈ a.pending, x.stamp < a.stamp
  nodup : a.events.Nodup
  future : ∀ x ∈ a.pending, a.curTick ≤ x.when

variable {priority} {a : Agenda}

variable {x : Entry}

theorem Before.when_le {y : Entry} (h : Before priority x y) : x.when ≤ y.when := by
  have hle : x.key priority ≤ y.key priority := h.elim le_of_lt fun heq => heq.1.le
  have hlex := Prod.Lex.toLex_le_toLex.mp hle
  exact hlex.elim le_of_lt fun heq => heq.1.le

variable {event : EventPtr} {when : Tick}

theorem mem_add :
    x ∈ (a.add priority event when).pending ↔ x = ⟨event, when, a.stamp⟩ ∨ x ∈ a.pending :=
  mem_orderedInsert _

theorem mem_events_add {e : EventPtr} :
    e ∈ (a.add priority event when).events ↔ e = event ∨ e ∈ a.events := by
  rw [Agenda.events, mem_map]
  constructor
  · rintro ⟨x, hx, rfl⟩
    obtain rfl | hx := mem_add.mp hx
    · exact .inl rfl
    · exact .inr (mem_map_of_mem hx)
  · rintro (rfl | he)
    · exact ⟨_, mem_add.mpr (.inl rfl), rfl⟩
    · obtain ⟨x, hx, rfl⟩ := mem_map.mp he
      exact ⟨x, mem_add.mpr (.inr hx), rfl⟩

theorem mem_events_drop {e : EventPtr} : e ∈ (a.drop event).events ↔ e ∈ a.events ∧ e ≠ event := by
  simp only [Agenda.events, Agenda.drop, mem_map, mem_filter, bne_iff_ne]
  constructor
  · rintro ⟨x, ⟨hx, hne⟩, rfl⟩
    exact ⟨⟨x, hx, rfl⟩, hne⟩
  · rintro ⟨⟨x, hx, rfl⟩, hne⟩
    exact ⟨x, ⟨hx, hne⟩, rfl⟩

theorem events_drop (hnodup : a.events.Nodup) (event : EventPtr) :
    (a.drop event).events = a.events.erase event := by
  rw [hnodup.erase_eq_filter, Agenda.events, Agenda.events, filter_map]
  rfl

theorem sorted_orderedInsert {l : List Entry} (h : l.Pairwise (Before priority))
    (hx : ∀ y ∈ l, y.stamp < x.stamp) :
    (l.orderedInsert (fun x y => x.key priority ≤ y.key priority) x).Pairwise
      (Before priority) := by
  induction l with
  | nil => exact pairwise_singleton _ _
  | cons y l ih =>
    obtain ⟨hy, hl⟩ := pairwise_cons.mp h
    by_cases hle : x.key priority ≤ y.key priority
    · rw [orderedInsert_cons, if_pos hle]
      refine pairwise_cons.mpr ⟨fun z hz => ?_, h⟩
      have hkey : x.key priority ≤ z.key priority := by
        obtain rfl | hz := mem_cons.mp hz
        · exact hle
        · exact hle.trans ((hy z hz).elim le_of_lt fun heq => heq.1.le)
      exact hkey.lt_or_eq.imp id fun heq => ⟨heq, hx z hz⟩
    · rw [orderedInsert_cons, if_neg hle]
      refine pairwise_cons.mpr ⟨fun z hz => ?_,
        ih hl fun z hz => hx z (mem_cons_of_mem y hz)⟩
      obtain rfl | hz := (mem_orderedInsert _).mp hz
      · exact .inl (not_le.mp hle)
      · exact hy z hz

theorem Ordered.add (h : Ordered priority a) (hwhen : a.curTick ≤ when) (hnew : event ∉ a.events) :
    Ordered priority (a.add priority event when) where
  sorted := sorted_orderedInsert h.sorted h.stamps
  stamps := by
    intro x hx
    obtain rfl | hx := mem_add.mp hx
    · exact Nat.lt_succ_self _
    · exact (h.stamps x hx).trans (Nat.lt_succ_self _)
  nodup := by
    have hperm : (a.add priority event when).events.Perm (event :: a.events) :=
      (perm_orderedInsert _ _ _).map Entry.event
    exact hperm.nodup_iff.mpr (nodup_cons.mpr ⟨hnew, h.nodup⟩)
  future := by
    intro x hx
    obtain rfl | hx := mem_add.mp hx
    · exact hwhen
    · exact h.future x hx

theorem Ordered.drop (h : Ordered priority a) (event : EventPtr) :
    Ordered priority (a.drop event) where
  sorted := h.sorted.filter _
  stamps x hx := h.stamps x (mem_filter.mp hx).1
  nodup := by
    rw [events_drop h.nodup]
    exact h.nodup.erase event
  future x hx := h.future x (mem_filter.mp hx).1

theorem service_eq {rest : List Entry} (hpending : a.pending = x :: rest) : a.service =
      { a with
        pending := rest
        squashed := update a.squashed x.event false
        curTick := if a.squashed x.event then a.curTick else x.when } := by
  rw [Agenda.service, hpending]

theorem Ordered.service (h : Ordered priority a) : Ordered priority a.service := by
  cases hpending : a.pending with
  | nil =>
    rw [Agenda.service, hpending]
    exact h
  | cons x rest =>
    obtain ⟨hsorted, hstamps, hnodup, hfuture⟩ := h
    rw [Agenda.events] at hnodup
    rw [hpending] at hsorted hstamps hnodup hfuture
    obtain ⟨hx, hrest⟩ := pairwise_cons.mp hsorted
    rw [service_eq hpending]
    refine ⟨hrest, fun y hy => hstamps y (mem_cons_of_mem x hy), (nodup_cons.mp hnodup).2,
      fun y hy => ?_⟩
    split
    · exact hfuture y (mem_cons_of_mem x hy)
    · exact (hx y hy).when_le

theorem Ordered.step (h : Ordered priority a) {op : Op} (hop : a.Allowed op) :
    Ordered priority (a.step priority op) := by
  cases op with
  | schedule event when => exact h.add hop.1 hop.2
  | deschedule event => exact h.drop event
  | reschedule event when always =>
    exact (h.drop event).add hop.1 fun hmem => (mem_events_drop.mp hmem).2 rfl
  | squash event => exact { h with }
  | serviceOne => exact h.service

theorem ordered_start : Ordered priority {} := by
  constructor <;> simp [Agenda.events]

theorem curTick_step (h : Ordered priority a) (op : Op) :
    a.curTick ≤ (a.step priority op).curTick := by
  cases op with
  | serviceOne =>
    rw [Agenda.step]
    cases hpending : a.pending with
    | nil => rw [Agenda.service, hpending]
    | cons x rest =>
      rw [service_eq hpending]
      split
      · exact le_rfl
      · exact h.future x (hpending ▸ mem_cons_self)
  | _ => exact le_rfl

private theorem curTick_take_le (h : Ordered priority a) {ops : List Op}
    (hl : Legal (Agenda.step priority) Agenda.Allowed a ops) (k : Nat) :
    (run (Agenda.step priority) a (ops.take k)).curTick ≤
      (run (Agenda.step priority) a ops).curTick := by
  induction ops generalizing a k with
  | nil => rw [take_nil]
  | cons op ops ih =>
    cases k with
    | zero => exact (curTick_step h op).trans (ih (h.step hl.1) hl.2 0)
    | succ k => exact ih (h.step hl.1) hl.2 k

end

section

variable {priority : EventPtr → Int} {q : EventQueue} {a : Agenda} {fuel : Nat}

structure Queued (priority : EventPtr → Int) (q : EventQueue) (a : Agenda) : Prop where
  layout : ∃ bins, Layout q.heap q.head bins ∧ Arranged (key q.heap) bins ∧ items bins = a.events
  when : ∀ x ∈ a.pending, (q.heap x.event).when = x.when
  priority : ∀ e, (q.heap e).priority = priority e
  curTick : q.curTick = a.curTick

structure Represents (priority : EventPtr → Int) (q : EventQueue) (a : Agenda) : Prop
    extends Queued priority q a where
  scheduled : ∀ e, (q.heap e).scheduled = true ↔ e ∈ a.events
  squashed : ∀ e, (q.heap e).squashed = a.squashed e

theorem represents_start : Represents priority (EventQueue.start priority) {} where
  layout := ⟨[], rfl, .nil, rfl⟩
  when := by simp
  priority _ := rfl
  curTick := rfl
  scheduled e := by simp [EventQueue.start, Agenda.events]
  squashed _ := rfl

theorem Queued.key_eq (h : Queued priority q a) {x : Entry} (hx : x ∈ a.pending) :
    key q.heap x.event = x.key priority := by
  rw [key, Entry.key, h.when x hx, h.priority]

variable {a' : Agenda}

theorem Queued.congr (h : Queued priority q a) {q' : EventQueue} (hhead : q'.head = q.head)
    (hlinks : ∀ e, SameLinks q.heap q'.heap e)
    (hwhen : ∀ e ∈ a.events, (q'.heap e).when = (q.heap e).when)
    (hpriority : ∀ e, (q'.heap e).priority = (q.heap e).priority)
    (hpending : a'.pending = a.pending) (hcurTick : q'.curTick = a'.curTick) :
    Queued priority q' a' where
  layout := by
    obtain ⟨bins, hlayout, harr, hitems⟩ := h.layout
    refine ⟨bins, ?_, harr.congr fun e he => ?_, ?_⟩
    · rw [hhead]
      exact hlayout.congr fun e _ => hlinks e
    · rw [key, key, hwhen e (hitems ▸ he), hpriority]
    · rw [hitems, Agenda.events, Agenda.events, hpending]
  when := by
    intro x hx
    rw [hpending] at hx
    rw [hwhen x.event (mem_map_of_mem hx), h.when x hx]
  priority e := (hpriority e).trans (h.priority e)
  curTick := hcurTick

theorem setFlags_heap (q : EventQueue) (event : EventPtr) (squashed scheduled : Bool)
    (e : EventPtr) :
    (q.setFlags event squashed scheduled).heap e =
      if e = event then { q.heap e with squashed, scheduled } else q.heap e := by
  dsimp only [EventQueue.setFlags]
  rw [modify_apply]

private theorem setWhen_heap (q : EventQueue) (event : EventPtr) (when : Tick) (e : EventPtr) :
    (q.setWhen event when).heap e = if e = event then { q.heap e with when } else q.heap e := by
  dsimp only [EventQueue.setWhen]
  rw [modify_apply]

section

variable (h : Queued priority q a)
include h

theorem Queued.setFlags (event : EventPtr) (squashed scheduled : Bool)
    (hpending : a'.pending = a.pending) (hcurTick : a'.curTick = a.curTick) :
    Queued priority (q.setFlags event squashed scheduled) a' := by
  refine h.congr rfl (fun e => ?_) (fun e _ => ?_) (fun e => ?_) hpending
    (h.curTick.trans hcurTick.symm)
  · constructor <;>
    · rw [setFlags_heap]
      split <;> rfl
  · rw [setFlags_heap]
    split <;> rfl
  · rw [setFlags_heap]
    split <;> rfl

theorem Queued.represents (event : EventPtr) {squashed scheduled : Bool}
    (hpending : a'.pending = a.pending) (hcurTick : a'.curTick = a.curTick)
    (hscheduled : ∀ e, (if e = event then scheduled else (q.heap e).scheduled) = true ↔ e ∈ a'.events)
    (hsquashed : ∀ e, (if e = event then squashed else (q.heap e).squashed) = a'.squashed e) :
    Represents priority (q.setFlags event squashed scheduled) a' := by
  refine ⟨h.setFlags event squashed scheduled hpending hcurTick, fun e => ?_, fun e => ?_⟩
  · rw [← hscheduled e, setFlags_heap]
    split <;> rfl
  · rw [← hsquashed e, setFlags_heap]
    split <;> rfl

theorem Queued.insert (hnodup : a.events.Nodup) {event : EventPtr} (hnew : event ∉ a.events)
    (when : Tick) (hfuel : a.events.length ≤ fuel) :
    ∃ q', (q.setWhen event when).insert fuel event = .ok q' ∧
      Queued priority q' (a.add priority event when) ∧
      ∀ e, (q'.heap e).squashed = (q.heap e).squashed ∧
        (q'.heap e).scheduled = (q.heap e).scheduled := by
  have hset : Queued priority (q.setWhen event when) a := by
    refine h.congr rfl (fun e => ?_) (fun e he => ?_) (fun e => ?_) rfl h.curTick
    · constructor <;>
      · rw [setWhen_heap]
        split <;> rfl
    · have hne : e ≠ event := fun heq => hnew (heq ▸ he)
      rw [setWhen_heap, if_neg hne]
    · rw [setWhen_heap]
      split <;> rfl
  have hself : ((q.setWhen event when).heap event).when = when := by
    rw [setWhen_heap, if_pos rfl]
  obtain ⟨bins, hlayout, harr, hitems⟩ := hset.layout
  have hbins : bins.length ≤ fuel := (length_le_items bins).trans (hitems ▸ hfuel)
  obtain ⟨q', hinsert, hlayout', hdata, htick⟩ :=
    insert_spec hlayout harr (hitems ▸ hnodup) (hitems ▸ hnew) hbins
  refine ⟨q', hinsert, ⟨⟨_, hlayout', ?_, ?_⟩, ?_, ?_, htick.trans hset.curTick⟩, fun e => ?_⟩
  · exact (harr.insertBin event).congr fun e _ => hdata.key_eq e
  · rw [items_insertBin harr, hitems, Agenda.events, Agenda.add]
    have hkey : key (q.setWhen event when).heap event =
        Entry.key priority ⟨event, when, a.stamp⟩ := by
      rw [key, Entry.key, hself, hset.priority]
    symm
    refine map_orderedInsert _ _ _ _ _ (fun x hx => ?_) (fun x hx => ?_)
    · rw [hset.key_eq hx, hkey]
    · rw [hset.key_eq hx, hkey]
  · intro x hx
    rw [hdata.when]
    obtain rfl | hx := mem_add.mp hx
    · exact hself
    · exact hset.when x hx
  · exact fun e => (hdata.priority e).trans (hset.priority e)
  · rw [hdata.squashed, hdata.scheduled, setWhen_heap]
    split <;> exact ⟨rfl, rfl⟩

theorem Queued.remove (hnodup : a.events.Nodup) {event : EventPtr} (hmem : event ∈ a.events)
    (hfuel : a.events.length ≤ fuel) :
    ∃ q', q.remove fuel event = .ok q' ∧ Queued priority q' (a.drop event) ∧
      ∀ e, (q'.heap e).squashed = (q.heap e).squashed ∧
        (q'.heap e).scheduled = (q.heap e).scheduled := by
  obtain ⟨bins, hlayout, harr, hitems⟩ := h.layout
  obtain ⟨q', hremove, hlayout', hdata, htick⟩ :=
    remove_spec hlayout harr (hitems ▸ hnodup) (hitems ▸ hmem) (hitems ▸ hfuel)
  refine ⟨q', hremove, ⟨⟨_, hlayout', ?_, ?_⟩, ?_, ?_, htick.trans h.curTick⟩,
    fun e => ⟨hdata.squashed e, hdata.scheduled e⟩⟩
  · exact (harr.eraseBin (hitems ▸ hmem)).congr fun e _ => hdata.key_eq e
  · rw [items_eraseBin harr (hitems ▸ hmem), hitems, events_drop hnodup]
  · intro x hx
    rw [hdata.when]
    exact h.when x (mem_filter.mp hx).1
  · exact fun e => (hdata.priority e).trans (h.priority e)

theorem Queued.pop (hnodup : a.events.Nodup) {x : Entry} {rest : List Entry}
    (hpending : a.pending = x :: rest) :
    q.head = some x.event ∧ Queued priority (q.pop x.event) { a with pending := rest } ∧
      SameData q.heap (q.pop x.event).heap := by
  obtain ⟨bins, hlayout, harr, hitems⟩ := h.layout
  rw [← hitems] at hnodup
  have hevents : a.events = x.event :: rest.map Entry.event := by
    rw [Agenda.events, hpending, map_cons]
  cases bins with
  | nil => exact absurd (hitems.trans hevents).symm (cons_ne_nil _ _)
  | cons b bins =>
    obtain ⟨htop, hrest⟩ := List.cons.inj (hitems.trans hevents)
    obtain ⟨hlayout', hdata, htick⟩ := pop_spec hlayout hnodup
    rw [htop] at hlayout' hdata htick
    refine ⟨hlayout.1.trans (congrArg some htop), ⟨⟨_, hlayout', ?_, ?_⟩, fun y hy => ?_,
      fun e => (hdata.priority e).trans (h.priority e), htick.trans h.curTick⟩, hdata⟩
    · refine (arranged_ofItems (fun e he => ?_) harr).congr fun e _ => hdata.key_eq e
      exact mem_cons_of_mem _ he
    · rw [items_append, items_ofItems]
      exact hrest
    · rw [hdata.when]
      exact h.when y (hpending ▸ mem_cons_of_mem x hy)

end

section

variable {event : EventPtr}

theorem Represents.schedule (h : Represents priority q a) (ho : Ordered priority a) {when : Tick}
    (hwhen : a.curTick ≤ when) (hnew : event ∉ a.events) (hfuel : a.events.length ≤ fuel) :
    ∃ q', q.schedule fuel event when = .ok q' ∧
      Represents priority q' (a.add priority event when) := by
  obtain ⟨q', hinsert, hqueued, hflags⟩ := h.insert ho.nodup hnew when hfuel
  have hidle : (q.heap event).scheduled = false := by
    rw [← Bool.not_eq_true, h.scheduled]
    exact hnew
  rw [EventQueue.schedule, if_pos ⟨h.curTick ▸ hwhen, hidle⟩, hinsert]
  refine ⟨_, rfl, hqueued.represents event rfl rfl (fun e => ?_) (fun e => ?_)⟩
  · rw [mem_events_add, (hflags e).2, ← h.scheduled]
    by_cases he : e = event <;> simp [he]
  · rw [(hflags event).1, (hflags e).1]
    by_cases he : e = event
    · rw [if_pos he, he]
      exact h.squashed event
    · rw [if_neg he]
      exact h.squashed e

theorem Represents.deschedule (h : Represents priority q a) (ho : Ordered priority a)
    (hmem : event ∈ a.events) (hfuel : a.events.length ≤ fuel) :
    ∃ q', q.deschedule fuel event = .ok q' ∧ Represents priority q' (a.drop event) := by
  obtain ⟨q', hremove, hqueued, hflags⟩ := h.remove ho.nodup hmem hfuel
  rw [EventQueue.deschedule, if_pos ((h.scheduled event).mpr hmem), hremove]
  refine ⟨_, rfl, hqueued.represents event rfl rfl (fun e => ?_) (fun e => ?_)⟩
  · rw [mem_events_drop, (hflags e).2, ← h.scheduled]
    by_cases he : e = event <;> simp [he]
  · rw [(hflags e).1, h.squashed]
    exact (update_apply a.squashed event false e).symm

theorem Queued.drop_absent (h : Queued priority q a) (hmem : event ∉ a.events) :
    Queued priority q (a.drop event) := by
  have hpending : (a.drop event).pending = a.pending := by
    refine filter_eq_self.mpr fun x hx => bne_iff_ne.mpr ?_
    rintro rfl
    exact hmem (mem_map_of_mem hx)
  exact h.congr rfl (fun e => .of_eq rfl) (fun e _ => rfl) (fun e => rfl) hpending h.curTick

section

variable (h : Represents priority q a)
include h

theorem Represents.reschedule (ho : Ordered priority a) {when : Tick} {always : Bool}
    (hwhen : a.curTick ≤ when) (halways : always = true ∨ event ∈ a.events)
    (hfuel : a.events.length ≤ fuel) : ∃ q', q.reschedule fuel event when always = .ok q' ∧
      Represents priority q' ((a.drop event).add priority event when) := by
  have hguard : q.curTick ≤ when ∧ (always || (q.heap event).scheduled) = true := by
    refine ⟨h.curTick ▸ hwhen, ?_⟩
    rw [Bool.or_eq_true, h.scheduled]
    exact halways
  -- the event is taken out if it is in
  have hout : ∃ q₁, q.removeScheduled fuel event = .ok q₁ ∧ Queued priority q₁ (a.drop event) ∧
      ∀ e, (q₁.heap e).squashed = (q.heap e).squashed ∧
        (q₁.heap e).scheduled = (q.heap e).scheduled := by
    unfold EventQueue.removeScheduled
    by_cases hmem : event ∈ a.events
    · rw [if_pos ((h.scheduled event).mpr hmem)]
      exact h.remove ho.nodup hmem hfuel
    · rw [if_neg (mt (h.scheduled event).mp hmem)]
      exact ⟨q, rfl, h.drop_absent hmem, fun _ => ⟨rfl, rfl⟩⟩
  obtain ⟨q₁, hremove, hqueued₁, hflags₁⟩ := hout
  have hnew : event ∉ (a.drop event).events := fun hmem => (mem_events_drop.mp hmem).2 rfl
  have hshort : (a.drop event).events.length ≤ fuel := by
    rw [events_drop ho.nodup]
    exact (length_erase_le ..).trans hfuel
  obtain ⟨q₂, hinsert, hqueued₂, hflags₂⟩ :=
    hqueued₁.insert (ho.drop event).nodup hnew when hshort
  rw [EventQueue.reschedule, if_pos hguard, hremove]
  dsimp only [bind, Except.bind]
  rw [hinsert]
  refine ⟨_, rfl, hqueued₂.represents event rfl rfl (fun e => ?_) (fun e => ?_)⟩
  · rw [mem_events_add, mem_events_drop, (hflags₂ e).2, (hflags₁ e).2, ← h.scheduled]
    by_cases he : e = event <;> simp [he]
  · rw [(hflags₂ e).1, (hflags₁ e).1, h.squashed]
    exact (update_apply a.squashed event false e).symm

theorem Represents.squash (event : EventPtr) :
    Represents priority (q.setFlags event true (q.heap event).scheduled)
      { a with squashed := update a.squashed event true } := by
  refine h.toQueued.represents event rfl rfl (fun e => ?_) (fun e => ?_)
  · by_cases he : e = event
    · rw [if_pos he, he]
      exact h.scheduled event
    · rw [if_neg he]
      exact h.scheduled e
  · rw [h.squashed]
    exact (update_apply a.squashed event true e).symm

theorem Represents.serviceOne (ho : Ordered priority a) {x : Entry} {rest : List Entry}
    (hpending : a.pending = x :: rest) :
    ∃ q', q.serviceOne = .ok (q', x.event, !a.squashed x.event) ∧
      Represents priority q' a.service := by
  have hflagged : Queued priority (q.setFlags x.event (q.heap x.event).squashed false) a :=
    h.setFlags x.event _ false rfl rfl
  obtain ⟨hhead, hqueued, hdata⟩ := hflagged.pop ho.nodup hpending
  have hnot : x.event ∉ rest.map Entry.event := by
    have hnodup := ho.nodup
    rw [Agenda.events, hpending] at hnodup
    exact (nodup_cons.mp hnodup).1
  have hmem : ∀ e, e ∈ a.events ↔ e = x.event ∨ e ∈ rest.map Entry.event := by
    intro e
    rw [Agenda.events, hpending, map_cons, mem_cons]
  have hscheduled : ∀ e,
      (((q.setFlags x.event (q.heap x.event).squashed false).pop x.event).heap e).scheduled =
        true ↔ e ∈ rest.map Entry.event := by
    intro e
    rw [hdata.scheduled, setFlags_heap]
    by_cases he : e = x.event
    · simp [he, hnot]
    · rw [if_neg he, h.scheduled, hmem]
      simp [he]
  have hsquashed : ∀ e,
      (((q.setFlags x.event (q.heap x.event).squashed false).pop x.event).heap e).squashed =
        a.squashed e := by
    intro e
    rw [hdata.squashed, setFlags_heap, ← h.squashed e]
    by_cases he : e = x.event
    · rw [if_pos he, he]
    · rw [if_neg he]
  have hwhen :
      (((q.setFlags x.event (q.heap x.event).squashed false).pop x.event).heap x.event).when =
        x.when := by
    rw [hdata.when, setFlags_heap, if_pos rfl]
    exact h.when x (hpending ▸ mem_cons_self)
  have hhead' : q.head = some x.event := hhead
  rw [EventQueue.serviceOne, hhead', service_eq hpending]
  dsimp only
  generalize (q.setFlags x.event (q.heap x.event).squashed false).pop x.event = popped at *
  rw [h.squashed x.event]
  cases hflag : a.squashed x.event with
  | true =>
    refine ⟨_, rfl, hqueued.represents x.event rfl rfl (fun e => ?_) (fun e => ?_)⟩
    · by_cases he : e = x.event
      · rw [if_pos he, he]
        exact hscheduled x.event
      · rw [if_neg he]
        exact hscheduled e
    · rw [hsquashed]
      exact (update_apply a.squashed x.event false e).symm
  | false =>
    refine ⟨_, rfl, hqueued.congr rfl (fun e => .of_eq rfl) (fun e _ => rfl) (fun e => rfl) rfl
      hwhen, hscheduled, fun e => ?_⟩
    by_cases he : e = x.event
    · rw [he]
      exact ((hsquashed x.event).trans hflag).trans
        (update_self x.event false a.squashed).symm
    · exact (hsquashed e).trans (update_of_ne he _ _).symm

theorem Represents.step (ho : Ordered priority a) {op : Op} (hop : a.Allowed op)
    (hfuel : a.events.length ≤ fuel) :
    ∃ q', q.step fuel op = .ok (q', a.serviced op) ∧
      Represents priority q' (a.step priority op) := by
  cases op with
  | schedule event when =>
    obtain ⟨q', hstep, hrep⟩ := h.schedule ho hop.1 hop.2 hfuel
    exact ⟨q', by rw [EventQueue.step, hstep]; rfl, hrep⟩
  | deschedule event =>
    obtain ⟨q', hstep, hrep⟩ := h.deschedule ho hop hfuel
    exact ⟨q', by rw [EventQueue.step, hstep]; rfl, hrep⟩
  | reschedule event when always =>
    obtain ⟨q', hstep, hrep⟩ := h.reschedule ho hop.1 hop.2 hfuel
    exact ⟨q', by rw [EventQueue.step, hstep]; rfl, hrep⟩
  | squash event => exact ⟨_, rfl, h.squash event⟩
  | serviceOne =>
    obtain ⟨x, rest, hpending⟩ := exists_cons_of_ne_nil hop
    obtain ⟨q', hstep, hrep⟩ := h.serviceOne ho hpending
    refine ⟨q', ?_, hrep⟩
    rw [EventQueue.step, hstep, Agenda.serviced, hpending]
    rfl

end

theorem events_length_step (priority : EventPtr → Int) (a : Agenda) (op : Op) :
    (a.step priority op).events.length ≤ a.events.length + 1 := by
  simp only [Agenda.events, length_map]
  cases op with
  | schedule event when => exact (orderedInsert_length ..).le
  | deschedule event => exact (length_filter_le ..).trans (Nat.le_succ _)
  | reschedule event when always =>
    refine (orderedInsert_length ..).le.trans ?_
    exact Nat.succ_le_succ (length_filter_le ..)
  | squash event => exact Nat.le_succ _
  | serviceOne =>
    rw [Agenda.step, Agenda.service]
    split
    · exact Nat.le_succ _
    · next x rest hpending =>
      rw [hpending]
      exact (Nat.le_succ _).trans (Nat.le_succ _)

theorem Represents.run {ops : List Op} (h : Represents priority q a) (ho : Ordered priority a)
    (hl : Legal (Agenda.step priority) Agenda.Allowed a ops)
    (hfuel : a.events.length + ops.length ≤ fuel) :
    ∃ q', q.run fuel ops = .ok (q', a.trace priority ops) ∧
      Represents priority q' (run (Agenda.step priority) a ops) := by
  induction ops generalizing q a with
  | nil => exact ⟨q, rfl, h⟩
  | cons op ops ih =>
    rw [length_cons] at hfuel
    obtain ⟨q₁, hstep, hrep₁⟩ := h.step ho hl.1 (show a.events.length ≤ fuel by omega)
    have hgrow := events_length_step priority a op
    obtain ⟨q₂, hrun, hrep₂⟩ := ih hrep₁ (ho.step hl.1) hl.2 (by omega)
    refine ⟨q₂, ?_, hrep₂⟩
    rw [EventQueue.run, hstep]
    dsimp only [bind, Except.bind]
    rw [hrun]
    rfl

end

end

/-- Over every sequence of operations whose assertions hold, the calls of `process` among
them: no operation panics or runs forever, the events serviced are those of the sorted
list, in its order, the queue holds what the list holds, the list is in order, and the
current time never decreases. -/
theorem serviced_as_sorted (priority : EventPtr → Int) (ops : List Op)
    (hl : Legal (Agenda.step priority) Agenda.Allowed {} ops) {fuel : Nat}
    (hfuel : ops.length ≤ fuel) :
    (∃ q, (EventQueue.start priority).run fuel ops = .ok (q, Agenda.trace priority {} ops) ∧
      Represents priority q (run (Agenda.step priority) {} ops)) ∧
    Ordered priority (run (Agenda.step priority) {} ops) ∧
    ∀ k, (run (Agenda.step priority) {} (ops.take k)).curTick ≤
      (run (Agenda.step priority) {} ops).curTick := by
  refine ⟨represents_start.run ordered_start hl (by simpa [Agenda.events] using hfuel), ?_,
    curTick_take_le ordered_start hl⟩
  exact run_inv (Ordered priority) (fun _ _ ho hop => ho.step hop) ops ordered_start hl

def sample : List Op :=
  [.schedule 1 10, .schedule 2 10, .schedule 3 5, .schedule 4 10, .reschedule 1 10 false,
    .deschedule 2, .serviceOne, .schedule 2 7, .squash 4, .serviceOne, .serviceOne, .serviceOne]

theorem serviced_as_sorted_sample :
    ∃ q, (EventQueue.start fun _ => 0).run 12 sample =
        .ok (q, [(3, true), (2, true), (1, true), (4, false)]) ∧ q.curTick = 10 := by
  obtain ⟨⟨q, hrun, hrep⟩, -, -⟩ := serviced_as_sorted (fun _ => 0) sample (by decide)
    (show sample.length ≤ 12 by decide)
  exact ⟨q, hrun, hrep.curTick⟩

end Gem5Core.Sim.EventqOrder
