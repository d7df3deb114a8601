import Mathlib.Logic.Function.Basic

/-! The event queue (`sim/eventq.cc`, `sim/eventq.hh`), not in parallel mode. Events are
cells of a heap, linked by `nextBin` from bin to bin and by `nextInBin` within a bin. -/
namespace Gem5Core.Sim.Eventq

abbrev EventPtr := Nat

abbrev Tick := Nat

/-- An event as its constructor leaves it; of the flags only the two that the queue reads are kept.
-/
structure Event where
  nextBin : Option EventPtr := none
  nextInBin : Option EventPtr := none
  when : Tick := 0
  priority : Int := 0
  squashed : Bool := false
  scheduled : Bool := false
deriving DecidableEq

namespace Event

def lt (l r : Event) : Bool := l.when < r.when || (l.when == r.when && l.priority < r.priority)

def le (l r : Event) : Bool := l.when < r.when || (l.when == r.when && l.priority ≤ r.priority)

def eq (l r : Event) : Bool := l.when == r.when && l.priority == r.priority

end Event

abbrev Heap := EventPtr → Event

def Heap.modify (heap : Heap) (event : EventPtr) (f : Event → Event) : Heap :=
  Function.update heap event (f (heap event))

/-- A failed `assert`, a panic with "event not found!", a null pointer that is followed, or a loop
that does not end. -/
inductive Failure where
  | assertion
  | eventNotFound
  | nullPointer
  | endless
deriving DecidableEq

structure EventQueue where
  head : Option EventPtr := none
  curTick : Tick := 0
  heap : Heap

section

/-- The event becomes the top of its bin, before `curr` or on top of it. -/
def insertBefore (heap : Heap) (event : EventPtr) (curr : Option EventPtr) : Heap :=
  match curr with
  | none => heap.modify event fun e => { e with nextBin := none, nextInBin := none }
  | some c =>
      if (heap event).lt (heap c) then
        heap.modify event fun e => { e with nextBin := some c, nextInBin := none }
      else
        -- the pointer of the old top can now become stale
        heap.modify event fun e => { e with nextBin := (heap c).nextBin, nextInBin := some c }

/-- The loop over the bins: the last bin before the event's place, and what follows it.
It takes at most `fuel` steps. -/
def findBin (heap : Heap) (event : EventPtr) :
    Nat → EventPtr → Option EventPtr → Except Failure (EventPtr × Option EventPtr)
  | 0, _, _ => .error .endless
  | fuel + 1, prev, curr =>
      match curr with
      | none => .ok (prev, none)
      | some c =>
          if (heap c).lt (heap event) then findBin heap event fuel c (heap c).nextBin
          else .ok (prev, some c)

def findItem (heap : Heap) (event : EventPtr) :
    Nat → EventPtr → Option EventPtr → Except Failure EventPtr
  | 0, _, _ => .error .endless
  | fuel + 1, curr, next =>
      if next = some event then .ok curr
      else
        match next with
        | none => .error .eventNotFound
        | some n => findItem heap event fuel n (heap n).nextInBin

variable (fuel : Nat)

/-- The heap and the new top of the bin, or of the next one. -/
def removeItem (heap : Heap) (event top : EventPtr) : Except Failure (Heap × Option EventPtr) :=
  if event = top then
    match (heap top).nextInBin with
    | none => .ok (heap, (heap top).nextBin)
    | some next =>
        .ok (heap.modify next fun e => { e with nextBin := (heap top).nextBin }, some next)
  else do
    let curr ← findItem heap event fuel top (heap top).nextInBin
    .ok (heap.modify curr fun e => { e with nextInBin := (heap event).nextInBin }, some top)

namespace EventQueue

variable (q : EventQueue)

def insert (event : EventPtr) : Except Failure EventQueue :=
  match q.head with
  | none => .ok { q with heap := insertBefore q.heap event none, head := some event }
  | some head =>
      if (q.heap event).le (q.heap head) then
        .ok { q with heap := insertBefore q.heap event (some head), head := some event }
      else do
        let (prev, curr) ← findBin q.heap event fuel head (q.heap head).nextBin
        .ok
          { q with
            heap := (insertBefore q.heap event curr).modify prev fun e =>
              { e with nextBin := some event } }

def remove (event : EventPtr) : Except Failure EventQueue :=
  match q.head with
  | none => .error .eventNotFound
  | some head =>
      if (q.heap head).eq (q.heap event) then do
        let (heap, head) ← removeItem fuel q.heap event head
        .ok { q with heap, head }
      else do
        let (prev, curr) ← findBin q.heap event fuel head (q.heap head).nextBin
        match curr with
        | none => .error .eventNotFound
        | some c =>
            if (q.heap c).eq (q.heap event) then do
              let (heap, top) ← removeItem fuel q.heap event c
              .ok { q with heap := heap.modify prev fun e => { e with nextBin := top } }
            else .error .eventNotFound

end EventQueue

end

section

namespace EventQueue

variable (fuel : Nat) (q : EventQueue)

def setFlags (event : EventPtr) (squashed scheduled : Bool) : EventQueue :=
  { q with heap := q.heap.modify event fun e => { e with squashed, scheduled } }

def setWhen (event : EventPtr) (when : Tick) : EventQueue :=
  { q with heap := q.heap.modify event fun e => { e with when } }

def schedule (event : EventPtr) (when : Tick) : Except Failure EventQueue :=
  if q.curTick ≤ when ∧ (q.heap event).scheduled = false then do
    let q ← (q.setWhen event when).insert fuel event
    .ok (q.setFlags event (q.heap event).squashed true)
  else .error .assertion

def deschedule (event : EventPtr) : Except Failure EventQueue :=
  if (q.heap event).scheduled then do
    let q ← q.remove fuel event
    .ok (q.setFlags event false false)
  else .error .assertion

def removeScheduled (event : EventPtr) : Except Failure EventQueue :=
  if (q.heap event).scheduled then q.remove fuel event else .ok q

def reschedule (event : EventPtr) (when : Tick) (always : Bool) : Except Failure EventQueue :=
  if q.curTick ≤ when ∧ (always || (q.heap event).scheduled) = true then do
    let q ← q.removeScheduled fuel event
    let q ← (q.setWhen event when).insert fuel event
    .ok (q.setFlags event false true)
  else .error .assertion

def pop (event : EventPtr) : EventQueue :=
  match (q.heap event).nextInBin with
  | some next =>
      -- update the next bin pointer since it could be stale
      { q with
        heap := q.heap.modify next fun e => { e with nextBin := (q.heap event).nextBin }
        head := some next }
  | none => { q with head := (q.heap event).nextBin }

/-- The event that is serviced, and whether its `process` is called, whose own calls are the
operations that follow. -/
def serviceOne : Except Failure (EventQueue × EventPtr × Bool) :=
  match q.head with
  | none => .error .nullPointer
  | some event =>
      let squashed := (q.heap event).squashed
      let q := (q.setFlags event squashed false).pop event
      if squashed then .ok (q.setFlags event false (q.heap event).scheduled, event, false)
      else .ok ({ q with curTick := (q.heap event).when }, event, true)

end EventQueue

end

inductive Op where
  | schedule (event : EventPtr) (when : Tick)
  | deschedule (event : EventPtr)
  | reschedule (event : EventPtr) (when : Tick) (always : Bool)
  | squash (event : EventPtr)
  | serviceOne

namespace EventQueue

def step (fuel : Nat) (q : EventQueue) : Op → Except Failure (EventQueue × List (EventPtr × Bool))
  | .schedule event when => do .ok (← q.schedule fuel event when, [])
  | .deschedule event => do .ok (← q.deschedule fuel event, [])
  | .reschedule event when always => do .ok (← q.reschedule fuel event when always, [])
  | .squash event => .ok (q.setFlags event true (q.heap event).scheduled, [])
  | .serviceOne => do
      let (q, serviced) ← q.serviceOne
      .ok (q, [serviced])

def run (fuel : Nat) : EventQueue → List Op → Except Failure (EventQueue × List (EventPtr × Bool))
  | q, [] => .ok (q, [])
  | q, op :: ops => do
      let (q, serviced) ← q.step fuel op
      let (q, later) ← run fuel q ops
      .ok (q, serviced ++ later)

def start (priority : EventPtr → Int) : EventQueue :=
  { heap := fun event => { priority := priority event } }

end EventQueue

end Gem5Core.Sim.Eventq
