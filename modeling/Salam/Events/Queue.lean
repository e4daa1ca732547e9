import Mathlib.Data.Prod.Lex
import Mathlib.Logic.Function.Basic
import Salam.Lib.System

/-!
# `EventQueue`

The event queue as a list of bins, each a stack of the events with one time and priority: `nextBin` leads from the top
of a bin to the top of the next one, `nextInBin` from an event to the one under it. The `nextBin` of an event that is
not on top is left as it was.

An event is its address. The members of the event objects are functions of the address, the two links apart from the
others because only `insert` and `remove` write them. A loop along the links gets a number of iterations, and `Err.loop`
says that they did not suffice; `priority_queue` shows that this does not happen with as many as there are events in the
queue.

`inserted` records the events in the queue, the last one inserted first, for the statements and as this number.

`serviceOne` is cut in two where it calls `process()`, so that what `process()` calls are operations of their own.
The queue is served by one thread, so `asyncInsert` does not occur.
-/

namespace Salam.Events

/-- The address of an `Event`. -/
abbrev Ptr := Nat

/-! ## The flags of an event -/

/-- `Flags<unsigned short>`. -/
abbrev Flags := BitVec 16

namespace Flags

def squashed : Flags := 0x0001
def scheduled : Flags := 0x0002
def managed : Flags := 0x0004
def isExitEvent : Flags := 0x0010
def initialized : Flags := 0x7a40
def initMask : Flags := 0xffc0

def isSet (f m : Flags) : Bool := f &&& m != 0
def set (f m : Flags) : Flags := f ||| m
def clear (f m : Flags) : Flags := f &&& ~~~m

end Flags

structure Event where
  when : Nat
  priority : Int
  flags : Flags

namespace Event

def scheduled (x : Event) : Bool := x.flags.isSet .scheduled
def squashed (x : Event) : Bool := x.flags.isSet .squashed
def initialized (x : Event) : Bool := x.flags &&& .initMask == .initialized

/-- `operator<`, `operator<=` and `operator==`. -/
def lt (l r : Event) : Bool := l.when < r.when || l.when = r.when && l.priority < r.priority
def le (l r : Event) : Bool := l.when < r.when || l.when = r.when && l.priority ≤ r.priority
def eq (l r : Event) : Bool := l.when = r.when && l.priority = r.priority

def set (x : Event) (m : Flags) : Event := { x with flags := x.flags.set m }
def clear (x : Event) (m : Flags) : Event := { x with flags := x.flags.clear m }

end Event

/-! ## `insert` and `remove` -/

inductive Err
  /-- `panic("event not found!")`. -/
  | notFound
  /-- A loop did not come to its end. -/
  | loop
  /-- An `assert` of the operation. -/
  | assertion
  deriving DecidableEq

structure Links where
  nextBin : Ptr → Option Ptr
  nextInBin : Ptr → Option Ptr

section Links

variable (ev : Ptr → Event) (l : Links) (n : Nat) (e : Ptr)

/-- `Event::insertBefore`, which returns `e`. -/
def insertBefore : Option Ptr → Links
  | none => ⟨Function.update l.nextBin e none, Function.update l.nextInBin e none⟩
  | some curr =>
    if (ev e).lt (ev curr) then ⟨Function.update l.nextBin e (some curr), Function.update l.nextInBin e none⟩
    else ⟨Function.update l.nextBin e (l.nextBin curr), Function.update l.nextInBin e (some curr)⟩

/-- The loop over `prev` and `curr` in `insert` and `remove`. -/
def findBin : Nat → Ptr → Option Ptr → Except Err (Ptr × Option Ptr)
  | _, prev, none => .ok (prev, none)
  | 0, prev, some curr => if (ev curr).lt (ev e) then .error .loop else .ok (prev, some curr)
  | n + 1, prev, some curr => if (ev curr).lt (ev e) then findBin n curr (l.nextBin curr) else .ok (prev, some curr)

/-- The loop over `curr` and `next` in `removeItem`, and the removal after it. -/
def removeLoop : Nat → Ptr → Option Ptr → Except Err Links
  | _, _, none => .error .notFound
  | 0, curr, some next =>
    if e = next then .ok { l with nextInBin := Function.update l.nextInBin curr (l.nextInBin next) } else .error .loop
  | n + 1, curr, some next =>
    if e = next then .ok { l with nextInBin := Function.update l.nextInBin curr (l.nextInBin next) }
    else removeLoop n next (l.nextInBin next)

/-- `Event::removeItem`: the links and the new top. -/
def removeItem (top : Ptr) : Except Err (Links × Option Ptr) :=
  if e = top then
    match l.nextInBin top with
    | none => .ok (l, l.nextBin top)
    | some next => .ok ({ l with nextBin := Function.update l.nextBin next (l.nextBin top) }, some next)
  else (removeLoop l e n top (l.nextInBin top)).map fun l => (l, some top)

end Links

/-- `head` and the links. -/
structure Queue where
  head : Option Ptr
  links : Links

namespace Queue

variable (ev : Ptr → Event) (n : Nat) (q : Queue) (e : Ptr)

/-- `EventQueue::insert`. -/
def insert : Except Err Queue :=
  match q.head with
  | none => .ok ⟨some e, insertBefore ev q.links e none⟩
  | some head =>
    if (ev e).le (ev head) then .ok ⟨some e, insertBefore ev q.links e (some head)⟩
    else
      (findBin ev q.links e n head (q.links.nextBin head)).map fun (prev, curr) =>
        let l := insertBefore ev q.links e curr
        { q with links := { l with nextBin := Function.update l.nextBin prev (some e) } }

/-- `EventQueue::remove`. -/
def remove : Except Err Queue :=
  match q.head with
  | none => .error .notFound
  | some head =>
    if (ev head).eq (ev e) then (removeItem q.links n e head).map fun (l, top) => ⟨top, l⟩
    else
      match findBin ev q.links e n head (q.links.nextBin head) with
      | .error x => .error x
      | .ok (_, none) => .error .notFound
      | .ok (prev, some curr) =>
        if (ev curr).eq (ev e) then
          (removeItem q.links n e curr).map fun (l, top) =>
            { q with links := { l with nextBin := Function.update l.nextBin prev top } }
        else .error .notFound

/-- What `serviceOne` does to the queue: `head` is popped. -/
def pop (head : Ptr) : Queue :=
  match q.links.nextInBin head with
  | some next =>
    ⟨some next, { q.links with nextBin := Function.update q.links.nextBin next (q.links.nextBin head) }⟩
  | none => { q with head := q.links.nextBin head }

end Queue

/-! ## The operations -/

structure St where
  events : Ptr → Event
  queue : Queue
  curTick : Nat
  /-- The event whose `process()` is running. -/
  servicing : Option Ptr
  inserted : List Ptr

inductive Op
  /-- The constructor, at an address where there is no event or one that is not scheduled. -/
  | construct (e : Ptr) (priority : Int) (managed isExitEvent : Bool)
  /-- The destructor. -/
  | destroy (e : Ptr)
  | schedule (e : Ptr) (when : Nat)
  | deschedule (e : Ptr)
  | reschedule (e : Ptr) (when : Nat) (always : Bool)
  | squash (e : Ptr)
  /-- `serviceOne()` up to the call of `process()`, or to its end for a squashed event. -/
  | serviceOne
  /-- `process()` returns. -/
  | processed
  deriving DecidableEq

namespace St

variable (s : St) (e : Ptr)

def event : Event := s.events e

def modify (f : Event → Event) : St := { s with events := Function.update s.events e (f (s.event e)) }

/-- `insert(event)`. -/
def insert : Except Err St :=
  (s.queue.insert s.events s.inserted.length e).map fun q => { s with queue := q, inserted := e :: s.inserted }

/-- `remove(event)`. -/
def remove : Except Err St :=
  (s.queue.remove s.events s.inserted.length e).map fun q => { s with queue := q, inserted := s.inserted.erase e }

/-- `release()` with the `releaseImpl()` of `Event`, which deletes the event if it is not scheduled. -/
def release : St :=
  if (s.event e).flags.isSet .managed && !(s.event e).scheduled then s.modify e fun x => { x with flags := 0 } else s

def schedule (when : Nat) : Except Err St :=
  if s.curTick ≤ when ∧ (s.event e).scheduled = false ∧ (s.event e).initialized = true then
    ((s.modify e fun x => { x with when := when }).insert e).map fun s => s.modify e (·.set .scheduled)
  else .error .assertion

def deschedule : Except Err St :=
  if (s.event e).scheduled = true ∧ (s.event e).initialized = true then
    (s.remove e).map fun s => (s.modify e fun x => (x.clear .squashed).clear .scheduled).release e
  else .error .assertion

def reschedule (when : Nat) (always : Bool) : Except Err St :=
  if s.curTick ≤ when ∧ (always = true ∨ (s.event e).scheduled = true) ∧ (s.event e).initialized = true then do
    let s ← if (s.event e).scheduled then s.remove e else .ok s
    let s ← (s.modify e fun x => { x with when := when }).insert e
    .ok (s.modify e fun x => (x.clear .squashed).set .scheduled)
  else .error .assertion

/-- `serviceOne()` with `head` as its `event`. -/
def service (head : Ptr) : St :=
  let s := { s.modify head (·.clear .scheduled) with
    queue := s.queue.pop head, inserted := s.inserted.erase head }
  if (s.event head).squashed then (s.modify head (·.clear .squashed)).release head
  else { s with curTick := (s.event head).when, servicing := some head }

/-- After `process()`: an exit event is returned to the caller, any other released. -/
def afterProcess : St :=
  let s := { s with servicing := none }
  if (s.event e).flags.isSet .isExitEvent then s else s.release e

def exec : Op → Except Err St
  | .construct e p managed exit =>
    if (s.event e).scheduled then .error .assertion
    else .ok { s with
      events := Function.update s.events e ⟨0, p,
        ((Flags.initialized.set (if managed then .managed else 0)).set (if exit then .isExitEvent else 0))⟩
      queue := { s.queue with links :=
        ⟨Function.update s.queue.links.nextBin e none, Function.update s.queue.links.nextInBin e none⟩ } }
  | .destroy e => if (s.event e).scheduled then .error .assertion else .ok (s.modify e fun x => { x with flags := 0 })
  | .schedule e when => s.schedule e when
  | .deschedule e => s.deschedule e
  | .reschedule e when always => s.reschedule e when always
  | .squash e => .ok (s.modify e (·.set .squashed))
  | .serviceOne =>
    match s.queue.head, s.servicing with
    | some head, none => .ok (s.service head)
    | _, _ => .error .assertion
  | .processed =>
    match s.servicing with
    | some e => .ok (s.afterProcess e)
    | none => .error .assertion

/-- A queue made by the constructor, and no event scheduled. -/
def Fresh : Prop :=
  s.queue.head = none ∧ s.curTick = 0 ∧ s.servicing = none ∧ s.inserted = [] ∧ ∀ e, (s.event e).scheduled = false

end St

/-- Every sequence of operations. -/
def eventQueue : System St Op where
  init := St.Fresh
  step s op := (s.exec op).toOption

end Salam.Events
