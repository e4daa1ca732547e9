import Mathlib.Logic.Function.Basic
import Salam.Lib.PrefixMask

/-!
# `Trie`

The trie of `base/trie.hh` in a heap of nodes. A pointer is an address of the heap, a null pointer is `none`; the root
`head` is the node at address `0`. A call that fails an assertion, panics or follows a dangling pointer ends in an
error.
The loops are given `rounds` rounds, more than the nesting of masks allows.
-/

namespace Salam.Base

/-- A node of the trie. -/
structure Trie.Node (w : Nat) (V : Type) where
  key : BitVec w
  mask : BitVec w
  value : Option V
  parent : Option Nat
  /-- `kids[0]` and `kids[1]`. -/
  kids : Bool → Option Nat

/-- The nodes that are allocated, and the address that `new` takes next. -/
structure Trie (w : Nat) (V : Type) where
  heap : Nat → Option (Trie.Node w V)
  next : Nat

namespace Trie

/-- How a call can go wrong. -/
inductive Err
  /-- `assert(val)` -/
  | nullValue
  /-- `assert(!node->value)` -/
  | hasValue
  /-- `assert(node->value)` -/
  | noValue
  /-- "Trie: Can't remove root node." -/
  | removeRoot
  /-- "Trie: Inconsistent parent/kid relationship." -/
  | inconsistent
  /-- "Reached the end of the Trie insert function!" -/
  | endOfInsert
  | dangling
  | outOfRounds
  deriving DecidableEq

variable {w : Nat} {V : Type}

namespace Node

/-- The constructor. -/
def new (key mask : BitVec w) (val : Option V) : Node w V :=
  { key := key &&& mask, mask, value := val, parent := none, kids := fun _ => none }

/-- A new node with its parent. -/
def child (parent : Nat) (key mask : BitVec w) (val : Option V) : Node w V :=
  { new key mask val with parent := some parent }

/-- `matches` -/
def matchesKey (n : Node w V) (test : BitVec w) : Bool := test &&& n.mask == n.key

def setKid (n : Node w V) (i : Bool) (k : Option Nat) : Node w V := { n with kids := Function.update n.kids i k }

end Node

/-- The constructor. -/
def empty : Trie w V where
  heap := Function.update (fun _ => none) 0 (some (Node.new 0 0 none))
  next := 1

/-- Follow a pointer. -/
def node (t : Trie w V) (a : Nat) : Except Err (Node w V) :=
  match t.heap a with
  | some n => .ok n
  | none => .error .dangling

/-- Write a node. -/
def set (t : Trie w V) (a : Nat) (n : Node w V) : Trie w V := { t with heap := Function.update t.heap a (some n) }

/-- `new` -/
def alloc (t : Trie w V) (n : Node w V) : Trie w V :=
  { heap := Function.update t.heap t.next (some n), next := t.next + 1 }

def delete (t : Trie w V) (a : Nat) : Trie w V := { t with heap := Function.update t.heap a none }

/-- More rounds than any loop takes. -/
def rounds (w : Nat) : Nat := w + 2

/-- The kid that `goesAfter` advances to. -/
def goesAfter (t : Trie w V) (kid : Option Nat) (key newMask : BitVec w) : Except Err (Option Nat) :=
  match kid with
  | none => .ok none
  | some k => do
    let n ← t.node k
    return if n.matchesKey key ∧ n.mask &&& newMask = n.mask then some k else none

def extendMask (orig : BitVec w) : BitVec w := orig ||| (orig >>> 1) ||| (1#w <<< (w - 1))

/-- A kid, if it is there and matches. -/
def matchingKid (t : Trie w V) (kid : Option Nat) (key : BitVec w) : Except Err (Option Nat) :=
  match kid with
  | none => .ok none
  | some k => do
    let n ← t.node k
    return if n.matchesKey key then some k else none

/-- The loop of `lookupHandle`. -/
def lookupFrom (t : Trie w V) (key : BitVec w) : Nat → Nat → Except Err (Option Nat)
  | 0, _ => .error .outOfRounds
  | fuel + 1, a => do
    let n ← t.node a
    if n.value.isSome then return some a
    match ← t.matchingKid (n.kids false) key with
    | some k => lookupFrom t key fuel k
    | none =>
      match ← t.matchingKid (n.kids true) key with
      | some k => lookupFrom t key fuel k
      | none => return none

def lookupHandle (t : Trie w V) (key : BitVec w) : Except Err (Option Nat) := t.lookupFrom key (rounds w) 0

/-- The walk of `insert` past the nodes that the new node comes after. -/
def walk (t : Trie w V) (key newMask : BitVec w) : Nat → Nat → Except Err Nat
  | 0, _ => .error .outOfRounds
  | fuel + 1, a => do
    let n ← t.node a
    match ← t.goesAfter (n.kids false) key newMask with
    | some k => walk t key newMask fuel k
    | none =>
      match ← t.goesAfter (n.kids true) key newMask with
      | some k => walk t key newMask fuel k
      | none => return a

/-- The walk down a leg until something does not match or the bits run out: the value of `cur_mask` after it. -/
def walkLeg (key kidKey newMask : BitVec w) : Nat → BitVec w → Except Err (BitVec w)
  | 0, _ => .error .outOfRounds
  | fuel + 1, lastMask =>
    let curMask := extendMask lastMask
    if key &&& curMask ≠ kidKey &&& curMask ∨ lastMask = newMask then .ok lastMask
    else walkLeg key kidKey newMask fuel curMask

/-- `new Node(key, mask, val)` that becomes `kids[i]` of `a`. -/
def addKid (t : Trie w V) (a : Nat) (i : Bool) (key mask : BitVec w) (val : Option V) :
    Except Err (Trie w V × Nat) := do
  let t₁ := t.alloc (.child a key mask val)
  let n ← t₁.node a
  return (t₁.set a (n.setKid i (some t.next)), t.next)

/-- The new node between `a` and its kid `k`, without a value. -/
def addAbove (t : Trie w V) (a : Nat) (i : Bool) (k : Nat) (key mask : BitVec w) : Except Err (Trie w V × Nat) := do
  let t₁ := t.alloc (.child a key mask none)
  let kid ← t₁.node k
  let t₂ := t₁.set k { kid with parent := some t.next }
  let newNode ← t₂.node t.next
  let t₃ := t₂.set t.next (newNode.setKid false (some k))
  let n ← t₃.node a
  return (t₃.set a (n.setKid i (some t.next)), t.next)

/-- `node->value = val` -/
def setValue (t : Trie w V) (a : Nat) (val : Option V) : Except Err (Trie w V) := do
  let n ← t.node a
  return t.set a { n with value := val }

/-- One round of the loop of `insert` over the kids: `none` stands for `continue`. -/
def insertLeg (t : Trie w V) (a : Nat) (key newMask : BitVec w) (val : Option V) (i : Bool) (curMask : BitVec w) :
    Except Err (BitVec w × Option (Trie w V × Nat)) := do
  let n ← t.node a
  match n.kids i with
  | none => return (curMask, some (← t.addKid a i key newMask val))
  | some k =>
    let kid ← t.node k
    let curMask ← walkLeg key kid.key newMask (rounds w) curMask
    if curMask = n.mask then return (curMask, none)
    let (t₁, new) ← t.addAbove a i k key curMask
    if curMask = newMask then return (curMask, some (← t₁.setValue new val, new))
    return (curMask, some (← t₁.addKid new true key newMask val))

/-- The mask of the leading `width` bits. -/
def widthMask (width : Nat) : BitVec w := if width < w then BitVec.allOnes w <<< (w - width) else BitVec.allOnes w

def insert (t : Trie w V) (key : BitVec w) (width : Nat) (val : Option V) : Except Err (Trie w V × Nat) := do
  if val.isNone then throw .nullValue
  let newMask := widthMask width
  let key := key &&& newMask
  let a ← t.walk key newMask (rounds w) 0
  let n ← t.node a
  if n.mask = newMask then
    if n.value.isSome then throw .hasValue
    return (← t.setValue a val, a)
  let (curMask, r) ← t.insertLeg a key newMask val false n.mask
  match r with
  | some r => return r
  | none =>
    let (_, r) ← t.insertLeg a key newMask val true curMask
    match r with
    | some r => return r
    | none => throw .endOfInsert

def lookup (t : Trie w V) (key : BitVec w) : Except Err (Option V) := do
  match ← t.lookupHandle key with
  | some a => return (← t.node a).value
  | none => return none

/-- The parent with its pointer to the removed node set to the kid of that node, and its only kid in `kids[0]`. -/
def unlinkKid (pn : Node w V) (a : Nat) (kid : Option Nat) : Except Err (Node w V) := do
  let pn₁ ←
    if pn.kids false = some a then pure (pn.setKid false kid)
    else if pn.kids true = some a then pure (pn.setKid true kid)
    else throw .inconsistent
  return if pn₁.kids true ≠ none ∧ pn₁.kids false = none then (pn₁.setKid false (pn₁.kids true)).setKid true none
    else pn₁

/-- Fix up the parent pointer of a kid, if there is one. -/
def adopt (t : Trie w V) (kid : Option Nat) (p : Nat) : Except Err (Trie w V) :=
  match kid with
  | none => .ok t
  | some k => do
    let n ← t.node k
    return t.set k { n with parent := some p }

/-- Take `a`, with the fields of `n`, out of the links; also its parent. -/
def unlink (t : Trie w V) (a : Nat) (n : Node w V) : Except Err (Trie w V × Nat) :=
  match n.parent with
  | none => .error .removeRoot
  | some p => do
    let t₁ ← t.adopt (n.kids false) p
    let pn ← t₁.node p
    return (t₁.set p (← unlinkKid pn a (n.kids false)), p)

/-- `remove` of a handle. -/
def removeFrom (t : Trie w V) : Nat → Nat → Except Err (Trie w V × Option V)
  | 0, _ => .error .outOfRounds
  | fuel + 1, a => do
    let n ← t.node a
    if n.kids true ≠ none then
      if n.value.isNone then throw .noValue
      return (t.set a { n with value := none }, n.value)
    let (t₁, p) ← t.unlink a n
    let pn ← t₁.node p
    -- the parent has less than two kids and no cargo and is not the root
    if pn.kids true = none ∧ pn.value.isNone ∧ pn.parent ≠ none then
      let (t₂, _) ← removeFrom t₁ fuel p
      return (t₂.delete a, n.value)
    return (t₁.delete a, n.value)

/-- `remove` of a handle. -/
def remove (t : Trie w V) (handle : Nat) : Except Err (Trie w V × Option V) := t.removeFrom (rounds w) handle

/-- `remove` of a key. -/
def removeKey (t : Trie w V) (key : BitVec w) : Except Err (Trie w V × Option V) := do
  match ← t.lookupHandle key with
  | none => return (t, none)
  | some handle => t.remove handle

end Trie

end Salam.Base
