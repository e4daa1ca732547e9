import Mathlib.Algebra.Order.Group.Nat
import Salam.Lib.System

/-!
# `CircularQueue`

The circular queue of `base/circular_queue.hh`: a vector, the indices of the first and the last element, a flag that
tells an empty queue from a full one, and the number of times the tail has wrapped around. Counters have 32 bits.

* `circularQueue_refines_fifo`: the queue is a bounded FIFO exactly when its capacity is not one, as long as the counter
  of rounds does not wrap around under the elements that are popped.
* `circularQueue_capacity_one`: at capacity one the first element is read outside the vector.
-/

namespace Salam.Base

/-- The queue. -/
structure CircularQueue (T : Type) where
  store : List T
  capacity : Nat
  head : Nat
  tail : Nat
  isEmpty : Bool
  round : Nat

namespace CircularQueue

/-- An iterator. -/
structure Iter where
  idx : Nat
  round : Nat
  deriving DecidableEq

variable {T : Type}

/-- `moduloAdd`, on 32 bit operands. -/
def moduloAdd (op₁ op₂ size : Nat) : Nat := (op₁ + op₂) % 2 ^ 32 % size

/-- `++round` -/
def incRound (round : Nat) : Nat := (round + 1) % 2 ^ 32

/-- `--round` -/
def decRound (round : Nat) : Nat := (round + (2 ^ 32 - 1)) % 2 ^ 32

/-- The constructor. -/
def new [Inhabited T] (size : Nat) : CircularQueue T :=
  { store := List.replicate size default, capacity := size, head := 1, tail := 0, isEmpty := true, round := 0 }

def increase (q : CircularQueue T) (v : Nat) : Nat := moduloAdd v 1 q.capacity

def decrease (q : CircularQueue T) (v : Nat) : Nat := (if v ≠ 0 then v else q.capacity) - 1

/-- `iterator::operator++` -/
def next (q : CircularQueue T) (it : Iter) : Iter :=
  let idx := q.increase it.idx
  { idx, round := if idx = 0 then incRound it.round else it.round }

/-- `iterator::operator+=` of a number that is not negative. -/
def advance (q : CircularQueue T) (it : Iter) (t : Nat) : Iter :=
  { round := (it.round + (t + it.idx) / q.capacity) % 2 ^ 32, idx := moduloAdd it.idx t q.capacity }

/-- `iterator::operator<` -/
def Iter.lt (a b : Iter) : Prop := a.round < b.round ∨ a.round = b.round ∧ a.idx < b.idx

instance (a b : Iter) : Decidable (a.lt b) := inferInstanceAs (Decidable (_ ∨ _))

/-- `end` -/
def endIt (q : CircularQueue T) : Iter :=
  let poi := moduloAdd q.tail 1 q.capacity
  { idx := poi, round := if poi = 0 then incRound q.round else q.round }

def begin (q : CircularQueue T) : Iter :=
  if q.isEmpty then q.endIt
  else if q.tail < q.head then { idx := q.head, round := decRound q.round }
  else { idx := q.head, round := q.round }

def front (q : CircularQueue T) : Option T := q.store[q.head]?

def back (q : CircularQueue T) : Option T := q.store[q.tail]?

def size (q : CircularQueue T) : Nat :=
  if q.isEmpty then 0
  else if q.head ≤ q.tail then q.tail - q.head + 1
  else q.capacity - q.head + q.tail + 1

def full (q : CircularQueue T) : Bool :=
  !q.isEmpty && (q.tail + 1 = q.head || (q.tail + 1 = q.capacity && q.head = 0))

/-- `pop_front`; nothing if the assertion fails. -/
def popFront (q : CircularQueue T) (numElem : Nat) : Option (CircularQueue T) :=
  if numElem = 0 then some q
  else
    let hIt := q.advance q.begin numElem
    -- `assert(hIt <= end())`
    if q.endIt.lt hIt then none else some { q with isEmpty := hIt = q.endIt, head := hIt.idx }

/-- `pop_back`; nothing if the assertion fails. -/
def popBack (q : CircularQueue T) : Option (CircularQueue T) :=
  if q.isEmpty then none
  else
    some { q with
      isEmpty := q.head = q.tail
      round := if q.tail = 0 then decRound q.round else q.round
      tail := q.decrease q.tail }

/-- `advance_tail` -/
def advanceTail (q : CircularQueue T) : CircularQueue T :=
  let tail := q.increase q.tail
  { q with
    tail
    round := if tail = 0 then incRound q.round else q.round
    head := if tail = q.head ∧ q.isEmpty = false then q.increase q.head else q.head
    isEmpty := false }

/-- `push_back` -/
def pushBack (q : CircularQueue T) (val : T) : CircularQueue T :=
  { q.advanceTail with store := q.store.set q.advanceTail.tail val }

/-- Iterate from `it` on to the end; nothing if a slot outside the vector is read or the end is not met. -/
def walk (q : CircularQueue T) : Nat → Iter → Option (List T)
  | 0, it => if it = q.endIt then some [] else none
  | fuel + 1, it =>
    if it = q.endIt then some []
    else do
      let v ← q.store[it.idx]?
      let vs ← walk q fuel (q.next it)
      return v :: vs

/-- What iterating from `begin()` to `end()` yields. -/
def elems (q : CircularQueue T) : Option (List T) := q.walk q.capacity q.begin

/-! ## The bounded FIFO -/

/-- A bounded FIFO after a push: the oldest element goes if there is no room. -/
def pushed (c : Nat) (items : List T) (v : T) : List T := (items ++ [v]).drop (items.length + 1 - c)

/-- A queue and the elements it stands for. -/
structure State (T : Type) where
  queue : CircularQueue T
  items : List T

/-- The calls. -/
inductive Op (T : Type)
  | pushBack (val : T)
  | popFront (numElem : Nat)
  | popBack
  | advanceTail (len : Nat)

/-- `advance_tail` lets what is in the next slot in. -/
def State.advanceTail [Inhabited T] (s : State T) : State T :=
  { queue := s.queue.advanceTail
    items := pushed s.queue.capacity s.items (s.queue.store.getD s.queue.advanceTail.tail default) }

/-- `advance_tail` of a number of steps. -/
def State.advanceTailBy [Inhabited T] : Nat → State T → State T
  | 0, s => s
  | len + 1, s => advanceTailBy len s.advanceTail

/-- One call; pops are within the size. -/
def step [Inhabited T] (s : State T) : Op T → Option (State T)
  | .pushBack val => some { queue := s.queue.pushBack val, items := pushed s.queue.capacity s.items val }
  | .popFront numElem =>
    if numElem ≤ s.items.length then
      (s.queue.popFront numElem).map fun q => { queue := q, items := s.items.drop numElem }
    else none
  | .popBack => if s.items ≠ [] then s.queue.popBack.map fun q => { queue := q, items := s.items.dropLast } else none
  | .advanceTail len => some (s.advanceTailBy len)

/-- A queue of a capacity from its construction on. -/
def system (T : Type) [Inhabited T] (capacity : Nat) : System (State T) (Op T) where
  init s := s = { queue := new capacity, items := [] }
  step := step

/-- The new head is not before a wrap of the counter of rounds that the end is behind, and adding to the index of the
head does not overflow. -/
def PopFits (q : CircularQueue T) (numElem : Nat) : Prop :=
  numElem = 0 ∨ q.head + numElem < 2 ^ 32 ∧
    ¬ (q.head + numElem < q.capacity ∧
      (q.round = 0 ∧ q.tail < q.head ∨ q.round = 2 ^ 32 - 1 ∧ q.tail + 1 = q.capacity))

instance (q : CircularQueue T) (numElem : Nat) : Decidable (PopFits q numElem) := inferInstanceAs (Decidable (_ ∨ _))

/-- The calls that the counters are wide enough for. -/
def Fits (s : State T) : Op T → Prop
  | .popFront numElem => PopFits s.queue numElem
  | _ => True

instance (s : State T) : (op : Op T) → Decidable (Fits s op)
  | .popFront numElem => inferInstanceAs (Decidable (PopFits s.queue numElem))
  | .pushBack _ | .popBack | .advanceTail _ => inferInstanceAs (Decidable True)

/-- The queue agrees with the elements that it stands for. -/
structure Agrees (s : State T) : Prop where
  elems : s.queue.elems = some s.items
  size : s.queue.size = s.items.length
  empty : s.queue.isEmpty = true ↔ s.items = []
  full : s.queue.full = true ↔ s.items.length = s.queue.capacity
  front : s.items ≠ [] → s.queue.front = s.items.head?
  back : s.items ≠ [] → s.queue.back = s.items.getLast?
  head : s.queue.head < s.queue.capacity
  tail : s.queue.tail < s.queue.capacity
  popFront : ∀ n ≤ s.items.length, PopFits s.queue n → (s.queue.popFront n).isSome
  popBack : s.items ≠ [] → s.queue.popBack.isSome

/-! ## Positions -/

section Positions

variable {c H d : Nat}

/-- A position that is at most one capacity further on: the index wraps around once or not at all. -/
theorem wrap (hc : 0 < c) (H : Nat) (hd : d ≤ c) :
    (H % c + d < c ∧ (H + d) / c = H / c ∧ (H + d) % c = H % c + d) ∨
      (c ≤ H % c + d ∧ (H + d) / c = H / c + 1 ∧ (H + d) % c + c = H % c + d) := by
  have hH := Nat.div_add_mod H c
  have hmod := Nat.mod_lt H hc
  by_cases h : H % c + d < c
  · have he : H + d = H % c + d + c * (H / c) := by omega
    refine .inl ⟨h, ?_, ?_⟩
    · rw [he, Nat.add_mul_div_left _ _ hc, Nat.div_eq_of_lt h, Nat.zero_add]
    · rw [he, Nat.add_mul_mod_self_left, Nat.mod_eq_of_lt h]
  · have he : H + d = H % c + d - c + c * (H / c + 1) := by
      rw [Nat.mul_add, Nat.mul_one]
      omega
    have hlt : H % c + d - c < c := by omega
    refine .inr ⟨by omega, ?_, ?_⟩
    · rw [he, Nat.add_mul_div_left _ _ hc, Nat.div_eq_of_lt hlt, Nat.zero_add]
    · rw [he, Nat.add_mul_mod_self_left, Nat.mod_eq_of_lt hlt]
      omega

/-- The iterator of a position. -/
def pos (c k : Nat) : Iter := { idx := k % c, round := k / c % 2 ^ 32 }

/-- Positions less than a capacity apart, or a capacity apart, have different iterators. -/
theorem pos_inj (hc : 0 < c) (hd : d ≤ c) (h : pos c H = pos c (H + d)) : d = 0 := by
  have hidx : H % c = (H + d) % c := congrArg Iter.idx h
  have hround : H / c % 2 ^ 32 = (H + d) / c % 2 ^ 32 := congrArg Iter.round h
  rcases wrap hc H hd with ⟨-, -, h₁⟩ | ⟨-, h₁, -⟩
  · omega
  · rw [h₁] at hround
    omega

theorem slot_ne (hc : 0 < c) (hd : d < c) (h : H % c = (H + d) % c) : d = 0 := by
  rcases wrap hc H (Nat.le_of_lt hd) with ⟨-, -, h₁⟩ | ⟨-, -, h₁⟩ <;> omega

theorem moduloAdd_mod {k n : Nat} (hfit : k % c + n < 2 ^ 32) : moduloAdd (k % c) n c = (k + n) % c := by
  rw [moduloAdd, Nat.mod_eq_of_lt hfit, Nat.mod_add_mod]

variable {q : CircularQueue T}

theorem next_pos (hc : 0 < c) (hc' : c < 2 ^ 32) (hq : q.capacity = c) (k : Nat) :
    q.next (pos c k) = pos c (k + 1) := by
  have hmod := Nat.mod_lt k hc
  unfold next pos increase incRound
  simp only [hq, moduloAdd_mod (show k % c + 1 < 2 ^ 32 by omega), Iter.mk.injEq, true_and]
  rcases wrap hc k (show 1 ≤ c by omega) with ⟨h₁, h₂, h₃⟩ | ⟨h₁, h₂, h₃⟩
  · rw [if_neg (by omega), h₂]
  · rw [if_pos (by omega), h₂]
    omega

theorem advance_pos (hc : 0 < c) (hq : q.capacity = c) (k : Nat) {n : Nat} (hn : n ≤ c) (hfit : k % c + n < 2 ^ 32) :
    q.advance (pos c k) n = pos c (k + n) := by
  unfold advance pos
  simp only [hq, moduloAdd_mod hfit, Iter.mk.injEq, true_and]
  have hmod := Nat.mod_lt k hc
  rcases wrap hc k hn with ⟨h₁, h₂, -⟩ | ⟨h₁, h₂, -⟩
  · rw [h₂, Nat.div_eq_of_lt (show n + k % c < c by omega)]
    omega
  · rw [h₂, show (n + k % c) / c = 1 from Nat.div_eq_of_lt_le (by omega) (by omega)]
    omega

end Positions

/-! ## The invariant -/

/-- The elements lie in the slots from position `H` on. -/
structure Inv (c : Nat) (s : State T) (H : Nat) : Prop where
  capacity : s.queue.capacity = c
  store : s.queue.store.length = c
  start : 1 ≤ H
  length : s.items.length ≤ c
  head : s.queue.head = H % c
  tail : s.queue.tail = (H + s.items.length - 1) % c
  round : s.queue.round = (H + s.items.length - 1) / c % 2 ^ 32
  empty : s.queue.isEmpty = true ↔ s.items.length = 0
  slots : ∀ i < s.items.length, s.queue.store[(H + i) % c]? = s.items[i]?

section Inv

variable {c H : Nat} {s : State T}

section

variable (h : Inv c s H) (hc : 0 < c)
include h hc

theorem Inv.endIt (hc' : c < 2 ^ 32) : s.queue.endIt = pos c (H + s.items.length) := by
  have hstart := h.start
  have hend : s.queue.endIt = s.queue.next (pos c (H + s.items.length - 1)) := by
    unfold CircularQueue.endIt next increase pos
    rw [h.tail, h.round]
  rw [hend, next_pos hc hc' h.capacity]
  congr 1
  omega

theorem Inv.begin (hc' : c < 2 ^ 32) : s.queue.begin = pos c H := by
  unfold CircularQueue.begin
  have hlen := h.length
  by_cases he : s.items.length = 0
  · rw [if_pos (h.empty.mpr he), h.endIt hc hc', he, Nat.add_zero]
  · rw [if_neg (by rw [h.empty]; exact he), h.head, h.tail, h.round]
    have heq : H + s.items.length - 1 = H + (s.items.length - 1) := by omega
    rw [heq]
    rcases wrap hc H (show s.items.length - 1 ≤ c by omega) with ⟨h₁, h₂, h₃⟩ | ⟨h₁, h₂, h₃⟩
    · rw [if_neg (by omega), h₂]
      rfl
    · rw [if_pos (by omega), h₂]
      unfold decRound pos
      simp only [Iter.mk.injEq, true_and]
      omega

theorem Inv.walk (hc' : c < 2 ^ 32) : ∀ (fuel i : Nat), i ≤ s.items.length →
    s.items.length ≤ fuel + i → s.queue.walk fuel (pos c (H + i)) = some (s.items.drop i) := by
  have hlen := h.length
  -- the end is met at the last element and not before
  have hstop : ∀ i ≤ s.items.length, pos c (H + i) = s.queue.endIt ↔ i = s.items.length := by
    intro i hi
    rw [h.endIt hc hc']
    constructor
    · intro heq
      have he : H + s.items.length = H + i + (s.items.length - i) := by omega
      rw [he] at heq
      have := pos_inj hc (by omega) heq
      omega
    · rintro rfl
      rfl
  intro fuel
  induction fuel with
  | zero =>
    intro i hi hfuel
    have hieq : i = s.items.length := by omega
    rw [CircularQueue.walk, if_pos ((hstop i hi).mpr hieq), hieq, List.drop_length]
  | succ fuel ih =>
    intro i hi hfuel
    rw [CircularQueue.walk]
    by_cases hieq : i = s.items.length
    · rw [if_pos ((hstop i hi).mpr hieq), hieq, List.drop_length]
    · have hlt : i < s.items.length := by omega
      rw [if_neg (fun heq => hieq ((hstop i hi).mp heq)), next_pos hc hc' h.capacity, Nat.add_assoc,
        ih (i + 1) (by omega) (by omega)]
      have hslot : s.queue.store[(pos c (H + i)).idx]? = some s.items[i] := by
        rw [pos, h.slots i hlt, List.getElem?_eq_getElem hlt]
      rw [hslot]
      exact congrArg some (List.drop_eq_getElem_cons hlt).symm

theorem Inv.popFront (hc' : c < 2 ^ 32) {n : Nat} (hn : n ≤ s.items.length) (hfit : PopFits s.queue n) :
    ∃ q, s.queue.popFront n = some q ∧ Inv c { queue := q, items := s.items.drop n } (H + n) := by
  have hlen := h.length
  unfold CircularQueue.popFront
  by_cases hn0 : n = 0
  · subst hn0
    exact ⟨s.queue, rfl, h⟩
  · obtain ⟨hfit, hround⟩ := hfit.resolve_left hn0
    rw [if_neg hn0, h.begin hc hc', h.endIt hc hc']
    rw [h.head, h.tail, h.round, h.capacity] at hround
    rw [h.head] at hfit
    rw [advance_pos hc h.capacity H (by omega) hfit]
    have he : H + s.items.length = H + n + (s.items.length - n) := by omega
    have ht : H + s.items.length - 1 = H + (s.items.length - 1) := by omega
    -- the end is less than the new head only where its round has wrapped around
    have hassert : ¬ (pos c (H + s.items.length)).lt (pos c (H + n)) := by
      rw [ht] at hround
      unfold Iter.lt pos
      simp only
      rcases wrap hc H (show n ≤ c by omega) with ⟨h₁, hd₁, hm₁⟩ | ⟨h₁, hd₁, hm₁⟩ <;>
        rcases wrap hc H (show s.items.length ≤ c by omega) with ⟨h₂, hd₂, hm₂⟩ | ⟨h₂, hd₂, hm₂⟩ <;>
        rcases wrap hc H (show s.items.length - 1 ≤ c by omega) with ⟨h₃, hd₃, hm₃⟩ | ⟨h₃, hd₃, hm₃⟩ <;>
        rw [hd₁, hd₂] <;> omega
    simp only [if_neg hassert]
    have hlen' : (s.items.drop n).length = s.items.length - n := List.length_drop
    have ht' : H + n + (s.items.drop n).length - 1 = H + s.items.length - 1 := by omega
    refine ⟨_, rfl, h.capacity, h.store, by omega, by rw [hlen']; omega, rfl, ?_, ?_, ?_, ?_⟩
    · rw [ht']
      exact h.tail
    · rw [ht']
      exact h.round
    · simp only [decide_eq_true_eq, hlen']
      constructor
      · intro heq
        rw [he] at heq
        exact pos_inj hc (by omega) heq
      · intro h0
        rw [he, h0, Nat.add_zero]
    · intro i hi
      simp only [hlen'] at hi
      rw [List.getElem?_drop, Nat.add_assoc]
      exact h.slots (n + i) (by omega)

theorem Inv.popBack (hne : s.items ≠ []) : ∃ q, s.queue.popBack = some q ∧
    Inv c { queue := q, items := s.items.dropLast } H := by
  have hstart := h.start
  have hlen := h.length
  have hpos : 0 < s.items.length := List.length_pos_iff.mpr hne
  have hempty : ¬ s.queue.isEmpty = true := by
    rw [h.empty]
    omega
  have hlen' : s.items.dropLast.length = s.items.length - 1 := List.length_dropLast
  unfold CircularQueue.popBack
  rw [if_neg hempty]
  have hprev : H + s.items.length - 1 = H + s.items.length - 2 + 1 := by omega
  have hmod := Nat.mod_lt (H + s.items.length - 2) hc
  have hw := wrap hc (H + s.items.length - 2) (show 1 ≤ c by omega)
  rw [← hprev] at hw
  have htl : H + (s.items.length - 1) - 1 = H + s.items.length - 2 := by omega
  refine ⟨_, rfl, h.capacity, h.store, hstart, by rw [hlen']; omega, h.head, ?_, ?_, ?_, ?_⟩
  · simp only [hlen', htl, decrease, h.tail, h.capacity]
    split <;> omega
  · simp only [hlen', htl, h.tail, h.round, decRound]
    split <;> omega
  · simp only [decide_eq_true_eq, hlen', h.head, h.tail]
    have heq : H + s.items.length - 1 = H + (s.items.length - 1) := by omega
    rw [heq]
    constructor
    · exact slot_ne hc (by omega)
    · intro h0
      rw [h0, Nat.add_zero]
  · intro i hi
    simp only [hlen'] at hi
    rw [List.getElem?_dropLast, if_pos hi]
    exact h.slots i (by omega)

/-- The tail moves on to a slot with a value in it. -/
theorem Inv.pushed (hc' : c < 2 ^ 32) {store : List T} {v : T} (hstore : store.length = c)
    (hv : store[(H + s.items.length) % c]? = some v)
    (hother : ∀ j, j ≠ (H + s.items.length) % c → store[j]? = s.queue.store[j]?) :
    Inv c { queue := { s.queue.advanceTail with store }, items := pushed c s.items v }
      (H + (s.items.length + 1 - c)) := by
  have hstart := h.start
  have hlen := h.length
  have hlen' : (CircularQueue.pushed c s.items v).length = s.items.length + 1 - (s.items.length + 1 - c) := by
    simp [CircularQueue.pushed]
  have hinc : ∀ k, s.queue.increase (k % c) = (k + 1) % c := by
    intro k
    have hmod := Nat.mod_lt k hc
    rw [increase, h.capacity, moduloAdd_mod (by omega)]
  have htail : s.queue.increase s.queue.tail = (H + s.items.length) % c := by
    rw [h.tail, hinc]
    congr 1
    omega
  have hnext : H + (s.items.length + 1 - c) + (CircularQueue.pushed c s.items v).length - 1 = H + s.items.length := by
    omega
  refine ⟨h.capacity, hstore, by omega, by rw [hlen']; omega, ?_, ?_, ?_, ?_, ?_⟩
  · simp only [advanceTail, htail, h.head]
    by_cases hfull : s.items.length = c
    · rw [if_pos, hinc]
      · congr 1
        omega
      · refine ⟨by rw [hfull, Nat.add_mod_right], ?_⟩
        rw [Bool.eq_false_iff, Ne, h.empty]
        omega
    · rw [if_neg, show s.items.length + 1 - c = 0 by omega, Nat.add_zero]
      rintro ⟨heq, hempty⟩
      rw [Bool.eq_false_iff, Ne, h.empty] at hempty
      exact hempty (slot_ne (by omega) (by omega) heq.symm)
  · simp only [advanceTail, htail, hnext]
  · simp only [advanceTail, htail, hnext, h.round, incRound]
    have hprev : H + s.items.length = H + s.items.length - 1 + 1 := by omega
    have hmod := Nat.mod_lt (H + s.items.length - 1) hc
    have hw := wrap hc (H + s.items.length - 1) (show 1 ≤ c by omega)
    rw [← hprev] at hw
    split <;> omega
  · simp only [advanceTail, hlen']
    constructor
    · intro hf
      cases hf
    · omega
  · intro i hi
    simp only [hlen'] at hi
    simp only [CircularQueue.pushed, List.getElem?_drop, Nat.add_assoc]
    generalize hj : s.items.length + 1 - c + i = j
    rcases Nat.lt_or_eq_of_le (show j ≤ s.items.length by omega) with hlt | rfl
    · rw [hother, h.slots j hlt, List.getElem?_append_left hlt]
      intro heq
      have he : H + s.items.length = H + j + (s.items.length - j) := by omega
      rw [he] at heq
      have := slot_ne (by omega) (by omega) heq
      omega
    · rw [hv, List.getElem?_append_right (Nat.le_refl _), Nat.sub_self]
      rfl

theorem Inv.advanceTail_tail (hc' : c < 2 ^ 32) : s.queue.advanceTail.tail = (H + s.items.length) % c := by
  have hstart := h.start
  have hmod := Nat.mod_lt (H + s.items.length - 1) hc
  simp only [CircularQueue.advanceTail, increase, h.tail, h.capacity]
  rw [moduloAdd_mod (by omega)]
  congr 1
  omega

theorem Inv.pushBack (hc' : c < 2 ^ 32) (v : T) :
    Inv c { queue := s.queue.pushBack v, items := CircularQueue.pushed s.queue.capacity s.items v }
      (H + (s.items.length + 1 - c)) := by
  have htail := h.advanceTail_tail hc hc'
  have hlt := Nat.mod_lt (H + s.items.length) hc
  rw [h.capacity]
  apply h.pushed hc hc'
  · rw [List.length_set, h.store]
  · rw [htail, List.getElem?_set_self (by rw [h.store]; exact hlt)]
  · intro j hj
    rw [htail, List.getElem?_set_ne (Ne.symm hj)]

end

theorem Inv.advanceTail [Inhabited T] (h : Inv c s H) (hc : 0 < c) (hc' : c < 2 ^ 32) :
    Inv c s.advanceTail (H + (s.items.length + 1 - c)) := by
  have htail := h.advanceTail_tail hc hc'
  have hlt := Nat.mod_lt (H + s.items.length) hc
  rw [State.advanceTail, h.capacity, htail]
  apply h.pushed hc hc' h.store
  · rw [List.getD_eq_getElem?_getD, List.getElem?_eq_getElem (by rw [h.store]; exact hlt)]
    rfl
  · intro j _
    rfl

theorem Inv.advanceTailBy [Inhabited T] (hc : 0 < c) (hc' : c < 2 ^ 32) : ∀ (len : Nat) {s : State T} {H : Nat},
    Inv c s H → ∃ H', Inv c (s.advanceTailBy len) H'
  | 0, _, H, h => ⟨H, h⟩
  | len + 1, _, _, h => advanceTailBy hc hc' len (h.advanceTail hc hc')

/-- **The queue agrees with its elements.** -/
theorem Inv.agrees (h : Inv c s H) (hc : 0 < c) (hc' : c < 2 ^ 32) : Agrees s := by
  have hlen := h.length
  have hnil : s.items = [] ↔ s.items.length = 0 := List.length_eq_zero_iff.symm
  have hmod := Nat.mod_lt H hc
  have hmodt := Nat.mod_lt (H + s.items.length - 1) hc
  have ht : 0 < s.items.length → H + s.items.length - 1 = H + (s.items.length - 1) := by omega
  have hw := wrap hc H (show s.items.length - 1 ≤ c by omega)
  constructor
  · rw [CircularQueue.elems, h.begin hc hc', h.capacity]
    simpa using h.walk hc hc' c 0 (by omega) (by omega)
  · unfold CircularQueue.size
    by_cases h0 : s.items.length = 0
    · rw [if_pos (h.empty.mpr h0), h0]
    · rw [if_neg (by rw [h.empty]; exact h0), h.head, h.tail, h.capacity, ht (by omega)]
      split <;> omega
  · rw [h.empty, hnil]
  · unfold CircularQueue.full
    by_cases h0 : s.items.length = 0
    · rw [h.empty.mpr h0, h.capacity]
      simp only [Bool.not_true, Bool.false_and, Bool.false_eq_true, false_iff]
      omega
    · have hempty : s.queue.isEmpty = false := by
        rw [Bool.eq_false_iff, Ne, h.empty]
        exact h0
      rw [hempty, h.head, h.tail, h.capacity, ht (by omega)]
      simp only [Bool.not_false, Bool.true_and, Bool.or_eq_true, Bool.and_eq_true, decide_eq_true_eq]
      omega
  · intro hne
    have hpos : 0 < s.items.length := List.length_pos_iff.mpr hne
    rw [CircularQueue.front, h.head, List.head?_eq_getElem?, ← h.slots 0 hpos, Nat.add_zero]
  · intro hne
    have hpos : 0 < s.items.length := List.length_pos_iff.mpr hne
    rw [CircularQueue.back, h.tail, List.getLast?_eq_getElem?, ← h.slots _ (by omega), ht hpos]
  · rw [h.head, h.capacity]
    exact hmod
  · rw [h.tail, h.capacity]
    exact hmodt
  · intro n hn hfit
    obtain ⟨q, hq, -⟩ := h.popFront hc hc' hn hfit
    rw [hq]
    rfl
  · intro hne
    obtain ⟨q, hq, -⟩ := h.popBack hc hne
    rw [hq]
    rfl

end Inv

/-! ## Runs -/

section Runs

variable [Inhabited T] {c : Nat} {s s' : State T}

theorem inv_new (hc : 2 ≤ c) : Inv c { queue := (new c : CircularQueue T), items := [] } 1 := by
  refine ⟨rfl, List.length_replicate, Nat.le_refl 1, Nat.zero_le c, ?_, ?_, ?_, by simp [new], by simp⟩
  · rw [Nat.mod_eq_of_lt (by omega)]
    rfl
  · simp [new]
  · simp [new]

theorem inv_step (hc : 2 ≤ c) (hc' : c < 2 ^ 32) {H : Nat} (h : Inv c s H) {op : Op T} (hfit : Fits s op)
    (hstep : step s op = some s') : ∃ H', Inv c s' H' := by
  cases op with
  | pushBack v =>
    cases hstep
    exact ⟨_, h.pushBack (by omega) hc' v⟩
  | popFront n =>
    simp only [step, Option.ite_none_right_eq_some, Option.map_eq_some_iff] at hstep
    obtain ⟨hn, q, hq, rfl⟩ := hstep
    obtain ⟨q', hq', hinv⟩ := h.popFront (by omega) hc' hn hfit
    cases hq.symm.trans hq'
    exact ⟨_, hinv⟩
  | popBack =>
    simp only [step, Option.ite_none_right_eq_some, Option.map_eq_some_iff] at hstep
    obtain ⟨hne, q, hq, rfl⟩ := hstep
    obtain ⟨q', hq', hinv⟩ := h.popBack (by omega) hne
    cases hq.symm.trans hq'
    exact ⟨_, hinv⟩
  | advanceTail len =>
    cases hstep
    exact Inv.advanceTailBy (by omega) hc' len h

/-- **At every capacity but one, and only there, the queue is a bounded FIFO**, as long as its counters are wide
enough. -/
theorem circularQueue_refines_fifo (hc : 1 ≤ c) (hc' : c < 2 ^ 32) :
    (∀ s, (system T c).ReachableWhen Fits s → Agrees s) ↔ c ≠ 1 := by
  constructor
  · rintro h rfl
    have hhead := (h _ (.init rfl)).head
    exact absurd hhead (by simp [new])
  · intro hne s hs
    obtain ⟨H, hinv⟩ : ∃ H, Inv c s H := by
      refine System.invariantWhen (I := fun s => ∃ H, Inv c s H) ?_ ?_ hs
      · rintro s rfl
        exact ⟨1, inv_new (by omega)⟩
      · rintro s op s' _ ⟨H, hH⟩ hfit hstep
        exact inv_step (by omega) hc' hH hfit hstep
    exact hinv.agrees (by omega) hc'

end Runs

/-- Five elements are pushed into a queue of four, and one is taken out. -/
theorem circularQueue_refines_fifo_four :
    ∃ s, (system Nat 4).ReachableWhen Fits s ∧ s.items = [7, 8, 9] ∧ Agrees s := by
  obtain ⟨s, hs, hitems⟩ := System.reachableWhen_of_replay (S := system Nat 4) (C := fun s op => decide (Fits s op)) rfl
    [.pushBack 5, .pushBack 6, .pushBack 7, .pushBack 8, .pushBack 9, .popFront 1]
      (fun s => s.items = [7, 8, 9]) (by decide)
  have hfits := hs.mono fun _ _ => of_decide_eq_true
  exact ⟨s, hfits, hitems, (circularQueue_refines_fifo (by decide) (by decide)).mpr (by decide) s hfits⟩

/-- At capacity one the head is outside the vector, and stays there when an element is pushed. -/
theorem circularQueue_capacity_one : ¬ ∀ c, 1 ≤ c → c < 2 ^ 32 → ∀ s, (system Nat c).Reachable s → Agrees s := by
  intro h
  obtain ⟨s, hs, hhead⟩ := System.reachable_of_replay (S := system Nat 1) rfl [.pushBack 5]
    (fun s => s.queue.head = 1 ∧ s.queue.capacity = 1 ∧ s.items = [5]) (by decide)
  have hlt := (h 1 (by decide) (by decide) s hs).head
  omega

end CircularQueue

end Salam.Base
