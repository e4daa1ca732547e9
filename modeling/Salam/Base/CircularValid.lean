import Salam.Base.CircularQueue

/-!
# The valid indices of a circular queue

An index is valid if its slot holds an element, and an iterator if the element was pushed in its round. Beside the queue
runs the list of the places of its elements, which are the slot and the round of the tail when each was pushed.

* `valid_idx`: an index in a round is judged rightly in the vector; an index alone is not if the queue has one element,
  as the case that head and tail are the same is missing.
-/

namespace Salam.Base

namespace CircularQueue

variable {T : Type}

def flush (q : CircularQueue T) : CircularQueue T := { q with head := 1, round := 0, tail := 0, isEmpty := true }

/-- `isValidIdx` of an index. -/
def isValidIdx (q : CircularQueue T) (idx : Nat) : Bool :=
  !(q.isEmpty ||
    q.head < q.tail && (q.head < idx && q.tail < idx || idx < q.head && idx < q.tail) ||
    q.tail < idx && idx < q.head)

/-- `isValidIdx` of an index in a round. -/
def isValidIn (q : CircularQueue T) (idx round : Nat) : Bool :=
  !q.isEmpty &&
    (round = q.round && idx ≤ q.tail && (q.head ≤ idx || q.tail < q.head) ||
      incRound round = q.round && q.tail < idx && q.head ≤ idx && q.tail < q.head)

/-- `getIterator`; nothing if the assertion fails. The index of an iterator has 32 bits. -/
def getIterator (q : CircularQueue T) (idx : Nat) : Option Iter :=
  if q.isValidIdx idx || moduloAdd q.tail 1 q.capacity = idx then
    if q.isEmpty then some q.endIt
    else
      let round :=
        if q.tail < idx then if q.head ≤ idx && q.tail < q.head then decRound q.round else q.round
        else if idx < q.head && q.tail + 1 = q.capacity then incRound q.round
        else q.round
      some { idx := idx % 2 ^ 32, round }
  else none

/-! ## The places of the elements -/

/-- A queue with the places of its elements. -/
structure Placed (T : Type) where
  state : State T
  places : List Iter

inductive Call (T : Type)
  | op (o : Op T)
  | flush

/-- The place that a queue pushes next. -/
def nextPlace (q : CircularQueue T) : Iter := { idx := q.advanceTail.tail, round := q.advanceTail.round }

namespace Placed

def advanceTail [Inhabited T] (p : Placed T) : Placed T where
  state := p.state.advanceTail
  places := pushed p.state.queue.capacity p.places p.state.queue.nextPlace

def advanceTailBy [Inhabited T] : Nat → Placed T → Placed T
  | 0, p => p
  | len + 1, p => advanceTailBy len p.advanceTail

/-- The places after a call. -/
def after [Inhabited T] (p : Placed T) : Op T → List Iter
  | .pushBack _ => pushed p.state.queue.capacity p.places p.state.queue.nextPlace
  | .popFront numElem => p.places.drop numElem
  | .popBack => p.places.dropLast
  | .advanceTail len => (p.advanceTailBy len).places

/-- One call; at capacity 0 it would divide by zero, or change nothing. -/
def step [Inhabited T] (p : Placed T) : Call T → Option (Placed T)
  | .op o =>
    if p.state.queue.capacity = 0 then none
    else (CircularQueue.step p.state o).map fun s => { state := s, places := p.after o }
  | .flush => some { state := { queue := p.state.queue.flush, items := [] }, places := [] }

/-- The slot holds an element. -/
def Live (p : Placed T) (idx : Nat) : Prop := ∃ it ∈ p.places, it.idx = idx

/-- The calls that the counters are wide enough for; an element is not popped from the back while the head is outside
the vector, where it is in a new queue of capacity one. -/
def Fits (p : Placed T) : Call T → Prop
  | .op .popBack => p.state.queue.head < p.state.queue.capacity
  | .op o => CircularQueue.Fits p.state o
  | .flush => True

end Placed

def placed (T : Type) [Inhabited T] (capacity : Nat) : System (Placed T) (Call T) where
  init p := p = { state := { queue := new capacity, items := [] }, places := [] }
  step := Placed.step

/-- The places from a position on. -/
def placesFrom (c H n : Nat) : List Iter := (List.range n).map fun i => pos c (H + i)

section Places

variable {c H n : Nat}

theorem placesFrom_append (c H n : Nat) : placesFrom c H n ++ [pos c (H + n)] = placesFrom c H (n + 1) := by
  simp [placesFrom, List.range_succ]

theorem placesFrom_drop (c H n k : Nat) : (placesFrom c H n).drop k = placesFrom c (H + k) (n - k) := by
  apply List.ext_getElem
  · simp [placesFrom]
  · intro i h₁ h₂
    simp [placesFrom, Nat.add_assoc]

theorem placesFrom_dropLast (c H n : Nat) : (placesFrom c H n).dropLast = placesFrom c H (n - 1) := by
  apply List.ext_getElem
  · simp [placesFrom]
  · intro i h₁ h₂
    simp [placesFrom]

theorem pushed_placesFrom (c H n : Nat) :
    pushed c (placesFrom c H n) (pos c (H + n)) = placesFrom c (H + (n + 1 - c)) (n + 1 - (n + 1 - c)) := by
  have hlen : (placesFrom c H n).length = n := by simp [placesFrom]
  rw [pushed, hlen, placesFrom_append, placesFrom_drop]

end Places

/-! ## The invariant -/

/-- A queue of capacity one that has not been popped since it was made, with its head outside the vector. -/
structure Outside (p : Placed T) : Prop where
  capacity : p.state.queue.capacity = 1
  head : p.state.queue.head = 1
  tail : p.state.queue.tail = 0
  store : p.state.queue.store.length = 1
  round : p.state.queue.round < 2 ^ 32
  empty : p.state.queue.isEmpty = true ↔ p.state.items.length = 0
  length : p.state.items.length ≤ 1
  slot : p.state.items ≠ [] → p.state.queue.store[0]? = p.state.items[0]?
  places : p.places = if p.state.items.length = 0 then [] else [⟨0, p.state.queue.round⟩]

/-- The elements lie in the slots from position `H` on, and have the places of these positions. -/
structure At (c : Nat) (p : Placed T) (H : Nat) : Prop where
  inv : Inv c p.state H
  places : p.places = placesFrom c H p.state.items.length

/-- A queue of capacity 0 is empty. -/
structure NoRoom (p : Placed T) : Prop where
  capacity : p.state.queue.capacity = 0
  store : p.state.queue.store.length = 0
  empty : p.state.queue.isEmpty = true
  items : p.state.items = []
  places : p.places = []

/-- What is true of every queue of a capacity. -/
def Sound (c : Nat) (p : Placed T) : Prop := (0 < c ∧ ∃ H, At c p H) ∨ (c = 1 ∧ Outside p) ∨ (c = 0 ∧ NoRoom p)

section Shape

variable {c : Nat} {p : Placed T}

theorem moduloAdd_one (a b : Nat) : moduloAdd a b 1 = 0 := Nat.mod_one _

/-- A new element takes the place of the one before. -/
theorem Outside.pushed (h : Outside p) {store : List T} {v : T} (hstore : store.length = 1) (hv : store[0]? = some v) :
    Outside ⟨⟨{ p.state.queue.advanceTail with store }, CircularQueue.pushed p.state.queue.capacity p.state.items v⟩,
      CircularQueue.pushed p.state.queue.capacity p.places p.state.queue.nextPlace⟩ := by
  have hitems : CircularQueue.pushed p.state.queue.capacity p.state.items v = [v] := by
    rw [CircularQueue.pushed, h.capacity, Nat.add_sub_cancel, List.drop_left']
    rfl
  have htail : p.state.queue.increase p.state.queue.tail = 0 := by rw [increase, h.capacity, moduloAdd_one]
  have hplaces : CircularQueue.pushed p.state.queue.capacity p.places p.state.queue.nextPlace =
      [⟨0, incRound p.state.queue.round⟩] := by
    rw [CircularQueue.pushed, h.capacity, Nat.add_sub_cancel, List.drop_left' rfl, CircularQueue.nextPlace]
    simp only [CircularQueue.advanceTail, htail, if_true]
  rw [hitems, hplaces]
  constructor
  · exact h.capacity
  · simp only [CircularQueue.advanceTail, htail, h.head]
    rfl
  · exact htail
  · exact hstore
  · simp only [CircularQueue.advanceTail, htail, if_true, incRound]
    exact Nat.mod_lt _ (by decide)
  · simp [CircularQueue.advanceTail]
  · exact Nat.le_refl 1
  · intro _
    exact hv
  · simp [CircularQueue.advanceTail, htail]

/-- The first pop brings the head into the vector. -/
theorem Outside.popFront (h : Outside p) (hne : p.state.items.length = 1) : ∃ q, p.state.queue.popFront 1 = some q ∧
    At 1 ⟨⟨q, p.state.items.drop 1⟩, p.places.drop 1⟩ (p.state.queue.round + 1) := by
  have hempty : ¬p.state.queue.isEmpty = true := by
    rw [h.empty, hne]
    decide
  have hround := h.round
  have hend : p.state.queue.advance p.state.queue.begin 1 = ⟨0, incRound p.state.queue.round⟩ := by
    have hlt : p.state.queue.tail < p.state.queue.head := by
      rw [h.tail, h.head]
      decide
    rw [begin, if_neg hempty, if_pos hlt]
    simp only [advance, h.capacity, h.head, moduloAdd_one, decRound, incRound, Iter.mk.injEq, true_and]
    omega
  have hend' : p.state.queue.endIt = ⟨0, incRound p.state.queue.round⟩ := by
    simp only [endIt, h.capacity, moduloAdd_one, if_true]
  have hnot : ¬(Iter.lt ⟨0, incRound p.state.queue.round⟩ ⟨0, incRound p.state.queue.round⟩) := by
    simp [Iter.lt]
  have hitems : p.state.items.drop 1 = [] := List.drop_eq_nil_of_le (Nat.le_of_eq hne)
  have hplaces : p.places.drop 1 = [] := by
    rw [h.places, hne]
    rfl
  simp only [CircularQueue.popFront, hend, hend', if_neg hnot, Nat.one_ne_zero, if_false, Option.some.injEq,
    exists_eq_left', hitems, hplaces]
  refine ⟨⟨h.capacity, h.store, ?_, Nat.zero_le _, ?_, ?_, ?_, ?_, ?_⟩, rfl⟩
  · exact Nat.succ_le_succ (Nat.zero_le _)
  · exact (Nat.mod_one _).symm
  · exact h.tail.trans (Nat.mod_one _).symm
  · simp only [List.length_nil, Nat.add_zero, Nat.add_sub_cancel, Nat.div_one]
    exact (Nat.mod_eq_of_lt hround).symm
  · simp
  · intro i hi
    cases hi

/-- A queue without elements, as it is made and flushed. -/
theorem sound_empty {q : CircularQueue T} (hcap : q.capacity = c) (hstore : q.store.length = c) :
    Sound c ⟨⟨q.flush, []⟩, []⟩ := by
  rcases Nat.lt_trichotomy c 1 with hc | hc | hc
  · obtain rfl : c = 0 := by omega
    exact .inr (.inr ⟨rfl, hcap, hstore, rfl, rfl, rfl⟩)
  · subst hc
    exact .inr (.inl ⟨rfl, hcap, rfl, rfl, hstore, Nat.two_pow_pos 32, by simp [flush], by simp, by simp, rfl⟩)
  · refine .inl ⟨by omega, 1, ⟨hcap, hstore, Nat.le_refl 1, Nat.zero_le c, ?_, ?_, ?_, by simp [flush], by simp⟩, rfl⟩
    · exact (Nat.mod_eq_of_lt hc).symm
    · simp [flush]
    · simp [flush]

theorem Sound.capacity (h : Sound c p) : p.state.queue.capacity = c ∧ p.state.queue.store.length = c := by
  rcases h with ⟨-, H, h⟩ | ⟨rfl, h⟩ | ⟨rfl, h⟩
  · exact ⟨h.inv.capacity, h.inv.store⟩
  · exact ⟨h.capacity, h.store⟩
  · exact ⟨h.capacity, h.store⟩

end Shape

section Steps

variable [Inhabited T] {c H : Nat} {p p' : Placed T} {s : State T}

section

variable (h : At c p H) (hc : 0 < c) (hc' : c < 2 ^ 32)
include h hc hc'

theorem At.nextPlace : p.state.queue.nextPlace = pos c (H + p.state.items.length) := by
  have hnext := (h.inv.pushBack hc hc' default).round
  have hlen : (pushed p.state.queue.capacity p.state.items default).length =
      p.state.items.length + 1 - (p.state.items.length + 1 - c) := by
    simp [pushed, h.inv.capacity]
  rw [CircularQueue.nextPlace, h.inv.advanceTail_tail hc hc']
  refine congrArg _ (hnext.trans ?_)
  simp only [hlen]
  congr 2
  omega

theorem At.pushed (hs : Inv c s (H + (p.state.items.length + 1 - c)))
    (hlen : s.items.length = p.state.items.length + 1 - (p.state.items.length + 1 - c)) :
    At c ⟨s, CircularQueue.pushed p.state.queue.capacity p.places p.state.queue.nextPlace⟩
      (H + (p.state.items.length + 1 - c)) where
  inv := hs
  places := by rw [h.nextPlace hc hc', h.inv.capacity, h.places, pushed_placesFrom, ← hlen]

theorem At.advanceTail : ∃ H', At c p.advanceTail H' := by
  refine ⟨_, h.pushed hc hc' (h.inv.advanceTail hc hc') ?_⟩
  simp [State.advanceTail, CircularQueue.pushed, h.inv.capacity]

end

theorem At.advanceTailBy (hc : 0 < c) (hc' : c < 2 ^ 32) : ∀ (len : Nat) {p : Placed T} {H : Nat}, At c p H →
    ∃ H', At c (p.advanceTailBy len) H'
  | 0, _, H, h => ⟨H, h⟩
  | len + 1, _, _, h =>
    have ⟨_, h'⟩ := h.advanceTail hc hc'
    advanceTailBy hc hc' len h'

theorem Placed.state_advanceTailBy : ∀ (len : Nat) (p : Placed T),
    (p.advanceTailBy len).state = p.state.advanceTailBy len
  | 0, _ => rfl
  | len + 1, p => state_advanceTailBy len p.advanceTail

theorem At.step (h : At c p H) (hc : 0 < c) (hc' : c < 2 ^ 32) {op : Op T} (hfit : p.Fits (.op op))
    (hstep : CircularQueue.step p.state op = some s) : ∃ H', At c ⟨s, p.after op⟩ H' := by
  cases op with
  | pushBack v =>
    cases hstep
    refine ⟨_, h.pushed hc hc' (h.inv.pushBack hc hc' v) ?_⟩
    simp [CircularQueue.pushed, h.inv.capacity]
  | popFront n =>
    simp only [CircularQueue.step, Option.ite_none_right_eq_some, Option.map_eq_some_iff] at hstep
    obtain ⟨hn, q, hq, rfl⟩ := hstep
    obtain ⟨q', hq', hinv⟩ := h.inv.popFront hc hc' hn hfit
    cases hq.symm.trans hq'
    refine ⟨_, hinv, ?_⟩
    rw [Placed.after, h.places, placesFrom_drop, List.length_drop]
  | popBack =>
    simp only [CircularQueue.step, Option.ite_none_right_eq_some, Option.map_eq_some_iff] at hstep
    obtain ⟨hne, q, hq, rfl⟩ := hstep
    obtain ⟨q', hq', hinv⟩ := h.inv.popBack hc hne
    cases hq.symm.trans hq'
    refine ⟨_, hinv, ?_⟩
    rw [Placed.after, h.places, placesFrom_dropLast, List.length_dropLast]
  | advanceTail len =>
    cases hstep
    obtain ⟨H', h'⟩ := At.advanceTailBy hc hc' len h
    exact ⟨H', Placed.state_advanceTailBy len p ▸ h'.inv, Placed.state_advanceTailBy len p ▸ h'.places⟩

theorem Outside.advanceTail (h : Outside p) : Outside p.advanceTail := by
  have htail : p.state.queue.advanceTail.tail = 0 := by
    simp only [CircularQueue.advanceTail, increase, h.capacity, moduloAdd_one]
  refine h.pushed h.store ?_
  have hlt : 0 < p.state.queue.store.length := by
    rw [h.store]
    decide
  rw [htail, List.getD_eq_getElem?_getD, List.getElem?_eq_getElem hlt]
  rfl

theorem Outside.advanceTailBy : ∀ (len : Nat) {p : Placed T}, Outside p → Outside (p.advanceTailBy len)
  | 0, _, h => h
  | len + 1, _, h => advanceTailBy len h.advanceTail

theorem Outside.step (h : Outside p) {op : Op T} (hfit : p.Fits (.op op))
    (hstep : CircularQueue.step p.state op = some s) :
    Sound 1 ⟨s, p.after op⟩ := by
  cases op with
  | pushBack v =>
    cases hstep
    have htail : p.state.queue.advanceTail.tail = 0 := by
      simp only [CircularQueue.advanceTail, increase, h.capacity, moduloAdd_one]
    refine .inr (.inl ⟨rfl, h.pushed ?_ ?_⟩)
    · rw [List.length_set, h.store]
    · rw [htail, List.getElem?_set_self (by rw [h.store]; decide)]
  | popFront n =>
    simp only [CircularQueue.step, Option.ite_none_right_eq_some, Option.map_eq_some_iff] at hstep
    obtain ⟨hn, q, hq, rfl⟩ := hstep
    have hle := h.length
    rcases Nat.eq_zero_or_pos n with rfl | hpos
    · cases hq
      exact .inr (.inl ⟨rfl, h⟩)
    · obtain rfl : n = 1 := by omega
      obtain ⟨q', hq', hat⟩ := h.popFront (by omega)
      cases hq.symm.trans hq'
      exact .inl ⟨Nat.one_pos, _, hat⟩
  | popBack =>
    have hlt : p.state.queue.head < p.state.queue.capacity := hfit
    rw [h.head, h.capacity] at hlt
    exact absurd hlt (Nat.lt_irrefl 1)
  | advanceTail len =>
    cases hstep
    refine .inr (.inl ⟨rfl, ?_⟩)
    rw [← Placed.state_advanceTailBy]
    exact Outside.advanceTailBy len h

theorem Sound.step (hc' : c < 2 ^ 32) (h : Sound c p) {call : Call T} (hfit : p.Fits call)
    (hstep : p.step call = some p') : Sound c p' := by
  obtain ⟨hcap, hstore⟩ := h.capacity
  cases call with
  | flush =>
    cases hstep
    exact sound_empty hcap hstore
  | op o =>
    simp only [Placed.step, Option.ite_none_left_eq_some, Option.map_eq_some_iff] at hstep
    obtain ⟨hne, s, hs, rfl⟩ := hstep
    rcases h with ⟨hc, H, h⟩ | ⟨rfl, h⟩ | ⟨rfl, h⟩
    · exact .inl ⟨hc, h.step hc hc' hfit hs⟩
    · exact h.step hfit hs
    · exact absurd h.capacity hne

theorem sound_of_reachable (hc' : c < 2 ^ 32) (h : (placed T c).ReachableWhen Placed.Fits p) : Sound c p := by
  refine System.invariantWhen (I := Sound c) ?_ ?_ h
  · rintro p rfl
    exact sound_empty (q := new c) rfl List.length_replicate
  · intro p call p' _ hp hfit hstep
    exact hp.step hc' hfit hstep

end Steps

/-! ## The indices -/

section Indices

variable {c : Nat} {p : Placed T}

/-- An index between head and tail, in their round, or in the round before if the head is behind the tail. -/
def Between (q : CircularQueue T) (idx round : Nat) : Prop :=
  q.isEmpty = false ∧
    (q.head ≤ q.tail ∧ q.head ≤ idx ∧ idx ≤ q.tail ∧ round = q.round ∨
      q.tail < q.head ∧ idx ≤ q.tail ∧ round = q.round ∨
      q.tail < q.head ∧ q.head ≤ idx ∧ idx < q.capacity ∧ round = decRound q.round)

theorem At.mem_places {H : Nat} (h : At c p H) (hc : 0 < c) (idx round : Nat) :
    (⟨idx, round⟩ : Iter) ∈ p.places ↔ p.state.queue.Between idx round := by
  have hlen := h.inv.length
  have hmod := Nat.mod_lt H hc
  rw [h.places, placesFrom, List.mem_map]
  simp only [List.mem_range, pos, Iter.mk.injEq]
  cases hempty : p.state.queue.isEmpty with
  | true =>
    have hzero := h.inv.empty.mp hempty
    constructor
    · rintro ⟨i, hi, -⟩
      omega
    · rintro ⟨hfalse, -⟩
      exact absurd (hempty.symm.trans hfalse) (by decide)
  | false =>
    have hne : p.state.items.length ≠ 0 := fun h0 => by simp [h.inv.empty.mpr h0] at hempty
    have htail : H + p.state.items.length - 1 = H + (p.state.items.length - 1) := by omega
    have hw := wrap hc H (show p.state.items.length - 1 ≤ c by omega)
    unfold Between decRound
    rw [h.inv.head, h.inv.tail, h.inv.round, h.inv.capacity, htail]
    simp only [hempty, true_and]
    constructor
    · rintro ⟨i, hi, rfl, rfl⟩
      rcases wrap hc H (show i ≤ c by omega) with ⟨h₁, hdiv, hidx⟩ | ⟨h₁, hdiv, hidx⟩ <;>
        rcases hw with ⟨h₂, hdiv', htl⟩ | ⟨h₂, hdiv', htl⟩
      · exact .inl ⟨by omega, by omega, by omega, congrArg (· % 2 ^ 32) (hdiv.trans hdiv'.symm)⟩
      · exact .inr (.inr ⟨by omega, by omega, by omega, by rw [hdiv, hdiv']; omega⟩)
      · omega
      · exact .inr (.inl ⟨by omega, by omega, congrArg (· % 2 ^ 32) (hdiv.trans hdiv'.symm)⟩)
    · rintro (⟨hle, h₁, h₂, hround⟩ | ⟨hlt, h₁, hround⟩ | ⟨hlt, h₁, h₂, hround⟩)
      · rcases hw with ⟨hlast, hdiv, htl⟩ | ⟨hlast, hdiv, htl⟩
        · rcases wrap hc H (show idx - H % c ≤ c by omega) with ⟨h₃, hdiv', hidx⟩ | ⟨h₃, hdiv', hidx⟩
          · exact ⟨idx - H % c, by omega, by omega, by rw [hround, hdiv', hdiv]⟩
          · omega
        · omega
      · rcases hw with ⟨hlast, hdiv, htl⟩ | ⟨hlast, hdiv, htl⟩
        · omega
        · rcases wrap hc H (show c - H % c + idx ≤ c by omega) with ⟨h₃, hdiv', hidx⟩ | ⟨h₃, hdiv', hidx⟩
          · omega
          · exact ⟨c - H % c + idx, by omega, by omega, by rw [hround, hdiv', hdiv]⟩
      · rcases hw with ⟨hlast, hdiv, htl⟩ | ⟨hlast, hdiv, htl⟩
        · omega
        · rcases wrap hc H (show idx - H % c ≤ c by omega) with ⟨h₃, hdiv', hidx⟩ | ⟨h₃, hdiv', hidx⟩
          · exact ⟨idx - H % c, by omega, by omega, by rw [hround, hdiv', hdiv]; omega⟩
          · omega

theorem Sound.mem_places (h : Sound c p) (idx round : Nat) :
    (⟨idx, round⟩ : Iter) ∈ p.places ↔ p.state.queue.Between idx round := by
  rcases h with ⟨hc, H, h⟩ | ⟨-, h⟩ | ⟨-, h⟩
  · exact h.mem_places hc idx round
  · rw [h.places, Between, h.head, h.tail, h.capacity]
    cases hempty : p.state.queue.isEmpty with
    | true =>
      rw [if_pos (h.empty.mp hempty)]
      simp
    | false =>
      have hne : p.state.items.length ≠ 0 := fun h0 => by simp [h.empty.mpr h0] at hempty
      rw [if_neg hne, List.mem_singleton, Iter.mk.injEq]
      constructor
      · rintro ⟨rfl, rfl⟩
        exact ⟨rfl, .inr (.inl ⟨Nat.one_pos, Nat.le_refl 0, rfl⟩)⟩
      · rintro ⟨-, hb⟩
        omega
  · rw [h.places, Between, h.empty]
    simp

theorem Sound.bounds (hc' : c < 2 ^ 32) (h : Sound c p) (hne : p.state.queue.isEmpty = false) :
    p.state.queue.tail < p.state.queue.capacity ∧ p.state.queue.head ≤ p.state.queue.capacity ∧
      p.state.queue.capacity < 2 ^ 32 ∧ p.state.queue.round < 2 ^ 32 := by
  rcases h with ⟨hc, H, h⟩ | ⟨-, h⟩ | ⟨-, h⟩
  · rw [h.inv.capacity, h.inv.head, h.inv.tail, h.inv.round]
    exact ⟨Nat.mod_lt _ hc, Nat.le_of_lt (Nat.mod_lt _ hc), hc', Nat.mod_lt _ (Nat.two_pow_pos 32)⟩
  · rw [h.capacity, h.head, h.tail]
    exact ⟨Nat.one_pos, Nat.le_refl 1, by omega, h.round⟩
  · exact absurd (h.empty.symm.trans hne) (by decide)

theorem Sound.live_iff (h : Sound c p) (idx : Nat) : p.Live idx ↔ ∃ round, p.state.queue.Between idx round := by
  constructor
  · rintro ⟨it, hit, rfl⟩
    exact ⟨it.round, (h.mem_places it.idx it.round).mp hit⟩
  · rintro ⟨round, hb⟩
    exact ⟨⟨idx, round⟩, (h.mem_places idx round).mpr hb, rfl⟩

end Indices

/-- A single element is asked for by its own index, and no slot behind the vector while the elements wrap around. -/
def Asked (q : CircularQueue T) (idx : Nat) : Prop :=
  q.isEmpty = false → (q.head = q.tail → idx = q.head) ∧ (q.tail < q.head → idx < q.capacity)

/-- No slot behind the vector is asked for in the round before, while the elements wrap around. -/
def AskedIn (q : CircularQueue T) (idx round : Nat) : Prop :=
  q.isEmpty = false → q.tail < q.head → incRound round = q.round → idx < q.capacity

/-- **Valid indices.** An index is judged rightly exactly if it is not another one than that of a single element, nor
one behind the vector of a queue that wraps around, and then an iterator to a valid index is one to an element. In a
round, every index in the vector is judged rightly. -/
theorem valid_idx [Inhabited T] {c : Nat} (hc' : c < 2 ^ 32) {p : Placed T}
    (h : (placed T c).ReachableWhen Placed.Fits p) (idx : Nat) {round : Nat} (hround : round < 2 ^ 32) :
    (((p.state.queue.isValidIdx idx = true ↔ p.Live idx) ∧
        ∀ it, p.state.queue.isValidIdx idx = true → p.state.queue.getIterator idx = some it → p.Live it.idx) ↔
      p.state.queue.Asked idx) ∧
    ((p.state.queue.isValidIn idx round = true ↔ ⟨idx, round⟩ ∈ p.places) ↔ p.state.queue.AskedIn idx round) := by
  have hS := sound_of_reachable hc' h
  constructor
  · have hiff : (p.state.queue.isValidIdx idx = true ↔ p.Live idx) ↔ p.state.queue.Asked idx := by
      rw [hS.live_iff]
      unfold isValidIdx Between Asked
      cases hempty : p.state.queue.isEmpty with
      | true => simp
      | false =>
        obtain ⟨h₁, h₂, h₃, h₄⟩ := hS.bounds hc' hempty
        simp only [exists_or, exists_and_left, exists_eq, and_true, Bool.false_or, Bool.not_eq_true',
          Bool.or_eq_false_iff, Bool.and_eq_false_iff, decide_eq_false_iff_not, true_and, forall_const]
        omega
    refine ⟨fun hall => hiff.mp hall.1, fun hasked => ⟨hiff.mpr hasked, fun it hvalid hit => ?_⟩⟩
    have hlive := (hiff.mpr hasked).mp hvalid
    obtain ⟨r, hempty, hb⟩ := (hS.live_iff idx).mp hlive
    have hlt : idx < 2 ^ 32 := by
      obtain ⟨h₁, h₂, h₃, h₄⟩ := hS.bounds hc' hempty
      omega
    have hidx : it.idx = idx := by
      rw [getIterator, hvalid, Bool.true_or, if_pos rfl, if_neg (by simp [hempty])] at hit
      cases hit
      exact Nat.mod_eq_of_lt hlt
    rwa [hidx]
  · rw [hS.mem_places]
    unfold isValidIn Between AskedIn incRound decRound
    cases hempty : p.state.queue.isEmpty with
    | true => simp
    | false =>
      obtain ⟨h₁, h₂, h₃, h₄⟩ := hS.bounds hc' hempty
      simp only [Bool.not_false, Bool.true_and, Bool.or_eq_true, Bool.and_eq_true, decide_eq_true_eq,
        true_and, forall_const]
      omega

instance [Inhabited T] (p : Placed T) (call : Call T) : Decidable (p.Fits call) := by
  match call with
  | .flush => exact .isTrue trivial
  | .op .popBack => exact inferInstanceAs (Decidable (_ < _))
  | .op (.popFront n) => exact inferInstanceAs (Decidable (PopFits _ n))
  | .op (.pushBack _) | .op (.advanceTail _) => exact .isTrue trivial

/-- Four elements at capacity four: the last one has wrapped around. -/
theorem valid_idx_four : ∃ p : Placed Nat, p.places = [⟨1, 0⟩, ⟨2, 0⟩, ⟨3, 0⟩, ⟨0, 1⟩] ∧
    (p.state.queue.isValidIdx 0 = true ↔ p.Live 0) ∧ (p.state.queue.isValidIn 0 1 = true ↔ ⟨0, 1⟩ ∈ p.places) := by
  obtain ⟨p, hp, hplaces, hend⟩ := System.reachableWhen_of_replay (S := placed Nat 4)
    (C := fun p call => decide (p.Fits call)) rfl
      [.op (.pushBack 5), .op (.pushBack 6), .op (.pushBack 7), .op (.pushBack 8)]
    (fun p => p.places = [⟨1, 0⟩, ⟨2, 0⟩, ⟨3, 0⟩, ⟨0, 1⟩] ∧ p.state.queue.head ≠ p.state.queue.tail ∧
      0 < p.state.queue.capacity) (by decide)
  obtain ⟨hidx, hin⟩ := valid_idx (by decide) (hp.mono fun _ _ => of_decide_eq_true) 0 (show 1 < 2 ^ 32 by decide)
  exact ⟨p, hplaces, (hidx.mpr fun _ => ⟨fun heq => absurd heq hend.1, fun _ => hend.2⟩).1, hin.mpr fun _ _ _ => hend.2⟩

/-- One element is in slot 1, and slot 3 is valid. -/
theorem single_element_valid : ¬∀ c < 2 ^ 32, ∀ p : Placed Nat, (placed Nat c).Reachable p → ∀ idx < c,
    (p.state.queue.isValidIdx idx = true ↔ p.Live idx) := by
  intro hall
  obtain ⟨p, hp, hvalid, hplaces⟩ := System.reachable_of_replay (S := placed Nat 4) rfl [.op (.pushBack 5)]
    (fun p => p.state.queue.isValidIdx 3 = true ∧ p.places = [⟨1, 0⟩]) (by decide)
  obtain ⟨it, hit, hidx⟩ := (hall 4 (by decide) p hp 3 (by decide)).mp hvalid
  rw [hplaces, List.mem_singleton] at hit
  subst hit
  exact absurd hidx (by decide)

end CircularQueue

end Salam.Base
