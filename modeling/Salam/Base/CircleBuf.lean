import Salam.Base.CircularIters

/-!
# `CircleBuf` and `Fifo`

The circular buffer of `base/circlebuf.hh` over a circular queue: a block is copied to the slots from the end on, and
then the tail is advanced over it; what is read is copied from `begin() + offset` on. A `Fifo` refuses a block that does
not fit, and a `StreamBuffer` is one with a test before each call.

* `circleBuf_refines`: the buffer holds the last elements written, and gives them out in their order, as long as the
  counters of the queue are wide enough.
* `rounds_run_out`: the assertion of `pop_front` fails when the counter of rounds has wrapped around.
-/

namespace Salam.Base

namespace CircularQueue

variable {T : Type}

inductive CircleErr
  /-- `Trying to read past end of circular buffer.` -/
  | pastEnd
  /-- `Trying to overfill FIFO buffer.` -/
  | overfill
  /-- A slot outside the vector. -/
  | outside
  /-- The assertion of `pop_front`. -/
  | assertion
  /-- An index is divided by the capacity. -/
  | noCapacity
  deriving DecidableEq

/-- `std::copy` from a block to the slots from an iterator on. -/
def copyIn (q : CircularQueue T) : List T → Iter → List T → Except CircleErr (List T)
  | [], _, store => .ok store
  | v :: vs, it, store => if it.idx < store.length then q.copyIn vs (q.next it) (store.set it.idx v)
      else .error .outside

/-- `std::copy` of a number of elements from an iterator on. -/
def copyOut (q : CircularQueue T) : Nat → Iter → Except CircleErr (List T)
  | 0, _ => .ok []
  | n + 1, it =>
    match q.store[it.idx]? with
    | none => .error .outside
    | some v => (q.copyOut n (q.next it)).map (v :: ·)

/-- `advance_tail(len)` -/
def advanceBy : Nat → CircularQueue T → CircularQueue T
  | 0, q => q
  | len + 1, q => advanceBy len q.advanceTail

/-- `CircleBuf::peek` -/
def peek (q : CircularQueue T) (offset len : Nat) : Except CircleErr (List T) :=
  if q.size < (offset + len) % 2 ^ 64 then .error .pastEnd
  else if q.capacity = 0 then .error .noCapacity
  else
    let first := q.plus q.begin offset
    let last := q.plus (q.plus q.begin offset) len
    q.copyOut (q.diff last first).toNat first

/-- `CircleBuf::read` -/
def read (q : CircularQueue T) (len : Nat) : Except CircleErr (List T × CircularQueue T) :=
  match q.peek 0 len with
  | .error e => .error e
  | .ok out =>
    match q.popFront len with
    | none => .error .assertion
    | some q => .ok (out, q)

/-- `CircleBuf::write` -/
def write (q : CircularQueue T) (block : List T) : Except CircleErr (CircularQueue T) :=
  let block := if q.capacity < block.length then block.drop (block.length - q.capacity) else block
  if q.capacity = 0 then .error .noCapacity
  else (q.copyIn block q.endIt q.store).map fun store => { q with store }.advanceBy block.length

/-- `Fifo::write` -/
def fifoWrite (q : CircularQueue T) (block : List T) : Except CircleErr (CircularQueue T) :=
  if q.capacity < (q.size + block.length) % 2 ^ 64 then .error .overfill else q.write block

/-- `StreamBuffer::tryReadStream`; `none` if it returns `false`. -/
def tryReadStream (q : CircularQueue T) (len : Nat) : Except CircleErr (Option (List T × CircularQueue T)) :=
  if len ≤ q.size then (q.read len).map some else .ok none

/-- `StreamBuffer::tryWriteStream`; `fifoSize` is the capacity. -/
def tryWriteStream (q : CircularQueue T) (block : List T) : Except CircleErr (Option (CircularQueue T)) :=
  if (q.size + block.length) % 2 ^ 64 ≤ q.capacity then (q.fifoWrite block).map some else .ok none

inductive CircleOp (T : Type)
  | write (block : List T)
  | peek (offset len : Nat)
  | read (len : Nat)

def exec (q : CircularQueue T) : CircleOp T → Except CircleErr (List T × CircularQueue T)
  | .write block => (q.write block).map fun q => ([], q)
  | .peek offset len => (q.peek offset len).map fun out => (out, q)
  | .read len => q.read len

/-! ## The contents -/

/-- The last `c` elements. -/
def keep (c : Nat) (items : List T) : List T := items.drop (items.length - c)

namespace CircleOp

/-- A call within the contents. -/
def Within (items : List T) : CircleOp T → Prop
  | write _ => True
  | peek offset len => offset + len ≤ items.length
  | read len => len ≤ items.length

def output (items : List T) : CircleOp T → List T
  | write _ => []
  | peek offset len => (items.drop offset).take len
  | read len => items.take len

/-- The contents after a call. -/
def after (c : Nat) (items : List T) : CircleOp T → List T
  | write block => keep c (items ++ block)
  | peek _ _ => items
  | read len => items.drop len

end CircleOp

section Keep

variable {c : Nat} {items block : List T}

theorem keep_of_le (h : items.length ≤ c) : keep c items = items := by
  rw [keep, Nat.sub_eq_zero_of_le h, List.drop_zero]

theorem pushed_eq_keep (v : T) : pushed c items v = keep c (items ++ [v]) := by
  rw [pushed, keep, List.length_append]
  rfl

theorem length_keep : (keep c items).length = min items.length c := by
  rw [keep, List.length_drop]
  omega

theorem keep_keep_append (items block : List T) : keep c (keep c items ++ block) = keep c (items ++ block) := by
  simp only [keep, List.length_append, List.length_drop]
  rw [List.drop_append, List.drop_append, List.drop_drop, List.length_drop]
  congr 2
  · omega
  · omega

theorem keep_append_keep (items block : List T) : keep c (items ++ keep c block) = keep c (items ++ block) := by
  simp only [keep, List.length_append, List.length_drop]
  rw [List.drop_append, List.drop_append, List.drop_drop]
  by_cases hle : block.length ≤ c
  · rw [Nat.sub_eq_zero_of_le hle]
    simp
  · have hall : items.length ≤ items.length + block.length - c := by omega
    have hnone : items.length ≤ items.length + (block.length - (block.length - c)) - c := by omega
    rw [List.drop_eq_nil_of_le hall, List.drop_eq_nil_of_le hnone]
    congr 2
    omega

theorem foldl_pushed (h : items.length ≤ c) : block.foldl (pushed c) items = keep c (items ++ block) := by
  induction block generalizing items with
  | nil => rw [List.foldl_nil, List.append_nil, keep_of_le h]
  | cons v block ih =>
    have hle : (pushed c items v).length ≤ c := by
      rw [pushed_eq_keep, length_keep]
      omega
    rw [List.foldl_cons, ih hle, pushed_eq_keep, keep_keep_append, List.append_assoc]
    rfl

end Keep

/-! ## Writing -/

section Writing

variable {c : Nat} {q : CircularQueue T}

theorem copyIn_advanceTail : ∀ (block : List T) (it : Iter) (store : List T),
    q.advanceTail.copyIn block it store = q.copyIn block it store
  | [], _, _ => rfl
  | v :: block, it, store => by
    rw [copyIn, copyIn]
    split
    · exact copyIn_advanceTail block (q.next it) (store.set it.idx v)
    · rfl

/-- The slots are written one after the other, as if the elements were pushed. -/
theorem copyIn_eq (hc : 0 < c) (hcap : q.capacity = c) {block store : List T} (hstore : store.length = c) :
    ∃ store', q.copyIn block q.endIt store = .ok store' ∧
      { q with store := store' }.advanceBy block.length = block.foldl pushBack { q with store } := by
  induction block generalizing q store with
  | nil => exact ⟨store, rfl, rfl⟩
  | cons v block ih =>
    have hlt : q.endIt.idx < store.length := by
      rw [hstore, endIt, hcap]
      exact Nat.mod_lt _ hc
    have hcap' : q.advanceTail.capacity = c := hcap
    obtain ⟨store', hcopy, hadv⟩ := ih hcap'
      (show (store.set q.endIt.idx v).length = c by rw [List.length_set, hstore])
    refine ⟨store', ?_, hadv⟩
    rw [copyIn, if_pos hlt, ← hcopy, copyIn_advanceTail]
    rfl

theorem write_eq (hc : 0 < c) (hcap : q.capacity = c) (hstore : q.store.length = c) (block : List T) :
    q.write block = .ok ((keep c block).foldl pushBack q) := by
  have hblock : (if q.capacity < block.length then block.drop (block.length - q.capacity) else block) =
    keep c block := by
    rw [hcap]
    split
    · rfl
    · exact (keep_of_le (by omega)).symm
  obtain ⟨store', hcopy, hadv⟩ := @copyIn_eq T c q hc hcap (keep c block) q.store hstore
  have hne : q.capacity ≠ 0 := by omega
  rw [write, hblock, if_neg hne, hcopy]
  exact congrArg Except.ok hadv

variable {s : State T} {places : List Iter}

theorem Sound.length (h : Sound c ⟨s, places⟩) : s.items.length ≤ c := by
  rcases h with ⟨-, H, h⟩ | ⟨rfl, h⟩ | ⟨-, h⟩
  · exact h.inv.length
  · exact h.length
  · rw [h.items]
    exact Nat.zero_le c

variable [Inhabited T]

theorem Sound.foldl (hc : 0 < c) (hc' : c < 2 ^ 32) (block : List T) (h : Sound c ⟨s, places⟩) :
    ∃ places', Sound c ⟨⟨block.foldl pushBack s.queue, block.foldl (pushed c) s.items⟩, places'⟩ := by
  induction block generalizing s places with
  | nil => exact ⟨places, h⟩
  | cons v block ih =>
    have hcap := h.capacity.1
    have hstep : (⟨s, places⟩ : Placed T).step (.op (.pushBack v)) =
        some ⟨⟨s.queue.pushBack v, pushed c s.items v⟩, pushed c places s.queue.nextPlace⟩ := by
      rw [Placed.step, if_neg (by omega), ← hcap]
      rfl
    have hfit : (⟨s, places⟩ : Placed T).Fits (.op (.pushBack v)) := trivial
    exact ih (h.step hc' hfit hstep)

/-- A block is written in full, and the last elements stay. -/
theorem Sound.write (hc : 0 < c) (hc' : c < 2 ^ 32) (h : Sound c ⟨s, places⟩) (block : List T) :
    ∃ q, s.queue.write block = .ok q ∧ ∃ places', Sound c ⟨⟨q, keep c (s.items ++ block)⟩, places'⟩ := by
  obtain ⟨hcap, hstore⟩ := h.capacity
  obtain ⟨places', h'⟩ := h.foldl hc hc' (keep c block)
  rw [foldl_pushed h.length, keep_append_keep] at h'
  exact ⟨_, write_eq hc hcap hstore block, places', h'⟩

end Writing

/-! ## Reading -/

/-- The numbers that `peek` adds to an iterator fit: the sum of offset and length has 64 bits, the indices have 32 bits,
and the length has 32 bits with a sign. -/
def CopyFits (q : CircularQueue T) (offset len : Nat) : Prop :=
  offset + len < 2 ^ 64 ∧
    (offset + len ≤ q.size → q.head + offset < 2 ^ 32 ∧ (q.head + offset) % q.capacity + len < 2 ^ 32 ∧ len < 2 ^ 31)

section Reading

variable {c : Nat} {q : CircularQueue T} {s : State T} {places : List Iter}

theorem copyOut_pos (hc : 0 < c) (hc' : c < 2 ^ 32) (hcap : q.capacity = c) : ∀ (vs : List T) (P : Nat),
    (∀ i (hi : i < vs.length), q.store[(P + i) % c]? = some vs[i]) → q.copyOut vs.length (pos c P) = .ok vs
  | [], _, _ => rfl
  | v :: vs, P, hslots => by
    have hfirst : q.store[(pos c P).idx]? = some v := hslots 0 (Nat.succ_pos _)
    have hrest := copyOut_pos hc hc' hcap vs (P + 1) fun i hi => by
      rw [Nat.add_assoc, Nat.add_comm 1 i]
      exact hslots (i + 1) (Nat.succ_lt_succ hi)
    rw [List.length_cons, copyOut, hfirst, next_pos hc hc' hcap, hrest]
    rfl

theorem Sound.size (hc : 0 < c) (hc' : c < 2 ^ 32) (h : Sound c ⟨s, places⟩) : s.queue.size = s.items.length := by
  rcases h with ⟨-, H, h⟩ | ⟨-, h⟩ | ⟨hzero, -⟩
  · exact (h.inv.agrees hc hc').size
  · have hle : s.items.length ≤ 1 := h.length
    have hempty : s.queue.isEmpty = true ↔ s.items.length = 0 := h.empty
    rw [CircularQueue.size, h.head, h.tail, h.capacity]
    split
    · rename_i he
      exact (hempty.mp he).symm
    · rename_i he
      rw [hempty] at he
      have hone : s.items.length = 1 := by omega
      exact hone.symm
  · omega

theorem plus_pos {q : CircularQueue T} (hc : 0 < c) (hc' : c < 2 ^ 32) (hcap : q.capacity = c) (P : Nat) {n : Nat}
    (hn : n ≤ c) (hfit : P % c + n < 2 ^ 32) : q.plus (pos c P) n = pos c (P + n) := by
  have hidx : (pos c P).idx < 2 ^ 32 := Nat.lt_trans (Nat.mod_lt P hc) hc'
  rw [plus_natCast _ (by omega) hidx, advance_pos hc hcap P hn hfit]

section

variable (hc : 0 < c) (hc' : c < 2 ^ 32) (h : Sound c ⟨s, places⟩)
include hc hc' h

/-- `begin() + offset` is at a position, also while the head is outside the vector. -/
theorem Sound.first {offset : Nat} (hle : offset ≤ s.items.length) (hfit : s.queue.head + offset < 2 ^ 32) :
    ∃ P, s.queue.plus s.queue.begin offset = pos c P ∧ P % c = (s.queue.head + offset) % c ∧
      ∀ i, offset + i < s.items.length → s.queue.store[(P + i) % c]? = s.items[offset + i]? := by
  have hlen := h.length
  rcases h with ⟨-, H, h⟩ | ⟨rfl, h⟩ | ⟨hzero, -⟩
  · rw [h.inv.begin hc hc', h.inv.head]
    rw [h.inv.head] at hfit
    refine ⟨H + offset, plus_pos hc hc' h.inv.capacity H (by omega) hfit, (Nat.mod_add_mod H c offset).symm,
      fun i hi => ?_⟩
    rw [Nat.add_assoc]
    exact h.inv.slots (offset + i) hi
  · refine ⟨(s.queue.plus s.queue.begin offset).round, ?_, ?_, fun i hi => ?_⟩
    · rw [pos, plus, h.capacity]
      simp only [moduloAdd_one, Nat.div_one, Nat.mod_one, Nat.mod_mod]
    · rw [Nat.mod_one, Nat.mod_one]
    · have hzero : offset + i = 0 := by omega
      have hpos : 0 < s.items.length := by omega
      rw [Nat.mod_one, hzero]
      exact h.slot (List.length_pos_iff.mp hpos)
  · omega

theorem Sound.peek {offset len : Nat} (hle : offset + len ≤ s.items.length) (hfit : s.queue.CopyFits offset len) :
    s.queue.peek offset len = .ok ((s.items.drop offset).take len) := by
  obtain ⟨hcap, -⟩ := h.capacity
  have hlen := h.length
  have hsize := h.size hc hc'
  obtain ⟨hfits, hfit⟩ := hfit
  obtain ⟨h₁, h₂, h₃⟩ := hfit (by omega)
  obtain ⟨P, hfirst, hmod, hslots⟩ := h.first hc hc' (show offset ≤ s.items.length by omega) h₁
  have hcap' : s.queue.capacity = c := hcap
  rw [hcap', ← hmod] at h₂
  have hlast := plus_pos hc hc' hcap' P (n := len) (by omega) h₂
  have hdiff : s.queue.diff (pos c (P + len)) (pos c P) = len := by
    rw [diff_pos hc hcap', Int.bmod_eq_of_le (by omega) (by omega)]
    omega
  have hout : ((s.items.drop offset).take len).length = len := by
    rw [List.length_take, List.length_drop]
    omega
  rw [CircularQueue.peek, if_neg (by omega), if_neg (by omega)]
  simp only [hfirst, hlast, hdiff, Int.toNat_natCast]
  have hcopy := copyOut_pos hc hc' hcap' ((s.items.drop offset).take len) P fun i hi => by
    rw [hslots i (by omega), List.getElem_take, List.getElem_drop, List.getElem?_eq_getElem]
  rwa [hout] at hcopy

theorem Sound.peek_pastEnd {offset len : Nat} (hle : ¬offset + len ≤ s.items.length)
    (hfit : s.queue.CopyFits offset len) :
    s.queue.peek offset len = .error .pastEnd := by
  have hsize := h.size hc hc'
  have hfits := hfit.1
  rw [CircularQueue.peek, if_pos (by omega)]

theorem Sound.popFront {n : Nat} (hn : n ≤ s.items.length) (hfit : PopFits s.queue n) :
    ∃ q, s.queue.popFront n = some q ∧
      ∃ places', Sound c ⟨⟨q, s.items.drop n⟩, places'⟩ := by
  rcases h with ⟨-, H, h⟩ | ⟨rfl, h⟩ | ⟨hzero, -⟩
  · obtain ⟨q, hq, hinv⟩ := h.inv.popFront hc hc' hn hfit
    refine ⟨q, hq, placesFrom c (H + n) (s.items.drop n).length, .inl ⟨hc, H + n, hinv, rfl⟩⟩
  · have hle : s.items.length ≤ 1 := h.length
    rcases Nat.eq_zero_or_pos n with rfl | hpos
    · exact ⟨s.queue, rfl, places, .inr (.inl ⟨rfl, h⟩)⟩
    · obtain rfl : n = 1 := by omega
      have hone : s.items.length = 1 := by omega
      obtain ⟨q, hq, hat⟩ := h.popFront hone
      exact ⟨q, hq, _, .inl ⟨hc, _, hat⟩⟩
  · omega

end

end Reading

/-! ## Runs -/

/-- The calls that the counters are wide enough for. The index of the loop of `advance_tail` is an `int`. -/
def CircleOp.Fits (q : CircularQueue T) : CircleOp T → Prop
  | .write block => 0 < q.capacity ∧ min block.length q.capacity < 2 ^ 31
  | .peek offset len => 0 < q.capacity ∧ q.CopyFits offset len
  | .read len => 0 < q.capacity ∧ q.CopyFits 0 len ∧ (len ≤ q.size → PopFits q len)

/-- One call on a buffer, with the contents that it should have; a panic ends the run. -/
def circleStep (s : State T) (op : CircleOp T) : Option (State T) :=
  match s.queue.exec op with
  | .error _ => none
  | .ok (_, queue) => some { queue, items := op.after s.queue.capacity s.items }

def circleBuf (T : Type) [Inhabited T] (capacity : Nat) : System (State T) (CircleOp T) where
  init s := s = { queue := new capacity, items := [] }
  step := circleStep

inductive FifoOp (T : Type)
  | write (block : List T)
  | peek (len : Nat)
  | read (len : Nat)

/-- The call of the buffer that a call of the FIFO makes. -/
def FifoOp.call : FifoOp T → CircleOp T
  | .write block => .write block
  | .peek len => .peek 0 len
  | .read len => .read len

def fifoExec (q : CircularQueue T) : FifoOp T → Except CircleErr (List T × CircularQueue T)
  | .write block => (q.fifoWrite block).map fun q => ([], q)
  | .peek len => (q.peek 0 len).map fun out => (out, q)
  | .read len => q.read len

/-- A FIFO, with the streams that were written to it and read from it. -/
structure Fifo (T : Type) where
  state : State T
  written : List T
  delivered : List T

def fifoStep (f : Fifo T) (op : FifoOp T) : Option (Fifo T) :=
  match fifoExec f.state.queue op with
  | .error _ => none
  | .ok (out, queue) =>
    some {
      state := { queue, items := op.call.after f.state.queue.capacity f.state.items }
      written := match op with
        | .write block => f.written ++ block
        | _ => f.written
      delivered := match op with
        | .read _ => f.delivered ++ out
        | _ => f.delivered }

def fifo (T : Type) [Inhabited T] (capacity : Nat) : System (Fifo T) (FifoOp T) where
  init f := f = { state := { queue := new capacity, items := [] }, written := [], delivered := [] }
  step := fifoStep

/-- The calls that the counters are wide enough for, with a block that fits in the address space. -/
def FifoOp.Fits (q : CircularQueue T) (op : FifoOp T) : Prop :=
  op.call.Fits q ∧
    match op with
    | .write block => q.size + block.length < 2 ^ 64
    | _ => True

section Runs

variable [Inhabited T] {c : Nat} {s s' : State T} {places : List Iter}

theorem Sound.exec (hc' : c < 2 ^ 32) (h : Sound c ⟨s, places⟩) {op : CircleOp T} (hfit : op.Fits s.queue) :
    (op.Within s.items → ∃ q, s.queue.exec op = .ok (op.output s.items, q) ∧
      ∃ places', Sound c ⟨⟨q, op.after c s.items⟩, places'⟩) ∧
      (¬op.Within s.items → s.queue.exec op = .error .pastEnd) := by
  have hcap : s.queue.capacity = c := h.capacity.1
  cases op with
  | write block =>
    obtain ⟨hc, -⟩ := hfit
    rw [hcap] at hc
    obtain ⟨q, hq, hs⟩ := h.write hc hc' block
    refine ⟨fun _ => ⟨q, ?_, hs⟩, fun hno => absurd trivial hno⟩
    rw [CircularQueue.exec, hq]
    rfl
  | peek offset len =>
    obtain ⟨hc, hfit⟩ := hfit
    rw [hcap] at hc
    refine ⟨fun hin => ⟨s.queue, ?_, places, h⟩, fun hno => ?_⟩
    · rw [CircularQueue.exec, h.peek hc hc' hin hfit]
      rfl
    · rw [CircularQueue.exec, h.peek_pastEnd hc hc' hno hfit]
      rfl
  | read len =>
    obtain ⟨hc, hfit, hpop⟩ := hfit
    rw [hcap] at hc
    have hsize := h.size hc hc'
    refine ⟨fun hin => ?_, fun hno => ?_⟩
    · have hle : len ≤ s.items.length := hin
      obtain ⟨q, hq, hs⟩ := h.popFront hc hc' hle (hpop (hsize ▸ hle))
      refine ⟨q, ?_, hs⟩
      rw [CircularQueue.exec, CircularQueue.read, h.peek hc hc' (show 0 + len ≤ s.items.length by omega) hfit]
      simp only [hq, List.drop_zero]
      rfl
    · have hgt : ¬len ≤ s.items.length := hno
      rw [CircularQueue.exec, CircularQueue.read,
        h.peek_pastEnd hc hc' (show ¬0 + len ≤ s.items.length by omega) hfit]

theorem sound_new (c : Nat) : Sound c ⟨⟨(new c : CircularQueue T), []⟩, []⟩ :=
  sound_empty (q := new c) rfl List.length_replicate

theorem sound_of_circleBuf (hc' : c < 2 ^ 32) (h : (circleBuf T c).ReachableWhen (fun s op => op.Fits s.queue) s) :
    ∃ places, Sound c ⟨s, places⟩ := by
  refine System.invariantWhen (I := fun s => ∃ places, Sound c ⟨s, places⟩) ?_ ?_ h
  · rintro s rfl
    exact ⟨[], sound_new c⟩
  · rintro s op s' _ ⟨places, hs⟩ hfit hstep
    obtain ⟨hin, hno⟩ := hs.exec hc' hfit
    simp only [circleBuf, circleStep] at hstep
    by_cases hw : op.Within s.items
    · obtain ⟨q, hq, hs'⟩ := hin hw
      rw [hq, hs.capacity.1] at hstep
      cases hstep
      exact hs'
    · rw [hno hw] at hstep
      cases hstep

/-- A block or a number of elements that the FIFO has room for, or holds. -/
def FifoOp.Accepted (c : Nat) (items : List T) : FifoOp T → Prop
  | .write block => items.length + block.length ≤ c
  | .peek len => len ≤ items.length
  | .read len => len ≤ items.length

/-- The panic of a call that is not accepted. -/
def FifoOp.refusal : FifoOp T → CircleErr
  | .write _ => .overfill
  | _ => .pastEnd

theorem Sound.fifoExec (hc' : c < 2 ^ 32) (h : Sound c ⟨s, places⟩) {op : FifoOp T} (hfit : op.Fits s.queue) :
    (op.Accepted c s.items → ∃ q, fifoExec s.queue op = .ok (op.call.output s.items, q) ∧
      ∃ places', Sound c ⟨⟨q, op.call.after c s.items⟩, places'⟩) ∧
    (¬op.Accepted c s.items → fifoExec s.queue op = .error op.refusal) := by
  have hcap : s.queue.capacity = c := h.capacity.1
  obtain ⟨hin, hno⟩ := h.exec hc' hfit.1
  cases op with
  | write block =>
    have hsize := h.size (hcap ▸ hfit.1.1) hc'
    have hroom := hfit.2
    refine ⟨fun hacc => ?_, fun hacc => ?_⟩
    · have hle : s.items.length + block.length ≤ c := hacc
      obtain ⟨q, hq, hs⟩ := hin trivial
      refine ⟨q, ?_, hs⟩
      rw [CircularQueue.fifoExec, fifoWrite, if_neg (by omega)]
      exact hq
    · have hgt : ¬s.items.length + block.length ≤ c := hacc
      rw [CircularQueue.fifoExec, fifoWrite, if_pos (by omega)]
      rfl
  | peek len =>
    refine ⟨fun hacc => ?_, fun hacc => hno ?_⟩
    · have hle : len ≤ s.items.length := hacc
      exact hin (show 0 + len ≤ s.items.length by omega)
    · have hgt : ¬len ≤ s.items.length := hacc
      exact show ¬0 + len ≤ s.items.length by omega
  | read len => exact ⟨hin, hno⟩

/-- A `StreamBuffer` makes the calls that are accepted, and no others: it does not panic. -/
theorem Sound.tryStream (hc' : c < 2 ^ 32) (h : Sound c ⟨s, places⟩) :
    (∀ block : List T, (FifoOp.write block).Fits s.queue →
      (s.items.length + block.length ≤ c → ∃ q, s.queue.tryWriteStream block = .ok (some q) ∧
        CircularQueue.fifoExec s.queue (.write block) = .ok ([], q)) ∧
      (¬s.items.length + block.length ≤ c → s.queue.tryWriteStream block = .ok none)) ∧
    ∀ len, (FifoOp.read len : FifoOp T).Fits s.queue →
      (len ≤ s.items.length → ∃ q, s.queue.tryReadStream len = .ok (some (s.items.take len, q)) ∧
        CircularQueue.fifoExec s.queue (.read len) = .ok (s.items.take len, q)) ∧
      (¬len ≤ s.items.length → s.queue.tryReadStream len = .ok none) := by
  have hcap : s.queue.capacity = c := h.capacity.1
  refine ⟨fun block hfit => ?_, fun len hfit => ?_⟩
  · have hsize := h.size (hcap ▸ hfit.1.1) hc'
    have hroom : s.queue.size + block.length < 2 ^ 64 := hfit.2
    unfold tryWriteStream
    refine ⟨fun hle => ?_, fun hno => by rw [if_neg (by omega)]⟩
    obtain ⟨q, hq, -⟩ := (h.fifoExec hc' hfit).1 hle
    refine ⟨q, ?_, hq⟩
    rw [if_pos (by omega)]
    cases hw : s.queue.fifoWrite block with
    | error e =>
      rw [CircularQueue.fifoExec, hw] at hq
      cases hq
    | ok q' =>
      rw [CircularQueue.fifoExec, hw] at hq
      cases hq
      rfl
  · have hsize := h.size (hcap ▸ hfit.1.1) hc'
    unfold tryReadStream
    refine ⟨fun hle => ?_, fun hno => by rw [if_neg (by omega)]⟩
    obtain ⟨q, hq, -⟩ := (h.fifoExec hc' hfit).1 hle
    have hread : s.queue.read len = .ok (s.items.take len, q) := hq
    refine ⟨q, ?_, hq⟩
    rw [if_pos (by omega), hread]
    rfl

/-- What was read and what the FIFO holds are what was written, in its order. -/
structure Streams (c : Nat) (f : Fifo T) : Prop where
  sound : ∃ places, Sound c ⟨f.state, places⟩
  stream : f.delivered ++ f.state.items = f.written

theorem streams_of_fifo (hc' : c < 2 ^ 32) {f : Fifo T}
    (h : (fifo T c).ReachableWhen (fun f op => op.Fits f.state.queue) f) : Streams c f := by
  refine System.invariantWhen (I := Streams c) ?_ ?_ h
  · rintro f rfl
    exact ⟨⟨[], sound_new c⟩, rfl⟩
  · rintro f op f' _ ⟨⟨places, hs⟩, hstream⟩ hfit hstep
    obtain ⟨hin, hno⟩ := hs.fifoExec hc' hfit
    simp only [fifo, fifoStep] at hstep
    by_cases hacc : op.Accepted c f.state.items
    · obtain ⟨q, hq, hs'⟩ := hin hacc
      rw [hq, hs.capacity.1] at hstep
      cases hstep
      refine ⟨hs', ?_⟩
      cases op with
      | write block =>
        have hkeep : keep c (f.state.items ++ block) = f.state.items ++ block :=
          keep_of_le (by rwa [List.length_append])
        simp only [FifoOp.call, CircleOp.after, hkeep]
        rw [← List.append_assoc, hstream]
      | peek len => exact hstream
      | read len =>
        simp only [FifoOp.call, CircleOp.after, CircleOp.output]
        rw [List.append_assoc, List.take_append_drop, hstream]
    · rw [hno hacc] at hstep
      cases hstep

/-- **`tryReadStream` and `tryWriteStream` never panic**: in every run they refuse exactly the blocks that do not fit
and the reads of more than there is, and what is read is the oldest. -/
theorem streamBuffer_guarded (hc' : c < 2 ^ 32) {f : Fifo T}
    (h : (fifo T c).ReachableWhen (fun f op => op.Fits f.state.queue) f) :
    (∀ block : List T, (FifoOp.write block).Fits f.state.queue → ∃ r, f.state.queue.tryWriteStream block = .ok r ∧
      (r = none ↔ c < f.state.items.length + block.length)) ∧
    ∀ len, (FifoOp.read len : FifoOp T).Fits f.state.queue → ∃ r, f.state.queue.tryReadStream len = .ok r ∧
      r.map Prod.fst = if len ≤ f.state.items.length then some (f.state.items.take len) else none := by
  obtain ⟨places, hs⟩ := (streams_of_fifo hc' h).sound
  obtain ⟨hwrite, hread⟩ := hs.tryStream hc'
  refine ⟨fun block hfit => ?_, fun len hfit => ?_⟩
  · by_cases hle : f.state.items.length + block.length ≤ c
    · obtain ⟨q, hq, -⟩ := (hwrite block hfit).1 hle
      exact ⟨_, hq, nofun, fun hlt => absurd hle (Nat.not_le.mpr hlt)⟩
    · exact ⟨_, (hwrite block hfit).2 hle, fun _ => Nat.not_le.mp hle, fun _ => rfl⟩
  · by_cases hle : len ≤ f.state.items.length
    · obtain ⟨q, hq, -⟩ := (hread len hfit).1 hle
      exact ⟨_, hq, (if_pos hle).symm⟩
    · exact ⟨_, (hread len hfit).2 hle, (if_neg hle).symm⟩

/-- **The buffer and the FIFO.** As long as the counters of the queue are wide enough, each call on a `CircleBuf` does
what it does on the list of the last elements written: no slot outside the vector is touched, what is read are the
oldest elements in their order, and a call past the end is refused. What was read from a `Fifo` and what it holds are
the stream written to it, and a call is refused exactly if there is no room, or too little to read. -/
theorem circleBuf_refines (hc' : c < 2 ^ 32) :
    (∀ s, (circleBuf T c).ReachableWhen (fun s op => op.Fits s.queue) s →
      s.items.length ≤ c ∧ ∀ op : CircleOp T, op.Fits s.queue →
        (op.Within s.items → ∃ s', circleStep s op = some s' ∧ s'.items = op.after c s.items ∧
          s.queue.exec op = .ok (op.output s.items, s'.queue)) ∧
        (¬op.Within s.items → s.queue.exec op = .error .pastEnd)) ∧
    ∀ f, (fifo T c).ReachableWhen (fun f op => op.Fits f.state.queue) f →
      f.delivered ++ f.state.items = f.written ∧ ∀ op : FifoOp T, op.Fits f.state.queue →
        (op.Accepted c f.state.items → ∃ q, fifoExec f.state.queue op = .ok (op.call.output f.state.items, q)) ∧
        (¬op.Accepted c f.state.items → fifoExec f.state.queue op = .error op.refusal) := by
  refine ⟨fun s h => ?_, fun f h => ?_⟩
  · obtain ⟨places, hs⟩ := sound_of_circleBuf hc' h
    refine ⟨hs.length, fun op hfit => ?_⟩
    obtain ⟨hin, hno⟩ := hs.exec hc' hfit
    refine ⟨fun hw => ?_, hno⟩
    obtain ⟨q, hq, -⟩ := hin hw
    refine ⟨⟨q, op.after c s.items⟩, ?_, rfl, hq⟩
    rw [circleStep, hq, hs.capacity.1]
  · obtain ⟨⟨places, hs⟩, hstream⟩ := streams_of_fifo hc' h
    refine ⟨hstream, fun op hfit => ?_⟩
    obtain ⟨hin, hno⟩ := hs.fifoExec hc' hfit
    refine ⟨fun hacc => ?_, hno⟩
    obtain ⟨q, hq, -⟩ := hin hacc
    exact ⟨q, hq⟩

end Runs

instance (q : CircularQueue T) (offset len : Nat) : Decidable (q.CopyFits offset len) :=
  inferInstanceAs (Decidable (_ ∧ (_ → _)))

instance (q : CircularQueue T) (op : CircleOp T) : Decidable (op.Fits q) := by
  cases op <;> unfold CircleOp.Fits <;> infer_instance

instance (q : CircularQueue T) (op : FifoOp T) : Decidable (op.Fits q) := by
  cases op <;> unfold FifoOp.Fits <;> infer_instance

/-- The third block wraps around. -/
theorem circleBuf_refines_four : ∃ f, (fifo Nat 4).Reachable f ∧ f.written = [5, 6, 7, 8, 9, 10] ∧
    f.delivered = [5, 6] ∧ f.delivered ++ f.state.items = f.written := by
  obtain ⟨f, hf, hw, hd⟩ := System.reachableWhen_of_replay (S := fifo Nat 4)
    (C := fun f op => decide (op.Fits f.state.queue))
    rfl [.write [5, 6, 7], .read 2, .peek 1, .write [8, 9, 10]]
    (fun f => f.written = [5, 6, 7, 8, 9, 10] ∧ f.delivered = [5, 6]) (by decide)
  exact ⟨f, hf.reachable, hw, hd, ((circleBuf_refines (by decide)).2 f (hf.mono fun _ _ => of_decide_eq_true)).1⟩

theorem streamBuffer_guarded_four : ∃ f, (fifo Nat 4).Reachable f ∧ f.state.items = [7] ∧
    ∃ r, f.state.queue.tryWriteStream [8, 9, 10, 11] = .ok r ∧ r = none := by
  obtain ⟨f, hf, hitems, hfits⟩ := System.reachableWhen_of_replay (S := fifo Nat 4)
    (C := fun f op => decide (op.Fits f.state.queue)) rfl [.write [5, 6, 7], .read 2]
    (fun f => f.state.items = [7] ∧ (FifoOp.write [8, 9, 10, 11]).Fits f.state.queue) (by decide)
  obtain ⟨r, hr, hnone⟩ := (streamBuffer_guarded (by decide) (hf.mono fun _ _ => of_decide_eq_true)).1 _ hfits
  exact ⟨f, hf.reachable, hitems, r, hr, hnone.mpr (by rw [hitems]; decide)⟩

/-- A buffer of three after `k + 1` writes of three elements. -/
def filled (k : Nat) : State Nat where
  queue := { store := [7, 5, 6], capacity := 3, head := 1, tail := 0, isEmpty := false, round := (k + 1) % 2 ^ 32 }
  items := [5, 6, 7]

theorem filled_write (round : Nat) :
    circleStep ⟨⟨[7, 5, 6], 3, 1, 0, false, round⟩, [5, 6, 7]⟩ (.write [5, 6, 7]) =
      some ⟨⟨[7, 5, 6], 3, 1, 0, false, incRound round⟩, [5, 6, 7]⟩ := by
  simp [circleStep, exec, write, copyIn, endIt, next, increase, moduloAdd, advanceBy, CircularQueue.advanceTail,
    CircleOp.after, keep, Except.map]

theorem filled_step (k : Nat) : circleStep (filled k) (.write [5, 6, 7]) = some (filled (k + 1)) := by
  have hround : incRound ((k + 1) % 2 ^ 32) = (k + 1 + 1) % 2 ^ 32 := by
    unfold incRound
    omega
  unfold filled
  rw [← hround]
  exact filled_write _

theorem filled_reachable (k : Nat) : (circleBuf Nat 3).Reachable (filled k) := by
  induction k with
  | zero =>
    have hinit : (circleBuf Nat 3).init ⟨new 3, []⟩ := rfl
    exact (System.ReachableWhen.init hinit).step (a := .write [5, 6, 7]) trivial rfl
  | succ k ih => exact ih.step trivial (filled_step k)

/-- After `2 ^ 32` writes the counter of rounds is 0 again, and one element cannot be read. -/
theorem rounds_run_out : ¬∀ c, 1 ≤ c → c < 2 ^ 32 → ∀ s, (circleBuf Nat c).Reachable s → ∀ op : CircleOp Nat,
    op.Within s.items → ∃ q, s.queue.exec op = .ok (op.output s.items, q) := by
  intro hall
  obtain ⟨q, hq⟩ := hall 3 (by decide) (by decide) _ (filled_reachable (2 ^ 32 - 1)) (.read 1)
    (show 1 ≤ 3 by decide)
  have hfail : (filled (2 ^ 32 - 1)).queue.exec (.read 1) = .error .assertion := by rfl
  cases hq

end CircularQueue

end Salam.Base
