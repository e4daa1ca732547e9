import Salam.Ruby.BufferRuns

/-!
# A bounded message buffer does not overflow

`areNSlotsAvailable` goes by the messages in the buffer as long as nothing was popped in the tick, and after that by
those that were there before the first pop and those enqueued in the tick, so that it never counts fewer than there are
(`Bounded.visible`).
It adds the three numbers up in 32 bits: an answer is right if the sum does not exceed them (`fits`).

* `Bounded`, `bounded_step`: the invariant.
* `size_le_of_reachable`: the result.
-/

namespace Salam.Ruby

/-- What `areNSlotsAvailable` counts, in whole numbers. -/
def MessageBuffer.visible (b : MessageBuffer) (current_time : Nat) : Nat :=
  if b.m_time_last_time_pop < current_time then b.size
  else b.m_size_at_cycle_start + (if b.m_time_last_time_enqueue < current_time then 0 else b.m_msgs_this_cycle) +
    b.m_stalled_at_cycle_start

/-- An enqueue is one of a batch that slots were found for. -/
def batched (r : Run) (e : Event) : Bool :=
  match e.op with
  | .enqueue _ _ _ _ => 0 < r.grantedAt e.tick
  | _ => true

/-- A check adds up to less than 2³². -/
def fits (r : Run) (e : Event) : Bool :=
  match e.op with
  | .areNSlotsAvailable n => r.buf.visible e.tick + n.toNat < 2 ^ 32
  | _ => true

variable {p : Params} {r r' : Run} {e : Event} {t : Nat}

namespace MessageBuffer

variable {b : MessageBuffer} {n : UInt32}

theorem stallMapSize_eq (h : b.m_stall_map_size = b.stalled.length) (hlt : b.stalled.length < 2 ^ 32) :
    b.stallMapSize = b.stalled.length := by
  rw [stallMapSize, h]
  omega

/-- The answer, where nothing wraps around. -/
theorem areNSlotsAvailable_iff (hmax : 0 < p.m_max_size) (hstall : b.m_stall_map_size = b.stalled.length)
    (hsize : b.size < 2 ^ 32) (hfits : b.visible t + n.toNat < 2 ^ 32) :
    b.areNSlotsAvailable p n t = true ↔ b.visible t + n.toNat ≤ p.m_max_size := by
  have hsum : b.currentSize t + b.currentStallSize t = b.visible t := by
    rw [size] at hsize
    rw [currentSize, currentStallSize, visible, size]
    rw [visible] at hfits
    split
    · rw [stallMapSize_eq hstall (by omega), Nat.mod_eq_of_lt (by omega)]
    · rename_i hpop
      rw [if_neg hpop] at hfits
      split
      · rfl
      · rename_i henq
        rw [if_neg henq] at hfits
        rw [Nat.mod_eq_of_lt (by omega)]
  rw [areNSlotsAvailable, hsum, Nat.mod_eq_of_lt hfits, Bool.or_eq_true, decide_eq_true_iff, decide_eq_true_iff]
  omega

end MessageBuffer

/-! ## The invariant -/

/-- The messages that were enqueued in a tick. -/
def MessageBuffer.enqueuedAt (b : MessageBuffer) (tick : Nat) : Nat :=
  if b.m_time_last_time_enqueue = tick then b.m_msgs_this_cycle else 0

structure Bounded (p : Params) (r : Run) : Prop where
  size : r.buf.size + r.granted ≤ p.m_max_size
  popTime : r.buf.m_time_last_time_pop ≤ r.now
  enqueueTime : r.buf.m_time_last_time_enqueue ≤ r.now
  unpopped : r.buf.m_time_last_time_pop < r.now → r.buf.enqueuedAt r.now ≤ r.buf.size
  popped : r.buf.m_time_last_time_pop = r.now →
    r.buf.size ≤ r.buf.m_size_at_cycle_start + r.buf.m_stalled_at_cycle_start + r.buf.enqueuedAt r.now
  enqueued : r.buf.enqueuedAt r.now + r.granted ≤ p.m_max_size

theorem bounded_start : Bounded p .start :=
    ⟨Nat.zero_le _, le_rfl, le_rfl, fun _ => Nat.zero_le _, fun _ => Nat.zero_le _, Nat.zero_le _⟩

theorem Bounded.goOn (h : Bounded p r) (ht : r.now ≤ t) : Bounded p (r.goOn t r.buf) := by
  obtain rfl | hlt := Nat.eq_or_lt_of_le ht
  · have hsame : r.goOn r.now r.buf = r := by rw [Run.goOn, Run.grantedAt, if_pos rfl]
    rw [hsame]
    exact h
  · have hsize := h.size
    have hpop := h.popTime
    have henq := h.enqueueTime
    have hnone : r.buf.enqueuedAt t = 0 := if_neg (by omega)
    have hgranted : r.grantedAt t = 0 := if_neg (by omega)
    constructor
    · change r.buf.size + r.grantedAt t ≤ _
      omega
    · exact hpop.trans ht
    · exact henq.trans ht
    · exact fun _ => hnone ▸ Nat.zero_le _
    · intro heq
      change r.buf.m_time_last_time_pop = t at heq
      omega
    · change r.buf.enqueuedAt t + r.grantedAt t ≤ _
      omega

/-- What the check counts is not less than what there is. -/
theorem Bounded.visible (h : Bounded p r) :
    r.buf.size ≤ r.buf.visible r.now ∧ r.buf.enqueuedAt r.now ≤ r.buf.visible r.now := by
  have hpop := h.popTime
  have henq := h.enqueueTime
  rw [MessageBuffer.visible]
  split
  · rename_i hlt
    exact ⟨le_rfl, h.unpopped hlt⟩
  · rename_i hlt
    have hcount : (if r.buf.m_time_last_time_enqueue < r.now then 0 else r.buf.m_msgs_this_cycle) =
      r.buf.enqueuedAt r.now := by
      split
      · exact (if_neg (by omega)).symm
      · exact (if_pos (by omega)).symm
    have hsize := h.popped (by omega)
    omega

theorem Bounded.moved (h : Bounded p r) {heap : Array Message} {map : List (Nat × List Message)} {size : Int}
    (hbuf : r'.buf = { r.buf with m_prio_heap := heap, m_stall_msg_map := map, m_stall_map_size := size })
    (hsize : r'.buf.size = r.buf.size) (hnow : r'.now = r.now) (hgranted : r'.granted = r.granted) : Bounded p r' := by
  obtain ⟨hle, hpop, henq, hunpopped, hpopped, hbatch⟩ := h
  have hat : r'.buf.enqueuedAt r'.now = r.buf.enqueuedAt r.now := by rw [hbuf, hnow]; rfl
  have htime : r'.buf.m_time_last_time_pop = r.buf.m_time_last_time_pop := by rw [hbuf]
  refine ⟨?_, ?_, ?_, ?_, ?_, ?_⟩
  · rwa [hsize, hgranted]
  · rwa [htime, hnow]
  · rw [hbuf, hnow]
    exact henq
  · rwa [hat, htime, hnow, hsize]
  · rw [htime, hsize, hat, hnow, hbuf]
    exact hpopped
  · rwa [hat, hgranted]

/-- A pop samples the sizes before it, if it is the first one of the tick. -/
theorem Bounded.pop (hkept : Kept r) (h : Bounded p r) {heap : Array Message}
    {map : List (Nat × List Message)} {size : Int}
    (hbuf : r'.buf = { r.buf.sampled r.now with m_prio_heap := heap, m_stall_msg_map := map, m_stall_map_size := size })
    (hsize : r'.buf.size ≤ r.buf.size) (hnow : r'.now = r.now) (hgranted : r'.granted = r.granted) : Bounded p r' := by
  have hmax := p.max_lt
  obtain ⟨hle, hpop, henq, hunpopped, hpopped, hbatch⟩ := h
  have hat : r'.buf.enqueuedAt r'.now = r.buf.enqueuedAt r.now := by
    rw [hbuf, hnow, MessageBuffer.enqueuedAt, MessageBuffer.enqueuedAt]
    simp
  have htime : r'.buf.m_time_last_time_pop = r.now := by
    rw [hbuf, MessageBuffer.sampled]
    split
    · rfl
    · change r.buf.m_time_last_time_pop = r.now
      omega
  have hsampled : r'.buf.size ≤ r'.buf.m_size_at_cycle_start + r'.buf.m_stalled_at_cycle_start +
    r.buf.enqueuedAt r.now := by
    have hparts : r.buf.size = r.buf.m_prio_heap.size + r.buf.stalled.length := rfl
    rw [hbuf, MessageBuffer.sampled] at hsize ⊢
    split
    · rename_i hlt
      have hstall := MessageBuffer.stallMapSize_eq hkept.stallMapSize (by omega)
      refine hsize.trans ?_
      change _ ≤ r.buf.m_prio_heap.size % 2 ^ 32 + r.buf.stallMapSize + r.buf.enqueuedAt r.now
      omega
    · rename_i hlt
      exact hsize.trans (hpopped (by omega))
  refine ⟨?_, ?_, ?_, ?_, ?_, ?_⟩
  · omega
  · rw [htime, hnow]
  · rw [hbuf, hnow]
    exact MessageBuffer.sampled_time_enqueue.trans_le henq
  · intro hlt
    omega
  · exact fun _ => hat ▸ hsampled
  · rwa [hat, hgranted]

theorem Bounded.enter (h : Bounded p r) (h0 : 0 < r.granted) {message : Message} {arrival : Nat} {warmup : Bool}
    (hbuf : r'.buf = r.buf.enqueued p message r.now arrival warmup) (hnow : r'.now = r.now)
    (hgranted : r'.granted = r.granted - 1) : Bounded p r' := by
  have hmax := p.max_lt
  obtain ⟨hle, hpop, henq, hunpopped, hpopped, hbatch⟩ := h
  have hsize : r'.buf.size = r.buf.size + 1 := by
    have hheap : r'.buf.m_prio_heap.size = r.buf.m_prio_heap.size + 1 := (MessageBuffer.enqueued_perm hbuf).length_eq
    have hstalled : r'.buf.stalled = r.buf.stalled := by rw [hbuf]; rfl
    rw [MessageBuffer.size, MessageBuffer.size, hheap, hstalled, Nat.add_right_comm]
  have hat : r'.buf.enqueuedAt r'.now = r.buf.enqueuedAt r.now + 1 := by
    have hlast : (if r.buf.m_time_last_time_enqueue < r.now then 0 else r.buf.m_msgs_this_cycle) =
      r.buf.enqueuedAt r.now := by
      split
      · exact (if_neg (by omega)).symm
      · exact (if_pos (by omega)).symm
    rw [hbuf, hnow]
    change (if max r.buf.m_time_last_time_enqueue r.now = r.now then
      ((if r.buf.m_time_last_time_enqueue < r.now then 0 else r.buf.m_msgs_this_cycle) + 1) % 2 ^ 32 else 0) = _
    rw [if_pos (max_eq_right henq), hlast, Nat.mod_eq_of_lt (by omega)]
  refine ⟨?_, ?_, ?_, ?_, ?_, ?_⟩
  · omega
  · rw [hbuf, hnow]
    exact hpop
  · rw [hbuf, hnow]
    exact (max_eq_right henq).le
  · intro hlt
    rw [hbuf, hnow] at hlt
    have := hunpopped hlt
    omega
  · intro heq
    have hold : r.buf.m_time_last_time_pop = r.now := by rwa [hbuf, hnow] at heq
    rw [hat, hsize, hbuf]
    change r.buf.size + 1 ≤ r.buf.m_size_at_cycle_start + r.buf.m_stalled_at_cycle_start + (r.buf.enqueuedAt r.now + 1)
    omega
  · omega

/-- An answer grants no more than there is room for. -/
theorem Bounded.check (hmax : 0 < p.m_max_size) (hkept : Kept r) (h : Bounded p r) {n : UInt32}
    (hfits : r.buf.visible r.now + n.toNat < 2 ^ 32) (hbuf : r'.buf = r.buf) (hnow : r'.now = r.now)
    (hgranted : r'.granted = if r.buf.areNSlotsAvailable p n r.now then max r.granted n.toNat else r.granted) :
    Bounded p r' := by
  obtain ⟨hsee, hseen⟩ := h.visible
  obtain ⟨hle, hpop, henq, hunpopped, hpopped, hbatch⟩ := h
  have hroom : r.buf.areNSlotsAvailable p n r.now = true → r.buf.visible r.now + n.toNat ≤ p.m_max_size :=
    (MessageBuffer.areNSlotsAvailable_iff hmax hkept.stallMapSize (by omega) hfits).mp
  rw [← hbuf, ← hnow] at *
  split at hgranted
  · rename_i havail
    have := hroom havail
    refine ⟨by omega, hpop, henq, hunpopped, hpopped, by omega⟩
  · refine ⟨by omega, hpop, henq, hunpopped, hpopped, by omega⟩

theorem bounded_step (hmax : 0 < p.m_max_size) (hkept : Kept r) (h : Bounded p r) (hforward : forward r e = true)
    (hbatched : batched r e = true) (hfits : fits r e = true) (hstep : Moves p r r' e) (hnow : r'.now = e.tick) :
    Bounded p r' := by
  have hthere := h.goOn (of_decide_eq_true hforward)
  have hkept' : Kept (r.goOn e.tick r.buf) := ⟨hkept.isHeap, hkept.stallMapSize, hkept.perm, hkept.counters⟩
  cases hstep with
  | check n hop hbuf _ _ hgranted =>
    rw [fits, hop] at hfits
    exact hthere.check hmax hkept' (of_decide_eq_true hfits) hbuf hnow hgranted
  | enter message delta draws warmup hop _ _ hbuf _ _ hgranted =>
    rw [batched, hop] at hbatched
    exact hthere.enter (of_decide_eq_true hbatched) hbuf hnow hgranted
  | leave m _ hfront hbuf _ _ hgranted =>
    refine hthere.pop hkept' hbuf ?_ hnow hgranted
    have hfewer := hfront.size_eq
    obtain ⟨hheap, hstalled⟩ := MessageBuffer.dequeue_places hbuf
    change r'.buf.size ≤ r.buf.size
    rw [MessageBuffer.size, MessageBuffer.size, hheap, hstalled]
    omega
  | again m recycle_latency _ hfront hbuf _ _ hgranted =>
    refine hthere.moved hbuf ?_ hnow hgranted
    have hback : r'.buf.m_prio_heap.size = r.buf.popped.m_prio_heap.size + 1 :=
      (MessageBuffer.recycled_perm hbuf).length_eq
    have hstalled : r'.buf.stalled = r.buf.stalled := by rw [hbuf]; rfl
    change r'.buf.size = r.buf.size
    rw [MessageBuffer.size, MessageBuffer.size, hback, hfront.size_eq, hstalled]
  | stall m addr _ hfront hbuf _ _ hgranted =>
    refine hthere.pop hkept' hbuf ?_ hnow hgranted
    have hfewer := hfront.size_eq
    obtain ⟨hheap, hstalled⟩ := MessageBuffer.stall_places hbuf
    change r'.buf.size ≤ r.buf.size
    rw [MessageBuffer.size, MessageBuffer.size, hheap, hstalled.length_eq, List.length_cons]
    omega
  | requeue moved _ hbuf _ _ hgranted =>
    refine hthere.moved hbuf.same ?_ hnow hgranted
    have hheap : r'.buf.m_prio_heap.size = moved.length + r.buf.m_prio_heap.size :=
      hbuf.heap.length_eq.trans List.length_append
    have hstalled := hbuf.stalled.length_eq.trans List.length_append
    change r'.buf.size = r.buf.size
    rw [MessageBuffer.size, MessageBuffer.size]
    omega

/-! ## Every run -/

/-- **A bounded message buffer does not overflow**, in the runs in which no check adds up to 2³² or more. -/
theorem size_le_of_reachable (hmax : 0 < p.m_max_size)
    (h : (bufferSystem p).ReachableWhen (fun r e => (forward r e && batched r e && fits r e) = true) r) :
    r.buf.size ≤ p.m_max_size ∧ r.buf.m_stall_map_size = r.buf.stalled.length := by
  have hinv : Kept r ∧ Bounded p r := by
    refine System.invariantWhen (I := fun r => Kept r ∧ Bounded p r) ?_ ?_ h
    · rintro _ rfl
      exact ⟨kept_start, bounded_start⟩
    · intro r e r' _ ⟨hkept, hbounded⟩ hC hstep
      rw [Bool.and_eq_true, Bool.and_eq_true] at hC
      have hmoves := moves_of_step hstep
      exact ⟨kept_step hkept hmoves,
        bounded_step hmax hkept hbounded hC.1.1 hC.1.2 hC.2 hmoves (exec_now (ok_of_toOption hstep))⟩
  exact ⟨Nat.le_of_add_right_le hinv.2.size, hinv.1.stallMapSize⟩

/-- Three messages: one is stalled, dequeued when it is back and makes room in the next tick. -/
theorem size_le_three : ∃ r, (bufferSystem (smallBuffer 3 (by decide))).ReachableWhen
    (fun r e => (forward r e && batched r e && fits r e) = true) r ∧
      (r.now = 3 ∧ r.buf.size = 3 ∧ r.dequeued.map (·.m_msg_counter) = [1]) ∧
      r.buf.size ≤ 3 ∧ r.buf.m_stall_map_size = r.buf.stalled.length := by
  obtain ⟨r, hr, hp⟩ := System.reachableWhen_of_replay (S := bufferSystem (smallBuffer 3 (by decide)))
    (C := fun r e => forward r e && batched r e && fits r e) rfl
    [⟨1, .areNSlotsAvailable 2⟩, ⟨1, .soon 0⟩, ⟨1, .soon 1⟩, ⟨2, .stallMessage 64⟩,
      ⟨2, .areNSlotsAvailable 1⟩, ⟨2, .soon 2⟩,
      ⟨2, .reanalyzeMessages 64⟩, ⟨2, .dequeue⟩, ⟨3, .areNSlotsAvailable 1⟩, ⟨3, .soon 3⟩, ⟨3, .recycle 1⟩]
    (fun r => r.now = 3 ∧ r.buf.size = 3 ∧ r.dequeued.map (·.m_msg_counter) = [1]) (by decide)
  exact ⟨r, hr, hp, size_le_of_reachable (by decide) hr⟩

end Salam.Ruby
