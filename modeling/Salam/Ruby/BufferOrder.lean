import Salam.Lib.Trace
import Salam.Ruby.BufferRuns

/-!
# A message buffer keeps and orders its messages

In a strict FIFO without recycled messages a message that was enqueued later arrives no earlier, wherever the two are:
in the heap or stalled (`InOrder.sorted`). The front of the heap is then the message of the heap that was enqueued
first, so that a message that comes back from the stall map takes its old place among those of the heap.

* `front_first`: what leaves the heap was enqueued before everything that stays in it.
* `departures_in_order`: the run lemma of it.
* `kept_and_ordered`: the result.
-/

namespace Salam.Ruby

/-- Nothing is recycled, and nothing is enqueued during the warm-up. -/
def orderly (_ : Run) (e : Event) : Bool :=
  match e.op with
  | .enqueue _ _ _ warmup => !warmup
  | .recycle _ => false
  | _ => true

/-- The message was never stalled. -/
def Run.neverStalled (r : Run) (m : Message) : Bool := m.m_msg_counter ∉ r.everStalled.map (·.m_msg_counter)

/-- The messages in the heap and in the stall map. -/
def MessageBuffer.live (b : MessageBuffer) : List Message := b.m_prio_heap.toList ++ b.stalled

variable {p : Params} {r r' : Run} {e : Event} {t : Nat} {m : Message}

open MessageBuffer

/-! ## The numbers of the messages -/

/-- The messages are numbered in the order of their enqueues. -/
theorem Kept.numbers (h : Kept r) : (r.contents.map (·.m_msg_counter)).Perm (List.range' 1 r.buf.m_msg_counter) := by
  rw [← h.counters]
  have hmap := h.perm.map Prod.fst
  rwa [List.map_map] at hmap

theorem Kept.le_counter (h : Kept r) (hm : m ∈ r.contents) : m.m_msg_counter ≤ r.buf.m_msg_counter := by
  have hmem := h.numbers.mem_iff.mp (List.mem_map_of_mem (f := (·.m_msg_counter)) hm)
  rw [List.mem_range'_1] at hmem
  omega

theorem live_mem_contents (hm : m ∈ r.buf.live) : m ∈ r.contents := List.mem_append_left _ hm

namespace MessageBuffer

variable {b : MessageBuffer}

theorem heap_mem_live (hm : m ∈ b.m_prio_heap.toList) : m ∈ b.live := List.mem_append_left _ hm

theorem stalled_mem_live (hm : m ∈ b.stalled) : m ∈ b.live := List.mem_append_right _ hm

theorem Front.mem (h : Front b t m) : m ∈ b.m_prio_heap.toList := h.perm.mem_iff.mp List.mem_cons_self

theorem Front.mem_of_popped (h : Front b t m) {m' : Message} (hm : m' ∈ b.popped.m_prio_heap.toList) :
    m' ∈ b.m_prio_heap.toList := h.perm.mem_iff.mp (List.mem_cons_of_mem _ hm)

end MessageBuffer

/-- No message that stays in the heap has the number of the front one. -/
theorem front_ne (hkept : Kept r) (h : Front r.buf t m) {m' : Message} (hm : m' ∈ r.buf.popped.m_prio_heap.toList) :
    m'.m_msg_counter ≠ m.m_msg_counter := by
  have hnodup : (r.contents.map (·.m_msg_counter)).Nodup := hkept.numbers.nodup_iff.mpr List.nodup_range'
  rw [Run.contents, List.append_assoc, List.map_append] at hnodup
  have hheap := ((h.perm.map (·.m_msg_counter)).nodup_iff).mpr (List.nodup_append.mp hnodup).1
  rw [List.map_cons, List.nodup_cons] at hheap
  exact fun heq => hheap.1 (heq ▸ List.mem_map_of_mem hm)

/-! ## The order of the messages -/

/-- What is enqueued later arrives no earlier. -/
def Sorted (b : MessageBuffer) : Prop :=
  ∀ m ∈ b.live, ∀ m' ∈ b.live, m.m_msg_counter < m'.m_msg_counter → m.m_LastEnqueueTime ≤ m'.m_LastEnqueueTime

/-- What leaves the heap was enqueued before everything that stays in it. -/
theorem front_first (hkept : Kept r) (hsorted : Sorted r.buf) (h : Front r.buf t m) {m' : Message}
    (hm : m' ∈ r.buf.popped.m_prio_heap.toList) : m.m_msg_counter < m'.m_msg_counter := by
  have hheap := h.mem_of_popped hm
  have hne := front_ne hkept h hm
  have hgt := Message.gt_eq_false.mp (h.first hkept.isHeap m' hheap)
  have hback := hsorted m' (heap_mem_live hheap) m (heap_mem_live h.mem)
  omega

/-- The invariant of the runs of a strict FIFO. -/
structure InOrder (r : Run) : Prop where
  sorted : Sorted r.buf
  last : ∀ m ∈ r.buf.live, m.m_LastEnqueueTime ≤ r.buf.m_last_arrival_time
  stalled : ∀ m ∈ r.buf.stalled, r.neverStalled m = false
  dequeued : (r.dequeued.filter r.neverStalled).Pairwise fun m m' => m.m_msg_counter < m'.m_msg_counter
  ahead : ∀ m ∈ r.buf.m_prio_heap.toList, r.neverStalled m = true →
    ∀ m' ∈ r.dequeued, m'.m_msg_counter < m.m_msg_counter

theorem inOrder_start : InOrder .start :=
    ⟨by simp [Sorted, live, Run.start, MessageBuffer.empty, MessageBuffer.stalled],
  by simp [live, Run.start, MessageBuffer.empty, MessageBuffer.stalled],
  by simp [Run.start, MessageBuffer.empty, MessageBuffer.stalled], .nil, by simp [Run.start, MessageBuffer.empty]⟩

theorem le_lastArrivalTime (b : MessageBuffer) : b.m_last_arrival_time ≤ b.lastArrivalTime p t := by
  rw [lastArrivalTime]
  split
  · exact le_max_left _ _
  · exact le_rfl

/-- The messages that are left are among those there were, with their numbers and arrival times. -/
def Among (b' b : MessageBuffer) : Prop :=
  ∀ m' ∈ b'.live, ∃ m ∈ b.live, m'.m_msg_counter = m.m_msg_counter ∧ m'.m_LastEnqueueTime = m.m_LastEnqueueTime

theorem Among.sorted {b b' : MessageBuffer} (h : Among b' b) (hs : Sorted b) : Sorted b' := by
  intro m₁ hm₁ m₂ hm₂ hlt
  obtain ⟨n₁, hn₁, hc₁, ht₁⟩ := h m₁ hm₁
  obtain ⟨n₂, hn₂, hc₂, ht₂⟩ := h m₂ hm₂
  rw [ht₁, ht₂]
  exact hs n₁ hn₁ n₂ hn₂ (hc₁ ▸ hc₂ ▸ hlt)

theorem Among.last {b b' : MessageBuffer} (h : Among b' b) {last : Nat}
    (hl : ∀ m ∈ b.live, m.m_LastEnqueueTime ≤ last) :
    ∀ m ∈ b'.live, m.m_LastEnqueueTime ≤ last := by
  intro m hm
  obtain ⟨n, hn, -, ht⟩ := h m hm
  exact ht ▸ hl n hn

theorem everStalled_congr (h : r'.departures = r.departures) : r'.everStalled = r.everStalled := by
  rw [Run.everStalled, h, Run.everStalled]

theorem everStalled_of_leave (h : r'.departures = r.departures ++ [⟨m, false⟩]) : r'.everStalled = r.everStalled := by
  rw [Run.everStalled, h, List.filter_append, List.map_append]
  exact List.append_nil _

theorem everStalled_of_stall (h : r'.departures = r.departures ++ [⟨m, true⟩]) :
    r'.everStalled = r.everStalled ++ [m] := by
  rw [Run.everStalled, h, List.filter_append, List.map_append]
  rfl

theorem neverStalled_congr (h : r'.everStalled = r.everStalled) : r'.neverStalled = r.neverStalled := by
  funext m
  rw [Run.neverStalled, h, Run.neverStalled]

/-- A stall only takes the stalled message off. -/
theorem neverStalled_of_stall (h : r'.everStalled = r.everStalled ++ [m]) (m' : Message) :
    r'.neverStalled m' = (r.neverStalled m' && !decide (m'.m_msg_counter = m.m_msg_counter)) := by
  rw [Run.neverStalled, Run.neverStalled, h, List.map_append, ← decide_not, ← Bool.decide_and, decide_eq_decide]
  simp only [List.mem_append, List.map_singleton, List.mem_singleton, not_or]

theorem InOrder.congr (h : InOrder r) (hbuf : r'.buf = r.buf) (hdep : r'.departures = r.departures) : InOrder r' := by
  have hdeq := dequeued_congr hdep
  have hever := neverStalled_congr (everStalled_congr hdep)
  exact ⟨hbuf ▸ h.sorted, hbuf ▸ h.last, by rw [hbuf, hever]; exact h.stalled, by rw [hdeq, hever]; exact h.dequeued,
    by rw [hbuf, hever, hdeq]; exact h.ahead⟩

/-- A message that is enqueued arrives no earlier than those before it. -/
theorem InOrder.enter {message : Message} {delta : Nat} {draws : Draws} (h : InOrder r) (hkept : Kept r)
    (hfifo : r.buf.lastArrivalTime p e.tick ≤ r.buf.arrivalTime p e.tick delta draws)
    (hbuf : r'.buf = r.buf.enqueued p message e.tick (r.buf.arrivalTime p e.tick delta draws) false)
    (hdep : r'.departures = r.departures) : InOrder r' := by
  have hdeq := dequeued_congr hdep
  have hever := neverStalled_congr (everStalled_congr hdep)
  have hstalled : r'.buf.stalled = r.buf.stalled := by rw [hbuf]; rfl
  have hlast : r'.buf.m_last_arrival_time = r.buf.arrivalTime p e.tick delta draws := by
    rw [hbuf]
    rfl
  have hlater : ∀ m ∈ r.buf.live, m.m_LastEnqueueTime ≤ r.buf.arrivalTime p e.tick delta draws :=
    fun m hm => ((h.last m hm).trans (le_lastArrivalTime r.buf)).trans hfifo
  have hheap : ∀ m, m ∈ r'.buf.m_prio_heap.toList ↔
      m = r.buf.entered message e.tick (r.buf.arrivalTime p e.tick delta draws) ∨ m ∈ r.buf.m_prio_heap.toList :=
    fun m => (enqueued_perm hbuf).mem_iff.trans List.mem_cons
  have hlive : ∀ m ∈ r'.buf.live,
      m = r.buf.entered message e.tick (r.buf.arrivalTime p e.tick delta draws) ∨ m ∈ r.buf.live := by
    intro m hm
    obtain hm | hm := List.mem_append.mp hm
    · exact ((hheap m).mp hm).imp_right heap_mem_live
    · exact .inr (stalled_mem_live (hstalled ▸ hm))
  refine ⟨?_, ?_, by rw [hstalled, hever]; exact h.stalled, by rw [hdeq, hever]; exact h.dequeued, ?_⟩
  · intro m₁ hm₁ m₂ hm₂ hlt
    obtain rfl | hm₁ := hlive m₁ hm₁
    · obtain rfl | hm₂ := hlive m₂ hm₂
      · exact le_rfl
      · -- No message has a number above that of the newest one.
        have hle := hkept.le_counter (live_mem_contents hm₂)
        change r.buf.m_msg_counter + 1 < m₂.m_msg_counter at hlt
        omega
    · obtain rfl | hm₂ := hlive m₂ hm₂
      · exact hlater m₁ hm₁
      · exact h.sorted m₁ hm₁ m₂ hm₂ hlt
  · intro m hm
    rw [hlast]
    obtain rfl | hm := hlive m hm
    · exact le_rfl
    · exact hlater m hm
  · intro m hm hnever m' hm'
    rw [hever] at hnever
    rw [hdeq] at hm'
    obtain rfl | hm := (hheap m).mp hm
    · exact Nat.lt_succ_of_le (hkept.le_counter (List.mem_append_right _ hm'))
    · exact h.ahead m hm hnever m' hm'

/-- The front message is dequeued. -/
theorem InOrder.leave (h : InOrder r) (hkept : Kept r) (hfront : Front r.buf e.tick m)
    (hbuf : r'.buf = (r.buf.sampled e.tick).popped)
    (hdep : r'.departures = r.departures ++ [⟨m.updateDelayedTicks e.tick, false⟩]) : InOrder r' := by
  obtain ⟨hheap, hstalled⟩ := dequeue_places hbuf
  have hdeq := dequeued_of_leave hdep
  have hever := neverStalled_congr (everStalled_of_leave hdep)
  have hlast : r'.buf.m_last_arrival_time = r.buf.m_last_arrival_time := by rw [hbuf]; exact sampled_last_arrival_time
  have hamong : Among r'.buf r.buf := by
    intro m' hm'
    rw [live, hheap, hstalled] at hm'
    obtain hm' | hm' := List.mem_append.mp hm'
    · exact ⟨m', heap_mem_live (hfront.mem_of_popped hm'), rfl, rfl⟩
    · exact ⟨m', stalled_mem_live hm', rfl, rfl⟩
  refine ⟨hamong.sorted h.sorted, hlast ▸ hamong.last h.last, by rw [hstalled, hever]; exact h.stalled, ?_, ?_⟩
  · rw [hdeq, hever, List.filter_append]
    refine List.pairwise_append.mpr ⟨h.dequeued, (List.pairwise_singleton _ _).filter _, fun m₁ hm₁ m₂ hm₂ => ?_⟩
    obtain ⟨hm₂, hnever⟩ := List.mem_filter.mp hm₂
    obtain rfl := List.mem_singleton.mp hm₂
    exact h.ahead m hfront.mem hnever m₁ (List.mem_filter.mp hm₁).1
  · intro m₁ hm₁ hnever m₂ hm₂
    rw [hheap] at hm₁
    rw [hever] at hnever
    rw [hdeq] at hm₂
    obtain hm₂ | hm₂ := List.mem_append.mp hm₂
    · exact h.ahead m₁ (hfront.mem_of_popped hm₁) hnever m₂ hm₂
    · obtain rfl := List.mem_singleton.mp hm₂
      exact front_first hkept h.sorted hfront hm₁

/-- The front message is stalled. -/
theorem InOrder.stall {addr : Nat} (h : InOrder r) (hfront : Front r.buf e.tick m)
    (hbuf : r'.buf = { (r.buf.sampled e.tick).popped with
      m_stall_msg_map := pushStalled addr (m.updateDelayedTicks e.tick) (r.buf.sampled e.tick).m_stall_msg_map
      m_stall_map_size := (r.buf.sampled e.tick).m_stall_map_size + 1 })
    (hdep : r'.departures = r.departures ++ [⟨m.updateDelayedTicks e.tick, true⟩]) : InOrder r' := by
  obtain ⟨hheap, hstalled⟩ := stall_places hbuf
  have hdeq := dequeued_of_stall hdep
  have hever := neverStalled_of_stall (everStalled_of_stall hdep)
  have hbefore : ∀ {m'}, r'.neverStalled m' = true → r.neverStalled m' = true := by
    intro m' hm'
    rw [hever, Bool.and_eq_true] at hm'
    exact hm'.1
  have hlast : r'.buf.m_last_arrival_time = r.buf.m_last_arrival_time := by rw [hbuf]; exact sampled_last_arrival_time
  have hamong : Among r'.buf r.buf := by
    intro m' hm'
    rw [live, hheap] at hm'
    obtain hm' | hm' := List.mem_append.mp hm'
    · exact ⟨m', heap_mem_live (hfront.mem_of_popped hm'), rfl, rfl⟩
    · obtain rfl | hm' := List.mem_cons.mp (hstalled.mem_iff.mp hm')
      · exact ⟨m, heap_mem_live hfront.mem, rfl, rfl⟩
      · exact ⟨m', stalled_mem_live hm', rfl, rfl⟩
  refine ⟨hamong.sorted h.sorted, hlast ▸ hamong.last h.last, ?_, ?_, ?_⟩
  · intro m' hm'
    rw [hever]
    obtain rfl | hm' := List.mem_cons.mp (hstalled.mem_iff.mp hm')
    · simp
    · rw [h.stalled m' hm', Bool.false_and]
  · rw [hdeq]
    exact h.dequeued.sublist (List.monotone_filter_right _ fun _ => hbefore)
  · intro m₁ hm₁ hnever m₂ hm₂
    rw [hheap] at hm₁
    exact h.ahead m₁ (hfront.mem_of_popped hm₁) (hbefore hnever) m₂ (hdeq ▸ hm₂)

/-- Stalled messages come back into the heap. -/
theorem InOrder.requeue {moved : List Message} (h : InOrder r) (hbuf : Requeued e.tick r.buf r'.buf moved)
    (hdep : r'.departures = r.departures) : InOrder r' := by
  have hdeq := dequeued_congr hdep
  have hever := neverStalled_congr (everStalled_congr hdep)
  have hlast : r'.buf.m_last_arrival_time = r.buf.m_last_arrival_time := by rw [hbuf.same]
  have hmoved : ∀ m ∈ moved, m ∈ r.buf.stalled := fun m hm => hbuf.stalled.mem_iff.mpr (List.mem_append_left _ hm)
  have hstays : ∀ m ∈ r'.buf.stalled, m ∈ r.buf.stalled :=
    fun m hm => hbuf.stalled.mem_iff.mpr (List.mem_append_right _ hm)
  have hamong : Among r'.buf r.buf := by
    intro m' hm'
    refine ⟨m', ?_, rfl, rfl⟩
    obtain hm' | hm' := List.mem_append.mp hm'
    · obtain hm' | hm' := List.mem_append.mp (hbuf.heap.mem_iff.mp hm')
      · exact stalled_mem_live (hmoved m' hm')
      · exact heap_mem_live hm'
    · exact stalled_mem_live (hstays m' hm')
  refine ⟨hamong.sorted h.sorted, hlast ▸ hamong.last h.last, ?_, by rw [hdeq, hever]; exact h.dequeued, ?_⟩
  · rw [hever]
    exact fun m' hm' => h.stalled m' (hstays m' hm')
  · intro m₁ hm₁ hnever m₂ hm₂
    rw [hever] at hnever
    rw [hdeq] at hm₂
    obtain hm₁ | hm₁ := List.mem_append.mp (hbuf.heap.mem_iff.mp hm₁)
    · rw [h.stalled m₁ (hmoved m₁ hm₁)] at hnever
      cases hnever
    · exact h.ahead m₁ hm₁ hnever m₂ hm₂

theorem inOrder_step (hstrict : p.m_strict_fifo = true) (hkept : Kept r) (h : InOrder r) (hC : orderly r e = true)
    (hstep : Moves p r r' e) : InOrder r' := by
  cases hstep with
  | check n _ hbuf _ hdep _ => exact h.congr hbuf hdep
  | enter message delta draws warmup hop _ hfifo hbuf _ hdep _ =>
    rw [orderly, hop, Bool.not_eq_true'] at hC
    subst hC
    exact h.enter hkept (hfifo hstrict) hbuf hdep
  | leave m _ hfront hbuf _ hdep _ => exact h.leave hkept hfront hbuf hdep
  | again m recycle_latency hop _ _ _ _ _ =>
    rw [orderly, hop] at hC
    cases hC
  | stall m addr _ hfront hbuf _ hdep _ => exact h.stall hfront hbuf hdep
  | requeue moved _ hbuf _ hdep _ => exact h.requeue hbuf hdep

theorem inOrder_of_reachable (hstrict : p.m_strict_fifo = true)
    (h : (bufferSystem p).ReachableWhen (fun r e => orderly r e = true) r) : InOrder r :=
  System.invariantWhen (fun _ h => h ▸ inOrder_start)
    (fun _ _ _ hr hI hC hs => inOrder_step hstrict (kept_of_reachable hr.reachable) hI hC (moves_of_step hs)) h

/-! ## The order of the departures -/

/-- A message stays in the heap unless it is the front one and leaves. -/
theorem departure_cases (hstep : Moves p r r' e) :
    (r'.departures = r.departures ∧
      ∀ m ∈ r.buf.m_prio_heap.toList, ∃ m' ∈ r'.buf.m_prio_heap.toList, m'.m_msg_counter = m.m_msg_counter) ∨
    ∃ m d, Front r.buf e.tick m ∧ r'.departures = r.departures ++ [d] ∧ d.message.m_msg_counter = m.m_msg_counter ∧
      r'.buf.m_prio_heap = r.buf.popped.m_prio_heap := by
  cases hstep with
  | check n _ hbuf _ hdep _ => exact .inl ⟨hdep, fun m hm => ⟨m, hbuf ▸ hm, rfl⟩⟩
  | enter message delta draws warmup _ _ _ hbuf _ hdep _ =>
    exact .inl ⟨hdep, fun m hm => ⟨m, (enqueued_perm hbuf).mem_iff.mpr (List.mem_cons_of_mem _ hm), rfl⟩⟩
  | leave m _ hfront hbuf _ hdep _ => exact .inr ⟨m, _, hfront, hdep, rfl, (dequeue_places hbuf).1⟩
  | again m recycle_latency _ hfront hbuf _ hdep _ =>
    refine .inl ⟨hdep, fun m' hm' => ?_⟩
    obtain rfl | hm' := List.mem_cons.mp (hfront.perm.mem_iff.mpr hm')
    · exact ⟨_, (recycled_perm hbuf).mem_iff.mpr List.mem_cons_self, rfl⟩
    · exact ⟨m', (recycled_perm hbuf).mem_iff.mpr (List.mem_cons_of_mem _ hm'), rfl⟩
  | stall m addr _ hfront hbuf _ hdep _ => exact .inr ⟨m, _, hfront, hdep, rfl, (stall_places hbuf).1⟩
  | requeue moved _ hbuf _ hdep _ =>
    exact .inl ⟨hdep, fun m hm => ⟨m, hbuf.heap.mem_iff.mpr (List.mem_append_right _ hm), rfl⟩⟩

/-- A departure of the message with the number `b` comes after one of the message with the number `a`. -/
def After (a b : Nat) (before : List Departure) (d : Departure) : Prop :=
  d.message.m_msg_counter = b → ∃ d' ∈ before, d'.message.m_msg_counter = a

/-- Of two messages of the heap, the one that was enqueued first leaves first, whatever was stalled before and is
stalled then. -/
theorem departures_in_order (hstrict : p.m_strict_fifo = true)
    (h : (bufferSystem p).ReachableWhen (fun r e => orderly r e = true) r) {a b : Message}
      (ha : a ∈ r.buf.m_prio_heap.toList)
    (hlt : a.m_msg_counter < b.m_msg_counter) (hrun : (bufferSystem p).Run (fun r e => orderly r e = true) r r') :
    ∃ later, r'.departures = r.departures ++ later ∧ Ordered (After a.m_msg_counter b.m_msg_counter) later ∧
      ((∃ m ∈ r'.buf.m_prio_heap.toList, m.m_msg_counter = a.m_msg_counter) ∨
        ∃ d ∈ later, d.message.m_msg_counter = a.m_msg_counter) := by
  induction hrun with
  | refl => exact ⟨[], (List.append_nil _).symm, .nil, .inl ⟨a, ha, rfl⟩⟩
  | @tail r₁ r₂ e hrun hC hstep ih =>
    obtain ⟨later, hlater, hord, hplace⟩ := ih
    have hr₁ := h.run hrun
    obtain ⟨hdep, hstays⟩ | ⟨m, d, hfront, hdep, hd, hheap⟩ := departure_cases (moves_of_step hstep)
    · refine ⟨later, hdep.trans hlater, hord, hplace.imp_left ?_⟩
      rintro ⟨m, hm, hma⟩
      obtain ⟨m', hm', hm'm⟩ := hstays m hm
      exact ⟨m', hm', hm'm.trans hma⟩
    · refine ⟨later ++ [d], by rw [hdep, hlater, List.append_assoc], hord.concat fun hdb => ?_, ?_⟩
      · -- The front message is not `b` while `a` is in the heap.
        obtain ⟨m', hm', hm'a⟩ | hleft := hplace
        · have hfirst : m.m_msg_counter ≤ m'.m_msg_counter := by
            obtain rfl | hm' := List.mem_cons.mp (hfront.perm.mem_iff.mpr hm')
            · exact le_rfl
            · exact (front_first (kept_of_reachable hr₁.reachable)
                (inOrder_of_reachable hstrict hr₁).sorted hfront hm').le
          omega
        · exact hleft
      · obtain ⟨m', hm', hm'a⟩ | ⟨d', hd', hd'a⟩ := hplace
        · obtain rfl | hm' := List.mem_cons.mp (hfront.perm.mem_iff.mpr hm')
          · exact .inr ⟨d, List.mem_append_right _ List.mem_cons_self, hd.trans hm'a⟩
          · exact .inl ⟨m', hheap ▸ hm', hm'a⟩
        · exact .inr ⟨d', List.mem_append_left _ hd', hd'a⟩

/-! ## The assertion of `reanalyzeList` -/

/-- The stalled messages were ready when they were stalled. -/
theorem stalled_ready (h : (bufferSystem p).ReachableWhen (fun r e => forward r e = true) r) :
    ∀ m ∈ r.buf.stalled, m.m_LastEnqueueTime ≤ r.now := by
  refine System.invariantWhen (I := fun r => ∀ m ∈ r.buf.stalled, m.m_LastEnqueueTime ≤ r.now) ?_ ?_ h
  · rintro _ rfl m hm
    cases hm
  · intro r e r' _ hready hC hstep
    have hle : r.now ≤ e.tick := of_decide_eq_true hC
    have hold : ∀ m ∈ r.buf.stalled, m.m_LastEnqueueTime ≤ e.tick := fun m hm => (hready m hm).trans hle
    rw [exec_now (ok_of_toOption hstep)]
    cases moves_of_step hstep with
    | check n _ hbuf _ _ _ => exact hbuf ▸ hold
    | enter message delta draws warmup _ _ _ hbuf _ _ _ =>
      have hstalled : r'.buf.stalled = r.buf.stalled := by rw [hbuf]; rfl
      exact hstalled ▸ hold
    | leave m _ _ hbuf _ _ _ => exact (dequeue_places hbuf).2 ▸ hold
    | again m recycle_latency _ _ hbuf _ _ _ =>
      have hstalled : r'.buf.stalled = r.buf.stalled := by rw [hbuf]; rfl
      exact hstalled ▸ hold
    | stall m addr _ hfront hbuf _ _ _ =>
      intro m' hm'
      obtain rfl | hm' := List.mem_cons.mp ((stall_places hbuf).2.mem_iff.mp hm')
      · exact hfront.ready
      · exact hold m' hm'
    | requeue moved _ hbuf _ _ _ => exact fun m hm => hold m (hbuf.stalled.mem_iff.mpr (List.mem_append_right _ hm))

/-! ## The result -/

/-- **A message buffer keeps and orders its messages.** In every run the messages in the heap, in the stall map and
dequeued are those that were enqueued, each of them once. In a strict FIFO, as long as nothing is recycled or enqueued
during the warm-up, the messages that were never stalled are dequeued in the order of their enqueues, and of two
messages in the heap the one that was enqueued first leaves it first, also if one or both of them are back from the
stall map. The assertion of `reanalyzeList` holds at any tick from that of the last operation on. -/
theorem kept_and_ordered (p : Params) :
    (∀ r, (bufferSystem p).Reachable r →
      (r.contents.map Message.tag).Perm r.enqueued ∧ r.enqueued.map Prod.fst = List.range' 1 r.buf.m_msg_counter) ∧
    (p.m_strict_fifo = true → ∀ r, (bufferSystem p).ReachableWhen (fun r e => orderly r e = true) r →
      ((r.dequeued.filter r.neverStalled).Pairwise fun m m' => m.m_msg_counter < m'.m_msg_counter) ∧
      (∀ m ∈ r.buf.m_prio_heap.toList, r.neverStalled m = true →
      ∀ m' ∈ r.dequeued, m'.m_msg_counter < m.m_msg_counter) ∧
      ∀ a ∈ r.buf.m_prio_heap.toList, ∀ b ∈ r.buf.m_prio_heap.toList, a.m_msg_counter < b.m_msg_counter →
        ∀ r', (bufferSystem p).Run (fun r e => orderly r e = true) r r' →
          ∃ later, r'.departures = r.departures ++ later ∧ Ordered (After a.m_msg_counter b.m_msg_counter) later) ∧
    ∀ r, (bufferSystem p).ReachableWhen (fun r e => forward r e = true) r → ∀ t, r.now ≤ t →
      (∀ addr, r.buf.reanalyzeMessages addr t ≠ .error .requeue) ∧ r.buf.reanalyzeAllMessages t ≠ .error .requeue := by
  refine ⟨fun r hr => ?_, fun hstrict r hr => ?_, fun r hr t ht => ?_⟩
  · have hkept := kept_of_reachable hr
    exact ⟨hkept.perm, hkept.counters⟩
  · have hord := inOrder_of_reachable hstrict hr
    refine ⟨hord.dequeued, hord.ahead, fun a ha b _ hlt r' hrun => ?_⟩
    obtain ⟨later, hlater, hafter, -⟩ := departures_in_order hstrict hr ha hlt hrun
    exact ⟨later, hlater, hafter⟩
  · have hready : ∀ m ∈ r.buf.stalled, ¬ t < m.m_LastEnqueueTime :=
      fun m hm => not_lt.mpr ((stalled_ready hr m hm).trans ht)
    constructor
    · intro addr herr
      obtain ⟨m, hm, hlt⟩ := reanalyzeMessages_requeue herr
      exact hready m hm hlt
    · intro herr
      obtain ⟨m, hm, hlt⟩ := reanalyzeAllMessages_requeue herr
      exact hready m hm hlt

/-- Two messages are stalled, come back in the other order and leave again before a third one. -/
theorem kept_and_ordered_stalls : ∃ r, (bufferSystem (smallBuffer 0 (by decide))).ReachableWhen
    (fun r e => orderly r e = true) r ∧
    r.departures.map (fun d => (d.message.m_msg_counter, d.stalls)) =
    [(1, true), (2, true), (1, false), (2, false), (3, false)] ∧
      ((r.dequeued.filter r.neverStalled).Pairwise fun m m' => m.m_msg_counter < m'.m_msg_counter) := by
  obtain ⟨r, hr, hp⟩ := System.reachableWhen_of_replay (S := bufferSystem (smallBuffer 0 (by decide)))
    (C := orderly) rfl
    [⟨1, .soon 0⟩, ⟨1, .soon 1⟩, ⟨1, .soon 1⟩, ⟨2, .stallMessage 64⟩, ⟨2, .stallMessage 128⟩,
      ⟨3, .reanalyzeMessages 128⟩, ⟨3, .reanalyzeMessages 64⟩, ⟨3, .dequeue⟩, ⟨3, .dequeue⟩, ⟨4, .dequeue⟩]
    (fun r => r.departures.map (fun d => (d.message.m_msg_counter, d.stalls)) =
      [(1, true), (2, true), (1, false), (2, false), (3, false)]) (by decide)
  exact ⟨r, hr, hp, ((kept_and_ordered _).2.1 rfl r hr).1⟩

end Salam.Ruby
